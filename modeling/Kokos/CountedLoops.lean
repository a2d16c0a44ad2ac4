import Mathlib.Order.Interval.Finset.Nat

/-! Loops that count up from zero, their invariant rule, and two of them as one; the same
where the body may fail to return. -/
namespace Kokos.CountedLoops

variable {σ : Type}

def countUp : Nat → (Nat → σ → σ) → σ → σ
  | 0, _, s => s
  | n+1, body, s => body n (countUp n body s)

variable {n m : Nat} {body body' : Nat → σ → σ} {s : σ}

theorem countRule {I : Nat → σ → Prop} (first : I 0 s) (keeps : ∀ i s, i < n → I i s → I (i+1) (body i s)) :
    I n (countUp n body s) := by
  induction n with
  | zero => exact first
  | succ n ih =>
    have before := ih fun i s inside => keeps i s (Nat.lt_succ_of_lt inside)
    exact keeps n _ (Nat.lt_succ_self n) before

theorem countRelated {τ : Type} {R : σ → τ → Prop} {other : Nat → τ → τ} {t : τ} (first : R s t)
    (keeps : ∀ i s t, i < n → R s t → R (body i s) (other i t)) : R (countUp n body s) (countUp n other t) := by
  induction n with
  | zero => exact first
  | succ n ih =>
    have before := ih fun i s t inside => keeps i s t (Nat.lt_succ_of_lt inside)
    exact keeps n _ _ (Nat.lt_succ_self n) before

theorem countCongr (same : ∀ i s, body i s = body' i s) : countUp n body s = countUp n body' s := by
  rw [show body = body' from funext₂ same]

theorem countAdd : countUp (n+m) body s = countUp m (fun j => body (n+j)) (countUp n body s) := by
  induction m with
  | zero => rfl
  | succ m ih =>
    rw [← Nat.add_assoc]
    simp only [countUp]
    rw [ih]

theorem countRows : countUp m (fun i => countUp n fun j => body (i*n+j)) s = countUp (m*n) body s := by
  induction m with
  | zero => rw [Nat.zero_mul]; rfl
  | succ m ih =>
    rw [Nat.succ_mul,countAdd (n := m*n) (m := n),← ih]
    rfl

def tryUp : Nat → (Nat → σ → Option σ) → σ → Option σ
  | 0, _, s => some s
  | n+1, body, s => (tryUp n body s).bind (body n)

theorem tryRule {body : Nat → σ → Option σ} {I : Nat → σ → Prop} (first : I 0 s)
    (keeps : ∀ i s, i < n → I i s → ∃ s', body i s = some s' ∧ I (i+1) s') : ∃ s', tryUp n body s = some s' ∧ I n s' := by
  induction n with
  | zero => exact ⟨s,rfl,first⟩
  | succ n ih =>
    obtain ⟨t,before,here⟩ := ih fun i s inside => keeps i s (Nat.lt_succ_of_lt inside)
    obtain ⟨s',last,kept⟩ := keeps n t (Nat.lt_succ_self n) here
    refine ⟨s',?_,kept⟩
    rw [tryUp,before]
    exact last

end Kokos.CountedLoops

import Mathlib.Order.Interval.Finset.Nat

/-! Specifications of stateful calls that draw units from a finite pool. A call
either returns, or stops because the pool is empty, or because its search does
not end. `Runs` says all three at once: what holds on return and how many units
went, that an empty pool had fewer than `cost` units to start with, and that a
search only spins when `short` holds. -/
namespace Kokos.BudgetedCalls

inductive Stop where | exhausted | spinning
  deriving DecidableEq, Repr

abbrev Call (ω α : Type) := StateT ω (Except Stop) α

variable {ω α β : Type} {pool : ω → Nat} {short : Prop} {w w' : ω}

def Runs (pool : ω → Nat) (short : Prop) (cost : Nat) (x : Call ω α) (w : ω) (post : α → ω → Prop) : Prop :=
  match x w with
  | .ok (a,w') => post a w' ∧ pool w ≤ pool w' + cost
  | .error .exhausted => pool w < cost
  | .error .spinning => short

theorem runsPure {a : α} {post : α → ω → Prop} (h : post a w) :
    Runs pool short 0 (pure a : Call ω α) w post := ⟨h,Nat.le_refl _⟩

theorem runsBind {x : Call ω α} {f : α → Call ω β} {c d : Nat} {mid : α → ω → Prop} {post : β → ω → Prop}
    (first : Runs pool short c x w mid)
    (next : ∀ a w', mid a w' → Runs pool short d (f a) w' post) :
    Runs pool short (c+d) (x >>= f) w post := by
  unfold Runs at first ⊢
  simp only [bind,StateT.bind,Except.bind]
  cases run : x w with
  | error stop =>
    rw [run] at first
    cases stop with
    | exhausted => dsimp only at first ⊢; omega
    | spinning => exact first
  | ok pair =>
    obtain ⟨a,w'⟩ := pair
    rw [run] at first
    have rest := next a w' first.1
    have spent := first.2
    unfold Runs at rest
    dsimp only
    cases again : f a w' with
    | error stop =>
      rw [again] at rest
      cases stop with
      | exhausted => dsimp only at rest ⊢; omega
      | spinning => exact rest
    | ok pair =>
      obtain ⟨b,w''⟩ := pair
      rw [again] at rest
      exact ⟨rest.1,by have := rest.2; omega⟩

theorem runsFree {x : Call ω α} {f : α → Call ω β} {d : Nat} {mid : α → ω → Prop} {post : β → ω → Prop}
    (first : Runs pool short 0 x w mid)
    (next : ∀ a w', mid a w' → Runs pool short d (f a) w' post) : Runs pool short d (x >>= f) w post := by
  have both := runsBind first next
  rwa [Nat.zero_add] at both

theorem runsMono {x : Call ω α} {c d : Nat} {short' : Prop} {post post' : α → ω → Prop}
    (run : Runs pool short c x w post) (cost : c ≤ d) (longer : short → short')
    (weaker : ∀ a w', post a w' → post' a w') : Runs pool short' d x w post' := by
  unfold Runs at run ⊢
  cases h : x w with
  | error stop =>
    rw [h] at run
    cases stop with
    | exhausted => dsimp only at run ⊢; omega
    | spinning => exact longer run
  | ok pair =>
    rw [h] at run
    exact ⟨weaker _ _ run.1,by have := run.2; omega⟩

theorem runsPost {x : Call ω α} {c : Nat} {post post' : α → ω → Prop} (run : Runs pool short c x w post)
    (weaker : ∀ a w', post a w' → post' a w') : Runs pool short c x w post' :=
  runsMono run (Nat.le_refl _) id weaker

theorem runsCost {x : Call ω α} {c d : Nat} {post : α → ω → Prop} (run : Runs pool short c x w post)
    (cost : c ≤ d) : Runs pool short d x w post := runsMono run cost id (fun _ _ h => h)

theorem runsSame {x y : Call ω α} {c : Nat} {post : α → ω → Prop} (same : x w = y w)
    (run : Runs pool short c y w post) : Runs pool short c x w post := by
  unfold Runs at run ⊢
  rwa [same]

theorem runsIf {x y : Call ω α} {c : Nat} {p : Prop} [Decidable p] {post : α → ω → Prop}
    (yes : p → Runs pool short c x w post) (no : ¬ p → Runs pool short c y w post) :
    Runs pool short c (if p then x else y) w post := by
  split
  · exact yes ‹_›
  · exact no ‹_›

theorem runsReturned {x : Call ω α} {c : Nat} {post : α → ω → Prop} {a : α} (run : Runs pool short c x w post)
    (ok : x w = .ok (a,w')) : post a w' := by
  unfold Runs at run
  rw [ok] at run
  exact run.1

theorem runsSpent {x : Call ω α} {c : Nat} {post : α → ω → Prop} {a : α} (run : Runs pool short c x w post)
    (ok : x w = .ok (a,w')) : pool w ≤ pool w' + c := by
  unfold Runs at run
  rw [ok] at run
  exact run.2

theorem runsReturns {x : Call ω α} {c : Nat} {post : α → ω → Prop} (run : Runs pool short c x w post)
    (long : ¬ short) (enough : c ≤ pool w) :
    ∃ a w', x w = .ok (a,w') ∧ post a w' ∧ pool w ≤ pool w' + c := by
  unfold Runs at run
  cases h : x w with
  | error stop =>
    rw [h] at run
    cases stop with
    | exhausted => dsimp only at run; omega
    | spinning => exact absurd run long
  | ok pair =>
    obtain ⟨a,w'⟩ := pair
    rw [h] at run
    exact ⟨a,w',rfl,run.1,run.2⟩

theorem runsSupplied {x : Call ω α} {c : Nat} {post : α → ω → Prop} (run : Runs pool short c x w post)
    (enough : c ≤ pool w) : x w ≠ .error .exhausted := by
  intro stops
  unfold Runs at run
  rw [stops] at run
  exact Nat.not_lt_of_le enough run

/-! Calls one after the other, where the first one stops or goes through. -/

theorem bindStops {x : Call ω α} {f : α → Call ω β} {stop : Stop} (stops : x w = .error stop) : (x >>= f) w = .error stop := by
  simp only [bind,StateT.bind,Except.bind,stops]

theorem bindGoes {x : Call ω α} {f : α → Call ω β} {a : α} (goes : x w = .ok (a,w')) : (x >>= f) w = f a w' := by
  simp only [bind,StateT.bind,Except.bind,goes]

def Finishes (x : Call ω α) : Prop := ∀ w, x w ≠ .error .spinning

theorem finishesOk {x : Call ω α} (ok : ∀ w, ∃ r, x w = .ok r) : Finishes x := by
  intro w spins
  obtain ⟨r,same⟩ := ok w
  rw [same] at spins
  cases spins

theorem finishesPure (a : α) : Finishes (pure a : Call ω α) := finishesOk fun w => ⟨(a,w),rfl⟩

theorem finishesIf {x y : Call ω α} {p : Prop} [Decidable p] (yes : p → Finishes x) (no : ¬ p → Finishes y) :
    Finishes (if p then x else y) := by
  split
  · exact yes ‹_›
  · exact no ‹_›

theorem bindFinishes {x : Call ω α} {f : α → Call ω β} (next : ∀ a, Finishes (f a)) (finished : x w ≠ .error .spinning) :
    (x >>= f) w ≠ .error .spinning := by
  cases run : x w with
  | error stop =>
    rw [run] at finished
    rw [bindStops run]
    exact fun same => finished (congrArg Except.error (Except.error.inj same))
  | ok pair =>
    rw [bindGoes run]
    exact next pair.1 pair.2

theorem finishesBind {x : Call ω α} {f : α → Call ω β} (first : Finishes x) (next : ∀ a, Finishes (f a)) : Finishes (x >>= f) :=
  fun w => bindFinishes next (first w)

end Kokos.BudgetedCalls

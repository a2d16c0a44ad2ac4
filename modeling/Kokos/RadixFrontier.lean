import Kokos.RadixRanges

/-! A tree of tables that grows to the right: from its frontier on, every entry of
the depth it is filled at is empty, and so is every entry above to the right. -/
namespace Kokos.RadixTables

variable {S : Shape} {E E' : Nat → Nat → Nat} {d n m p q : Nat}

variable (S) in
structure Frontier (E : Nat → Nat → Nat) (d p : Nat) : Prop where
  clear : Clear S E d p
  empty : E d p = 0
  ahead : ∀ e k, e ≤ d → p / S.fanout^(d-e) < k → E e k = 0

theorem frontierLater (blank : ∀ e < d, S.leaf e 0 = false) (frontier : Frontier S E d p) (le : p ≤ q) :
    Frontier S E d q where
  clear e he := by
    by_cases same : q / S.fanout^(d-e) = p / S.fanout^(d-e)
    · rw [same]
      exact frontier.clear e he
    · have path : p / S.fanout^(d-e) ≤ q / S.fanout^(d-e) := Nat.div_le_div_right le
      rw [frontier.ahead e _ (Nat.le_of_lt he) (by omega)]
      exact blank e he
  empty := by
    by_cases same : q = p
    · rw [same]
      exact frontier.empty
    · exact frontier.ahead d q (Nat.le_refl _) (by simp; omega)
  ahead e k he less := by
    have path : p / S.fanout^(d-e) ≤ q / S.fanout^(d-e) := Nat.div_le_div_right le
    exact frontier.ahead e k he (by omega)

theorem frontierFilled {val : Nat → Nat} (filled : Filled S E E' d n m val) (behind : n+m ≤ p)
    (frontier : Frontier S E d p) : Frontier S E' d p where
  clear := filledClear filled frontier.clear
  empty := by
    rw [filled.beside d p (Nat.le_refl _) (by simp; omega)]
    exact frontier.empty
  ahead e k he less := by
    by_cases level : e = d
    · subst level
      rw [filled.beside e k (Nat.le_refl _) (by simp at less ⊢; omega)]
      exact frontier.ahead e k he less
    · rcases filled.above e k (by omega) with same | ⟨_,_,j,hj,path⟩
      · rw [same]
        exact frontier.ahead e k he less
      · have before : (n+j) / S.fanout^(d-e) ≤ p / S.fanout^(d-e) := Nat.div_le_div_right (by omega)
        omega

theorem frontierBeside (blank : ∀ e < d, S.leaf e 0 = false) (frontier : Frontier S E d p) {e : Nat} (he : e ≤ d) :
    Clear S E e (p / S.fanout^(d-e) + 1) ∧ E e (p / S.fanout^(d-e) + 1) = 0 := by
  refine ⟨?_,frontier.ahead e _ he (Nat.lt_succ_self _)⟩
  have positive : 0 < S.fanout^(d-e) := Nat.pow_pos S.positive
  have next : p ≤ (p / S.fanout^(d-e) + 1) * S.fanout^(d-e) :=
    Nat.le_of_lt (Nat.lt_mul_of_div_lt (Nat.lt_succ_self _) positive)
  have clear := (frontierLater blank frontier next).clear
  intro f hf
  have here := clear f (by omega)
  rwa [show d-f = (d-e)+(e-f) by omega,← divPow,Nat.mul_div_cancel _ positive] at here

theorem frontierDeeper (blank : S.leaf d 0 = false) (grounded : Grounded S E) (frontier : Frontier S E d p) :
    Frontier S E (d+1) (p*S.fanout) := by
  have up : p*S.fanout / S.fanout = p := Nat.mul_div_cancel _ S.positive
  have path : ∀ e ≤ d, p*S.fanout / S.fanout^(d+1-e) = p / S.fanout^(d-e) := by
    intro e he
    rw [show d+1-e = (d-e)+1 by omega,← divPowSucc,up]
  have zero : ∀ k, p ≤ k / S.fanout → E (d+1) k = 0 := by
    intro k past
    by_contra some
    have link := (linkIsSome.mp (grounded d k some)).1
    by_cases same : k / S.fanout = p
    · rw [same,frontier.empty] at link
      exact link rfl
    · exact link (frontier.ahead d _ (Nat.le_refl _) (by simp; omega))
  refine ⟨fun e he => ?_,zero _ (by rw [up]),fun e k he less => ?_⟩
  · rw [path e (by omega)]
    by_cases last : e = d
    · subst last
      rw [Nat.sub_self,Nat.pow_zero,Nat.div_one,frontier.empty]
      exact blank
    · exact frontier.clear e (by omega)
  · by_cases last : e = d+1
    · subst last
      rw [Nat.sub_self,Nat.pow_zero,Nat.div_one] at less
      exact zero k ((Nat.le_div_iff_mul_le S.positive).mpr (Nat.le_of_lt less))
    · rw [path e (by omega)] at less
      exact frontier.ahead e k (by omega) less

theorem frontierDown {j : Nat} (blank : ∀ e < d+j, S.leaf e 0 = false) (grounded : Grounded S E) (frontier : Frontier S E d p) :
    Frontier S E (d+j) (p*S.fanout^j) := by
  induction j with
  | zero => simpa using frontier
  | succ j ih =>
    have next := frontierDeeper (blank (d+j) (by omega)) grounded (ih fun e he => blank e (by omega))
    rwa [Nat.mul_assoc,← Nat.pow_succ] at next

theorem frontierBlank (blank : ∀ e < d, S.leaf e 0 = false) (zero : ∀ e k, E e k = 0) : Frontier S E d 0 :=
  ⟨fun e he => by rw [zero]; exact blank e he,zero _ _,fun e k _ _ => zero e k⟩

end Kokos.RadixTables

import Mathlib.Order.Interval.Finset.Nat

/-! Trees of tables, held in a store of rows: an entry is empty, a leaf, or a link
to the table one level down. Depth counts from the root, and entry `n` of depth `d`
is entry `n % fanout` of the table of depth `d` numbered `n / fanout`; so the entry
above `n` has number `n / fanout` at depth `d - 1`. When no two tables share a row,
a write changes its own entry and the entries below it, and no other. -/
namespace Kokos.RadixTables

structure Shape where
  fanout : Nat
  leaf : Nat → Nat → Bool
  target : Nat → Nat
  positive : 0 < fanout

variable (S : Shape)

def Shape.link (d e : Nat) : Option Nat := if e ≠ 0 ∧ S.leaf d e = false then some (S.target e) else none

def tableAt (T : Nat → Nat → Nat) (root : Nat) : Nat → Nat → Option Nat
  | 0, q => if q = 0 then some root else none
  | d+1, q => (tableAt T root d (q / S.fanout)).bind fun f => S.link d (T f (q % S.fanout))

def entryAt (T : Nat → Nat → Nat) (root d n : Nat) : Nat :=
  match tableAt S T root d (n / S.fanout) with
  | some f => T f (n % S.fanout)
  | none => 0

def tab (root : Nat) (E : Nat → Nat → Nat) : Nat → Nat → Option Nat
  | 0, q => if q = 0 then some root else none
  | d+1, q => S.link d (E d q)

def Separate (root : Nat) (E : Nat → Nat → Nat) : Prop :=
  ∀ d q e r g, tab S root E d q = some g → tab S root E e r = some g → d = e ∧ q = r

def put (E : Nat → Nat → Nat) (d n v : Nat) : Nat → Nat → Nat :=
  fun e m => if e = d ∧ m = n then v else if d < e ∧ m / S.fanout^(e-d) = n then 0 else E e m

variable {S}

theorem linkZero (d : Nat) : S.link d 0 = none := by simp [Shape.link]

theorem linkSome {d e g : Nat} (h : S.link d e = some g) : e ≠ 0 ∧ S.leaf d e = false ∧ S.target e = g := by
  unfold Shape.link at h
  split at h
  · rename_i both
    exact ⟨both.1,both.2,Option.some.inj h⟩
  · contradiction

theorem linkOf {d e : Nat} (nonzero : e ≠ 0) (inner : S.leaf d e = false) : S.link d e = some (S.target e) := by
  simp [Shape.link,nonzero,inner]

theorem linkLeaf {d e : Nat} (leaf : S.leaf d e = true) : S.link d e = none := by simp [Shape.link,leaf]

theorem tableAtLink (T : Nat → Nat → Nat) (root d n : Nat) :
    tableAt S T root (d+1) n = S.link d (entryAt S T root d n) := by
  simp only [tableAt,entryAt]
  cases tableAt S T root d (n / S.fanout) with
  | none => simp [linkZero]
  | some f => rfl

theorem tableAtTab (T : Nat → Nat → Nat) (root d q : Nat) :
    tableAt S T root d q = tab S root (entryAt S T root) d q := by
  cases d with
  | zero => rfl
  | succ d => rw [tableAtLink]; rfl

theorem entryAbove {T : Nat → Nat → Nat} {root d n : Nat} (nonzero : entryAt S T root (d+1) n ≠ 0) :
    entryAt S T root d (n / S.fanout) ≠ 0 ∧ S.leaf d (entryAt S T root d (n / S.fanout)) = false := by
  cases h : tableAt S T root (d+1) (n / S.fanout) with
  | none => simp [entryAt,h] at nonzero
  | some f =>
    rw [tableAtLink] at h
    exact ⟨(linkSome h).1,(linkSome h).2.1⟩

theorem tableAtCongr {T T' : Nat → Nat → Nat} {root : Nat}
    (same : ∀ d q f, tableAt S T root d q = some f → ∀ i < S.fanout, T' f i = T f i) (d q : Nat) :
    tableAt S T' root d q = tableAt S T root d q := by
  induction d generalizing q with
  | zero => rfl
  | succ d ih =>
    simp only [tableAt,ih]
    cases here : tableAt S T root d (q / S.fanout) with
    | none => rfl
    | some f =>
      simp only [Option.bind_some]
      rw [same d _ f here _ (Nat.mod_lt _ S.positive)]

theorem entryAtCongr {T T' : Nat → Nat → Nat} {root : Nat}
    (same : ∀ d q f, tableAt S T root d q = some f → ∀ i < S.fanout, T' f i = T f i) :
    entryAt S T' root = entryAt S T root := by
  funext d n
  simp only [entryAt,tableAtCongr same]
  cases here : tableAt S T root d (n / S.fanout) with
  | none => rfl
  | some f => exact same d _ f here _ (Nat.mod_lt _ S.positive)

/-! Writing one entry. -/

section Write
variable {T T' : Nat → Nat → Nat} {root k q i f v : Nat}

theorem numberSplit {n : Nat} : n = q*S.fanout+i ∧ i < S.fanout ↔ n / S.fanout = q ∧ n % S.fanout = i ∧ i < S.fanout := by
  constructor
  · rintro ⟨rfl,hi⟩
    refine ⟨?_,?_,hi⟩
    · rw [Nat.mul_comm,Nat.mul_add_div S.positive,Nat.div_eq_of_lt hi,Nat.add_zero]
    · rw [Nat.mul_comm,Nat.mul_add_mod,Nat.mod_eq_of_lt hi]
  · rintro ⟨rfl,rfl,hi⟩
    exact ⟨by rw [Nat.mul_comm]; exact (Nat.div_add_mod n S.fanout).symm,hi⟩

theorem tableAtWrite (separate : Separate S root (entryAt S T root)) (here : tableAt S T root k q = some f)
    (hi : i < S.fanout)
    (same : ∀ d r h, tableAt S T root d r = some h → ∀ j < S.fanout, ¬ (h = f ∧ j = i) → T' h j = T h j)
    (value : T' f i = v) (below : ∀ g, S.link k v = some g → ∀ j < S.fanout, T' g j = 0) (d r : Nat) :
    tableAt S T' root d r = if d = k+1 ∧ r = q*S.fanout+i then S.link k v
      else if k+1 < d ∧ r / S.fanout^(d-(k+1)) = q*S.fanout+i then none else tableAt S T root d r := by
  -- Tables of another depth are other tables, and keep their entries.
  have apart : ∀ d r, d ≠ k → ((tableAt S T root d (r / S.fanout)).bind fun h => S.link d (T' h (r % S.fanout))) =
      (tableAt S T root d (r / S.fanout)).bind fun h => S.link d (T h (r % S.fanout)) := by
    intro d r away
    cases found : tableAt S T root d (r / S.fanout) with
    | none => rfl
    | some h =>
      have keep : T' h (r % S.fanout) = T h (r % S.fanout) := by
        refine same d _ h found _ (Nat.mod_lt _ S.positive) ?_
        rintro ⟨rfl,_⟩
        rw [tableAtTab] at found here
        exact away (separate _ _ _ _ _ found here).1
      simp only [Option.bind_some,keep]
  induction d generalizing r with
  | zero => simp [tableAt]
  | succ d ih =>
    simp only [tableAt]
    rcases Nat.lt_trichotomy d k with above | level | under
    · rw [ih (r / S.fanout),if_neg (by omega),if_neg (by omega),if_neg (by omega),if_neg (by omega)]
      exact apart d r (by omega)
    · subst level
      rw [ih (r / S.fanout),if_neg (by omega),if_neg (by omega)]
      by_cases this : r = q*S.fanout+i
      · obtain ⟨number,index,_⟩ := numberSplit.mp ⟨this,hi⟩
        rw [if_pos ⟨rfl,this⟩,number,here,index]
        simp only [Option.bind_some,value]
      · rw [if_neg (fun both => this both.2),if_neg (by omega)]
        cases found : tableAt S T root d (r / S.fanout) with
        | none => rfl
        | some h =>
          have keep : T' h (r % S.fanout) = T h (r % S.fanout) := by
            refine same d _ h found _ (Nat.mod_lt _ S.positive) ?_
            rintro ⟨rfl,index⟩
            rw [tableAtTab] at found here
            have number := (separate _ _ _ _ _ found here).2
            exact this (numberSplit.mpr ⟨number,index,hi⟩).1
          simp only [Option.bind_some,keep]
    · rw [ih (r / S.fanout),if_neg (show ¬ (d+1 = k+1 ∧ r = q*S.fanout+i) by omega)]
      have power : r / S.fanout^(d+1-(k+1)) = r / S.fanout / S.fanout^(d-(k+1)) := by
        rw [show d+1-(k+1) = (d-(k+1))+1 by omega,Nat.pow_succ,Nat.mul_comm,Nat.div_div_eq_div_mul]
      by_cases child : d = k+1
      · subst child
        simp only [Nat.sub_self,Nat.pow_zero,Nat.div_one] at power
        rw [power]
        by_cases this : r / S.fanout = q*S.fanout+i
        · rw [if_pos ⟨rfl,this⟩,if_pos ⟨by omega,this⟩]
          cases linked : S.link k v with
          | none => rfl
          | some g =>
            simp only [Option.bind_some]
            rw [below g linked _ (Nat.mod_lt _ S.positive),linkZero]
        · rw [if_neg (fun both => this both.2),if_neg (by omega),if_neg (fun both => this both.2)]
          exact apart (k+1) r (by omega)
      · rw [if_neg (by omega),power]
        by_cases this : r / S.fanout / S.fanout^(d-(k+1)) = q*S.fanout+i
        · rw [if_pos ⟨by omega,this⟩,if_pos ⟨by omega,this⟩]; rfl
        · rw [if_neg (fun both => this both.2),if_neg (fun both => this both.2)]
          exact apart d r (by omega)

theorem entryAtWrite (separate : Separate S root (entryAt S T root)) (here : tableAt S T root k q = some f)
    (hi : i < S.fanout)
    (same : ∀ d r h, tableAt S T root d r = some h → ∀ j < S.fanout, ¬ (h = f ∧ j = i) → T' h j = T h j)
    (value : T' f i = v) (below : ∀ g, S.link k v = some g → ∀ j < S.fanout, T' g j = 0) :
    entryAt S T' root = put S (entryAt S T root) k (q*S.fanout+i) v := by
  funext d n
  have tables := tableAtWrite separate here hi same value below d (n / S.fanout)
  have keep : ∀ h, tableAt S T root d (n / S.fanout) = some h → ¬ (d = k ∧ n = q*S.fanout+i) →
      T' h (n % S.fanout) = T h (n % S.fanout) := by
    intro h found away
    refine same d _ h found _ (Nat.mod_lt _ S.positive) ?_
    rintro ⟨rfl,index⟩
    rw [tableAtTab] at found here
    obtain ⟨depth,number⟩ := separate _ _ _ _ _ found here
    exact away ⟨depth,(numberSplit.mpr ⟨number,index,hi⟩).1⟩
  unfold put
  by_cases this : d = k ∧ n = q*S.fanout+i
  · obtain ⟨rfl,this⟩ := this
    obtain ⟨number,index,_⟩ := numberSplit.mp ⟨this,hi⟩
    rw [if_neg (by omega),if_neg (by omega),number,here] at tables
    rw [if_pos ⟨rfl,this⟩]
    simp only [entryAt,number,tables,index,value]
  · rw [if_neg this]
    by_cases inside : k < d ∧ n / S.fanout^(d-k) = q*S.fanout+i
    · rw [if_pos inside]
      have power : n / S.fanout / S.fanout^(d-(k+1)) = n / S.fanout^(d-k) := by
        rw [Nat.div_div_eq_div_mul,show d-k = (d-(k+1))+1 by omega,Nat.pow_succ,Nat.mul_comm]
      by_cases child : d = k+1
      · subst child
        have first : n / S.fanout = q*S.fanout+i := by
          have h := power.trans inside.2
          simpa using h
        rw [if_pos ⟨rfl,first⟩] at tables
        simp only [entryAt,tables]
        cases linked : S.link k v with
        | none => rfl
        | some g => exact below g linked _ (Nat.mod_lt _ S.positive)
      · rw [if_neg (by omega),if_pos ⟨by omega,power.trans inside.2⟩] at tables
        simp only [entryAt,tables]
    · rw [if_neg inside]
      have outside : tableAt S T' root d (n / S.fanout) = tableAt S T root d (n / S.fanout) := by
        rw [tables,if_neg ?_,if_neg ?_]
        · rintro ⟨depth,number⟩
          apply inside
          refine ⟨by omega,?_⟩
          rw [← number,Nat.div_div_eq_div_mul,show d-k = (d-(k+1))+1 by omega,Nat.pow_succ,Nat.mul_comm]
        · rintro ⟨rfl,number⟩
          apply inside
          refine ⟨by omega,?_⟩
          rw [← number]
          simp
      simp only [entryAt,outside]
      cases found : tableAt S T root d (n / S.fanout) with
      | none => rfl
      | some h => exact keep h found this

end Write

/-! Writing one entry of a tree given by its entries. -/

theorem putSame (E : Nat → Nat → Nat) (d n v : Nat) : put S E d n v d n = v := by simp [put]

theorem putBelow (E : Nat → Nat → Nat) {d n e m : Nat} (v : Nat) (deeper : d < e)
    (under : m / S.fanout^(e-d) = n) : put S E d n v e m = 0 := by
  have other : ¬ (e = d ∧ m = n) := by omega
  simp [put,other,deeper,under]

theorem putOther (E : Nat → Nat → Nat) {d n e m : Nat} (v : Nat) (other : ¬ (e = d ∧ m = n))
    (outside : ¬ (d < e ∧ m / S.fanout^(e-d) = n)) : put S E d n v e m = E e m := by
  simp only [put,if_neg other,if_neg outside]

theorem tabPut {root d q g : Nat} {E : Nat → Nat → Nat} {k n v : Nat}
    (h : tab S root (put S E k n v) d q = some g) :
    (tab S root E d q = some g ∧ ¬ (d = k+1 ∧ q = n)) ∨ (d = k+1 ∧ q = n ∧ S.link k v = some g) := by
  cases d with
  | zero => exact Or.inl ⟨h,by omega⟩
  | succ d =>
    simp only [tab] at h ⊢
    by_cases this : d = k ∧ q = n
    · obtain ⟨rfl,rfl⟩ := this
      rw [putSame] at h
      exact Or.inr ⟨rfl,rfl,h⟩
    · by_cases under : k < d ∧ q / S.fanout^(d-k) = n
      · rw [putBelow E v under.1 under.2,linkZero] at h
        contradiction
      · rw [putOther E v this under] at h
        exact Or.inl ⟨h,by omega⟩

theorem separatePut {root k n v : Nat} {E : Nat → Nat → Nat} (separate : Separate S root E)
    (fresh : ∀ g, S.link k v = some g → ∀ d q, tab S root E d q ≠ some g) :
    Separate S root (put S E k n v) := by
  intro d q e r g left right
  rcases tabPut left with ⟨hl,_⟩ | ⟨rfl,rfl,hl⟩ <;> rcases tabPut right with ⟨hr,_⟩ | ⟨rfl,rfl,hr⟩
  · exact separate d q e r g hl hr
  · exact absurd hl (fresh g hr d q)
  · exact absurd hr (fresh g hl e r)
  · exact ⟨rfl,rfl⟩

end Kokos.RadixTables

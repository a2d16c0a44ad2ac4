import Kokos.RadixTables

/-! Ranges of consecutive entries in a tree of tables. Filling a range writes its
entries, drops what was below them and may link new tables into empty entries above
the range or above its end; every other entry stays. -/
namespace Kokos.RadixTables

variable {S : Shape} {E E' E'' : Nat → Nat → Nat}

theorem divPow (n a b : Nat) : n / S.fanout^a / S.fanout^b = n / S.fanout^(a+b) := by
  rw [Nat.div_div_eq_div_mul,Nat.pow_add]

theorem divPowSucc (n a : Nat) : n / S.fanout / S.fanout^a = n / S.fanout^(a+1) := by
  rw [Nat.div_div_eq_div_mul,Nat.pow_succ,Nat.mul_comm]

variable (S) in
def Grounded (E : Nat → Nat → Nat) : Prop :=
  ∀ d n, E (d+1) n ≠ 0 → (S.link d (E d (n / S.fanout))).isSome

variable (S) in
def Clear (E : Nat → Nat → Nat) (d n : Nat) : Prop :=
  ∀ e < d, S.leaf e (E e (n / S.fanout^(d-e))) = false

instance (E : Nat → Nat → Nat) (d n : Nat) : Decidable (Clear S E d n) :=
  inferInstanceAs (Decidable (∀ e < d, S.leaf e (E e (n / S.fanout^(d-e))) = false))

theorem entryAtGrounded (T : Nat → Nat → Nat) (root : Nat) : Grounded S (entryAt S T root) := by
  intro d n nonzero
  obtain ⟨link,inner⟩ := entryAbove nonzero
  simp [linkOf link inner]

theorem linkIsSome {d e : Nat} : (S.link d e).isSome ↔ e ≠ 0 ∧ S.leaf d e = false := by
  unfold Shape.link
  split <;> simp_all

theorem groundedLink (grounded : Grounded S E) {d n : Nat} (nonzero : E d n ≠ 0) :
    ∀ e < d, (S.link e (E e (n / S.fanout^(d-e)))).isSome := by
  induction d generalizing n with
  | zero => intro e he; omega
  | succ d ih =>
    intro e he
    have up := grounded d n nonzero
    by_cases last : e = d
    · subst last
      simpa using up
    · have further := ih (linkIsSome.mp up).1 e (by omega)
      rwa [divPowSucc,show d-e+1 = d+1-e by omega] at further

theorem groundedZero (grounded : Grounded S E) {e d n : Nat} (deeper : e < d)
    (none : (S.link e (E e (n / S.fanout^(d-e)))).isSome = false) : E d n = 0 := by
  by_contra nonzero
  have link := groundedLink grounded nonzero e deeper
  rw [none] at link
  contradiction

theorem clearOfNonzero (grounded : Grounded S E) {d n : Nat} (nonzero : E d n ≠ 0) : Clear S E d n :=
  fun e he => (linkIsSome.mp (groundedLink grounded nonzero e he)).2

theorem clearSucc {d n : Nat} : Clear S E (d+1) n ↔ Clear S E d (n / S.fanout) ∧ S.leaf d (E d (n / S.fanout)) = false := by
  constructor
  · intro clear
    refine ⟨fun e he => ?_,?_⟩
    · have up := clear e (by omega)
      rwa [show d+1-e = (d-e)+1 by omega,← divPowSucc] at up
    · have last := clear d (Nat.lt_succ_self d)
      rwa [show d+1-d = 1 by omega,Nat.pow_one] at last
  · rintro ⟨above,leaf⟩ e he
    by_cases last : e = d
    · subst last
      rwa [show e+1-e = 1 by omega,Nat.pow_one]
    · have up := above e (by omega)
      rwa [divPowSucc,show d-e+1 = d+1-e by omega] at up

variable (S) in
structure Filled (E E' : Nat → Nat → Nat) (d n m : Nat) (val : Nat → Nat) : Prop where
  value : ∀ j < m, E' d (n+j) = val j
  below : ∀ e k, d < e → n ≤ k / S.fanout^(e-d) → k / S.fanout^(e-d) < n+m → E' e k = 0
  beside : ∀ e k, d ≤ e → k / S.fanout^(e-d) < n ∨ n+m ≤ k / S.fanout^(e-d) → E' e k = E e k
  above : ∀ e k, e < d → E' e k = E e k ∨
    E e k = 0 ∧ (S.link e (E' e k)).isSome ∧ ∃ j ≤ m, k = (n+j) / S.fanout^(d-e)

variable (S) in
abbrev Opened (E E' : Nat → Nat → Nat) (d n : Nat) : Prop := Filled S E E' d n 0 (fun _ => 0)

theorem filledNone (E : Nat → Nat → Nat) (d n : Nat) : Opened S E E d n :=
  ⟨by omega,by omega,fun _ _ _ _ => rfl,fun _ _ _ => Or.inl rfl⟩

theorem filledPut (E : Nat → Nat → Nat) (d n v : Nat) : Filled S E (put S E d n v) d n 1 (fun _ => v) := by
  refine ⟨?_,?_,?_,?_⟩
  · intro j hj
    obtain rfl : j = 0 := by omega
    exact putSame E d n v
  · intro e k deeper low high
    exact putBelow E v deeper (by omega)
  · intro e k deeper outside
    by_cases level : e = d
    · subst level
      simp only [Nat.sub_self,Nat.pow_zero,Nat.div_one] at outside
      exact putOther E v (by omega) (by omega)
    · exact putOther E v (by omega) (by omega)
  · intro e k higher
    exact Or.inl (putOther E v (by omega) (by omega))

theorem filledAppend {d n a b : Nat} {val : Nat → Nat} (left : Filled S E E' d n a val)
    (right : Filled S E' E'' d (n+a) b (fun j => val (a+j))) : Filled S E E'' d n (a+b) val := by
  refine ⟨?_,?_,?_,?_⟩
  · intro j hj
    by_cases first : j < a
    · have keep := right.beside d (n+j) (Nat.le_refl _) (by simp; omega)
      rw [keep,left.value j first]
    · have last := right.value (j-a) (by omega)
      rwa [show n+a+(j-a) = n+j by omega,show a+(j-a) = j by omega] at last
  · intro e k deeper low high
    by_cases first : k / S.fanout^(e-d) < n+a
    · rw [right.beside e k (by omega) (Or.inl first)]
      exact left.below e k deeper low first
    · exact right.below e k deeper (by omega) (by omega)
  · intro e k deeper outside
    rw [right.beside e k deeper (by omega)]
    exact left.beside e k deeper (by omega)
  · intro e k higher
    rcases right.above e k higher with same | ⟨zero,link,j,hj,path⟩
    · rcases left.above e k higher with old | ⟨old,link,j,hj,path⟩
      · exact Or.inl (same.trans old)
      · exact Or.inr ⟨old,by rwa [same],j,by omega,path⟩
    · rcases left.above e k higher with old | ⟨_,linked,_⟩
      · exact Or.inr ⟨old.symm.trans zero,link,a+j,by omega,by rw [path,Nat.add_assoc]⟩
      · exact absurd zero (linkIsSome.mp linked).1

theorem filledNoValue {d n : Nat} {val : Nat → Nat} (h : Filled S E E' d n 0 val) (val' : Nat → Nat) :
    Filled S E E' d n 0 val' := ⟨by omega,h.below,h.beside,h.above⟩

theorem filledAfterOpened {d n m : Nat} {val : Nat → Nat} (opened : Opened S E E' d n)
    (filled : Filled S E' E'' d n m val) : Filled S E E'' d n m val := by
  have rest : Filled S E' E'' d (n+0) m (fun j => val (0+j)) := by simpa using filled
  have both := filledAppend (filledNoValue opened val) rest
  rwa [Nat.zero_add] at both

theorem filledThenOpened {d n m : Nat} {val : Nat → Nat} (filled : Filled S E E' d n m val)
    (opened : Opened S E' E'' d (n+m)) : Filled S E E'' d n m val :=
  filledAppend filled (filledNoValue opened _)

theorem filledCongr {d n m : Nat} {val val' : Nat → Nat} (filled : Filled S E E' d n m val)
    (same : ∀ j < m, val j = val' j) : Filled S E E' d n m val' :=
  ⟨fun j hj => (filled.value j hj).trans (same j hj),filled.below,filled.beside,filled.above⟩

theorem openedPut (grounded : Grounded S E) {d n e v : Nat} (higher : e < d)
    (empty : E e (n / S.fanout^(d-e)) = 0) (link : (S.link e v).isSome) :
    Opened S E (put S E e (n / S.fanout^(d-e)) v) d n := by
  have other : ∀ f k, ¬ (f = e ∧ k = n / S.fanout^(d-e)) → put S E e (n / S.fanout^(d-e)) v f k = E f k := by
    intro f k away
    by_cases under : e < f ∧ k / S.fanout^(f-e) = n / S.fanout^(d-e)
    · rw [putBelow E v under.1 under.2]
      exact (groundedZero grounded under.1 (by rw [under.2,empty,linkZero]; rfl)).symm
    · exact putOther E v away under
  refine ⟨by omega,by omega,?_,?_⟩
  · intro f k deeper _
    exact other f k (by omega)
  · intro f k high
    by_cases this : f = e ∧ k = n / S.fanout^(d-e)
    · obtain ⟨rfl,rfl⟩ := this
      exact Or.inr ⟨empty,by rwa [putSame],0,Nat.le_refl _,rfl⟩
    · exact Or.inl (other f k this)

theorem openedDeeper {d n : Nat} (opened : Opened S E E' d (n / S.fanout)) : Opened S E E' (d+1) n := by
  refine ⟨by omega,by omega,?_,?_⟩
  · intro e k deeper _
    exact opened.beside e k (by omega) (by omega)
  · intro e k higher
    by_cases last : e = d
    · subst last
      exact Or.inl (opened.beside e k (Nat.le_refl _) (by omega))
    · rcases opened.above e k (by omega) with same | ⟨zero,link,j,hj,path⟩
      · exact Or.inl same
      · obtain rfl : j = 0 := by omega
        refine Or.inr ⟨zero,link,0,Nat.le_refl _,?_⟩
        rw [path,Nat.add_zero,Nat.add_zero,divPowSucc,show d-e+1 = d+1-e by omega]

theorem openedDown {k d n : Nat} (le : k ≤ d) (opened : Opened S E E' k (n / S.fanout^(d-k))) :
    Opened S E E' d n := by
  induction d generalizing n with
  | zero =>
    obtain rfl : k = 0 := by omega
    simpa using opened
  | succ d ih =>
    by_cases last : k = d+1
    · subst last
      simpa using opened
    · refine openedDeeper (ih (by omega) ?_)
      rwa [divPowSucc,show d-k+1 = d+1-k by omega]

theorem filledAbove {d n m : Nat} {val : Nat → Nat} (filled : Filled S E E' d n m val) {e k : Nat}
    (higher : e < d) (nonzero : E e k ≠ 0) : E' e k = E e k := by
  rcases filled.above e k higher with same | ⟨zero,_⟩
  · exact same
  · contradiction

theorem filledClear {d n m p : Nat} {val : Nat → Nat} (filled : Filled S E E' d n m val)
    (clear : Clear S E d p) : Clear S E' d p := by
  intro e he
  rcases filled.above e (p / S.fanout^(d-e)) he with same | ⟨_,link,_⟩
  · rw [same]; exact clear e he
  · exact (linkIsSome.mp link).2

theorem openedSame (grounded : Grounded S E) {d n : Nat} (nonzero : E d n ≠ 0) (opened : Opened S E E' d n) :
    E' = E := by
  funext e k
  by_cases higher : e < d
  · rcases opened.above e k higher with same | ⟨zero,_,j,hj,path⟩
    · exact same
    · obtain rfl : j = 0 := by omega
      have link := groundedLink grounded nonzero e higher
      rw [Nat.add_zero] at path
      rw [← path] at link
      exact absurd zero (linkIsSome.mp link).1
  · exact opened.beside e k (by omega) (by omega)

/-! The leaf over a number `v` of the deepest level `D`. -/

variable (S) in
def Leaf (E : Nat → Nat → Nat) (D v e : Nat) : Prop :=
  E e (v / S.fanout^(D-e)) ≠ 0 ∧ S.leaf e (E e (v / S.fanout^(D-e))) = true

instance (E : Nat → Nat → Nat) (D v e : Nat) : Decidable (Leaf S E D v e) :=
  inferInstanceAs (Decidable (E e (v / S.fanout^(D-e)) ≠ 0 ∧ S.leaf e (E e (v / S.fanout^(D-e))) = true))

theorem leafUnique (grounded : Grounded S E) {D v d e : Nat} (hd : d ≤ D) (he : e ≤ D) (left : Leaf S E D v d)
    (right : Leaf S E D v e) : d = e := by
  have only : ∀ {a b}, a < b → b ≤ D → Leaf S E D v a → Leaf S E D v b → False := by
    intro a b less bound upper lower
    have link := groundedLink grounded lower.1 a less
    rw [divPow,show D-b+(b-a) = D-a by omega] at link
    have inner := (linkIsSome.mp link).2
    rw [upper.2] at inner
    contradiction
  rcases Nat.lt_trichotomy d e with less | same | more
  · exact (only less he left right).elim
  · exact same
  · exact (only more hd right left).elim

theorem filledOutside {d n m D v e : Nat} {val : Nat → Nat} (filled : Filled S E E' d n m val)
    (hd : d ≤ D) (he : e ≤ D) (outside : v / S.fanout^(D-d) < n ∨ n+m ≤ v / S.fanout^(D-d)) :
    (Leaf S E' D v e ↔ Leaf S E D v e) ∧
      (Leaf S E D v e → E' e (v / S.fanout^(D-e)) = E e (v / S.fanout^(D-e))) := by
  by_cases higher : e < d
  · rcases filled.above e (v / S.fanout^(D-e)) higher with same | ⟨zero,link,_⟩
    · exact ⟨by simp only [Leaf,same],fun _ => same⟩
    · have inner := (linkIsSome.mp link).2
      exact ⟨by simp [Leaf,zero,inner],fun leaf => absurd zero leaf.1⟩
  · have same := filled.beside e (v / S.fanout^(D-e)) (by omega)
      (by rwa [divPow,show D-e+(e-d) = D-d by omega])
    exact ⟨by simp only [Leaf,same],fun _ => same⟩

theorem filledInside (grounded : Grounded S E') {d n m D v j : Nat} {val : Nat → Nat}
    (filled : Filled S E E' d n m val) (hd : d ≤ D) (hj : j < m) (here : v / S.fanout^(D-d) = n+j)
    (leaf : val j ≠ 0 ∧ S.leaf d (val j) = true) {e : Nat} (he : e ≤ D) : Leaf S E' D v e ↔ e = d := by
  have own : Leaf S E' D v d := by
    unfold Leaf
    rw [here,filled.value j hj]
    exact leaf
  exact ⟨fun other => leafUnique grounded he hd other own,fun same => by rw [same]; exact own⟩

theorem filledErased {d n m D v : Nat} {val : Nat → Nat}
    (filled : Filled S E E' d n m val) (hd : d ≤ D) (zero : ∀ j < m, val j = 0)
    (inside : n ≤ v / S.fanout^(D-d) ∧ v / S.fanout^(D-d) < n+m) {e : Nat} (he : e ≤ D)
    (leaf : Leaf S E' D v e) : e < d ∧ Leaf S E D v e := by
  by_cases higher : e < d
  · rcases filled.above e (v / S.fanout^(D-e)) higher with same | ⟨_,link,_⟩
    · refine ⟨higher,?_⟩
      simpa only [Leaf,same] using leaf
    · rw [Leaf,(linkIsSome.mp link).2] at leaf
      exact absurd leaf.2 (by decide)
  · exfalso
    by_cases level : e = d
    · subst level
      have value := filled.value (v / S.fanout^(D-e) - n) (by omega)
      rw [show n + (v / S.fanout^(D-e) - n) = v / S.fanout^(D-e) by omega,zero _ (by omega)] at value
      exact leaf.1 value
    · refine leaf.1 (filled.below e _ (by omega) ?_ ?_) <;>
        rw [divPow,show D-e+(e-d) = D-d by omega] <;> omega

end Kokos.RadixTables

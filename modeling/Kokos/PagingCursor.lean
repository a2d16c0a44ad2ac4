import Kokos.PagingTree

/-! Where a paging context points, and the steps from one entry to the next. -/
namespace Kokos.Paging
open BudgetedCalls RadixTables

def Points (root : Nat) (E : Nat → Nat → Nat) (c : PagingContext) : Nat → Nat → Prop
  | 0, n => c.level4Table = root ∧ c.level4Index = n ∧ n < 512
  | d+1, n => Points root E c d (n/512) ∧ tab shape root E (d+1) (n/512) = some (c.table (d+1)) ∧
      c.index (d+1) = n % 512

def SameBelow (d : Nat) (c c' : PagingContext) : Prop :=
  ∀ e, d < e → e ≤ 3 → c'.table e = c.table e ∧ c'.index e = c.index e

section
variable {root : Nat} {E E' : Nat → Nat → Nat} {c c' : PagingContext} {d n : Nat}

theorem pointsTable (points : Points root E c d n) :
    tab shape root E d (n/512) = some (c.table d) ∧ c.index d = n % 512 := by
  cases d with
  | zero =>
    obtain ⟨table,index,bound⟩ := points
    refine ⟨?_,?_⟩
    · simp only [tab,PagingContext.table,table]
      rw [if_pos (by omega)]
    · simp only [PagingContext.index,index]
      omega
  | succ d => exact points.2

theorem pointsBound (points : Points root E c d n) : n < 512^(d+1) := by
  induction d generalizing n with
  | zero => simpa using points.2.2
  | succ d ih =>
    have up := ih points.1
    rw [Nat.pow_succ]
    omega

theorem pointsDepth (points : Points root E c d n) : d ≤ 3 := by
  cases d with
  | zero => decide
  | succ d =>
    have link : (shape.link d (E d (n/512))).isSome := by
      have table := points.2.1
      simp only [tab] at table
      rw [table]
      rfl
    have := linkDepth link
    omega

theorem pointsUp (points : Points root E c d n) {e : Nat} (he : e ≤ d) : Points root E c e (n / 512^(d-e)) := by
  induction d generalizing n with
  | zero =>
    obtain rfl : e = 0 := by omega
    simpa using points
  | succ d ih =>
    by_cases last : e = d+1
    · subst last
      simpa using points
    · have up := ih points.1 (by omega)
      rwa [← shapeFanout,divPowSucc,shapeFanout,show d-e+1 = d+1-e by omega] at up

theorem pointsRoot (points : Points root E c d n) : c.level4Table = root := by
  have top := pointsUp points (Nat.zero_le d)
  exact top.1

theorem pointsCongr (points : Points root E c d n)
    (same : ∀ e ≤ d, c'.table e = c.table e ∧ c'.index e = c.index e) : Points root E c' d n := by
  induction d generalizing n with
  | zero =>
    obtain ⟨table,index,bound⟩ := points
    have zero := same 0 (Nat.le_refl _)
    exact ⟨zero.1.trans table,zero.2.trans index,bound⟩
  | succ d ih =>
    obtain ⟨up,table,index⟩ := points
    have last := same (d+1) (Nat.le_refl _)
    exact ⟨ih up fun e he => same e (by omega),by rw [table,last.1],by rw [last.2,index]⟩

theorem pointsKept (points : Points root E c d n)
    (same : ∀ e < d, ∀ k, (shape.link e (E e k)).isSome → E' e k = E e k) : Points root E' c d n := by
  induction d generalizing n with
  | zero => exact points
  | succ d ih =>
    obtain ⟨up,table,index⟩ := points
    refine ⟨ih up fun e he => same e (by omega),?_,index⟩
    simp only [tab] at table ⊢
    rw [same d (Nat.lt_succ_self d) (n/512) (by rw [table]; rfl),table]

theorem pointsFilled {d' p m : Nat} {val : Nat → Nat} (points : Points root E c d n)
    (filled : Filled shape E E' d' p m val) (depth : d ≤ d') : Points root E' c d n :=
  pointsKept points fun _ he _ link => filledAbove filled (by omega) (linkIsSome.mp link).1

end

section
variable (c : PagingContext) {d e : Nat} (i : Nat)

theorem setIndexTable : (c.setIndex d i).table e = c.table e := by
  match d with
  | 0 | 1 | 2 | d+3 => rcases e with _ | _ | _ | e <;> rfl

theorem setIndexIndex (hd : d ≤ 3) (he : e ≤ 3) : (c.setIndex d i).index e = if e = d then i else c.index e := by
  match d, hd with
  | 0, _ | 1, _ | 2, _ | 3, _ => match e, he with
    | 0, _ | 1, _ | 2, _ | 3, _ => rfl

theorem setTableTable (hd : d ≤ 3) (he : e ≤ 3) : (c.setTable d i).table e = if e = d then i else c.table e := by
  match d, hd with
  | 0, _ | 1, _ | 2, _ | 3, _ => match e, he with
    | 0, _ | 1, _ | 2, _ | 3, _ => rfl

theorem setTableIndex : (c.setTable d i).index e = c.index e := by
  match d with
  | 0 | 1 | 2 | d+3 => rcases e with _ | _ | _ | e <;> rfl

end

section
variable {root : Nat} {E : Nat → Nat → Nat} {c : PagingContext} {d n : Nat}

theorem pointsAbove (points : Points root E c (d+1) n) (i : Nat) : Points root E (c.setIndex (d+1) i) d (n/512) := by
  have depth := pointsDepth points
  refine pointsCongr points.1 fun e he => ⟨setIndexTable c i,?_⟩
  rw [setIndexIndex c i depth (by omega),if_neg (by omega)]

theorem pointsAdvance (points : Points root E c (d+1) n) (inside : n % 512 + 1 < 512) :
    Points root E (c.setIndex (d+1) (n % 512 + 1)) (d+1) (n+1) := by
  have depth := pointsDepth points
  have number : (n+1)/512 = n/512 := by omega
  refine ⟨by rw [number]; exact pointsAbove points _,?_,?_⟩
  · rw [number,points.2.1,setIndexTable]
  · rw [setIndexIndex c _ depth depth,if_pos rfl]
    omega

theorem pointsSelect {p g : Nat} (points : Points root E c d (p/512)) (linked : tab shape root E (d+1) (p/512) = some g) :
    Points root E ((c.setIndex (d+1) (p%512)).setTable (d+1) g) (d+1) p := by
  have depth : d+1 ≤ 3 := by
    simp only [tab] at linked
    have := linkDepth (show (shape.link d (E d (p/512))).isSome by rw [linked]; rfl)
    omega
  refine ⟨pointsCongr points fun e he => ?_,?_,?_⟩
  · rw [setTableTable _ _ depth (by omega),if_neg (by omega),setIndexTable,setTableIndex,
      setIndexIndex _ _ depth (by omega),if_neg (by omega)]
    exact ⟨rfl,rfl⟩
  · rw [linked,setTableTable _ _ depth depth,if_pos rfl]
  · rw [setTableIndex,setIndexIndex _ _ depth depth,if_pos rfl]

theorem pointsEnter {g : Nat} (points : Points root E c d n) (linked : tab shape root E (d+1) n = some g) :
    Points root E ((c.setIndex (d+1) 0).setTable (d+1) g) (d+1) (n*512) := by
  have number : n*512/512 = n := by omega
  have entered := pointsSelect (p := n*512) (by rwa [number]) (by rwa [number])
  rwa [show n*512%512 = 0 by omega] at entered

theorem sameBelowIndex (c : PagingContext) (i : Nat) (depth : d ≤ 3) : SameBelow d c (c.setIndex d i) :=
  fun e low high => ⟨setIndexTable c i,by rw [setIndexIndex c i depth high,if_neg (by omega)]⟩

theorem sameBelowEnter (c : PagingContext) (i g : Nat) (depth : d ≤ 3) :
    SameBelow d c ((c.setIndex d i).setTable d g) := by
  intro e low high
  rw [setTableTable _ _ depth high,if_neg (by omega),setIndexTable,setTableIndex,
    setIndexIndex _ _ depth high,if_neg (by omega)]
  exact ⟨rfl,rfl⟩

theorem sameBelowTrans {c1 c2 : PagingContext} {d' : Nat} (first : SameBelow d c c1) (second : SameBelow d' c1 c2)
    {e : Nat} (left : d ≤ e) (right : d' ≤ e) : SameBelow e c c2 := by
  intro f low high
  have a := first f (by omega) high
  have b := second f (by omega) high
  exact ⟨b.1.trans a.1,b.2.trans a.2⟩

end

def carries : Nat → Nat → Nat
  | 0, _ => 0
  | d+1, n => n/512 + carries d (n/512)

theorem carriesMono (d : Nat) {n m : Nat} (le : n ≤ m) : carries d n ≤ carries d m := by
  induction d generalizing n m with
  | zero => exact Nat.le_refl _
  | succ d ih =>
    have up : n/512 ≤ m/512 := Nat.div_le_div_right le
    have := ih up
    simp only [carries]
    omega

theorem carriesFull {d n : Nat} (full : n % 512 = 511) :
    (carries d (n/512+1) - carries d (n/512)) + 1 = carries (d+1) (n+1) - carries (d+1) n := by
  have mono := carriesMono d (Nat.le_add_right (n/512) 1)
  simp only [carries,show (n+1)/512 = n/512+1 by omega]
  omega

section
variable {σ : Type} [PageAllocator σ]

structure Moved (root d n : Nat) (c c' : PagingContext) (w w' : World σ) : Prop where
  after : After root w w' (entries w'.memory root)
  opened : Opened shape (entries w.memory root) (entries w'.memory root) d n
  points : Points root (entries w'.memory root) c' d n
  lower : SameBelow d c c'

variable {root : Nat} {w : World σ} {c : PagingContext} {d n : Nat} {short : Prop}

theorem clearUp {E : Nat → Nat → Nat} (clear : Clear shape E (d+1) n) : Clear shape E d (n/512) :=
  (clearSucc.mp clear).1

theorem clearLast {E : Nat → Nat → Nat} (clear : Clear shape E (d+1) n) : shape.leaf d (E d (n/512)) = false :=
  (clearSucc.mp clear).2

theorem movedEnter {c1 : PagingContext} {w1 w2 : World σ} {g m i : Nat} (depth : d+1 ≤ 3) (start : n = m*512)
    (moved : Moved root d m (c.setIndex (d+1) i) c1 w w1) (after : After root w1 w2 (entries w2.memory root))
    (opened : Opened shape (entries w1.memory root) (entries w2.memory root) (d+1) n)
    (linked : tab shape root (entries w2.memory root) (d+1) m = some g) :
    Moved root (d+1) n c ((c1.setIndex (d+1) 0).setTable (d+1) g) w w2 := by
  subst start
  refine ⟨afterTrans moved.after after,?_,?_,?_⟩
  · have first := moved.opened
    rw [show m = m*512/512 by omega] at first
    exact filledAfterOpened (openedDeeper first) opened
  · exact pointsEnter (pointsFilled moved.points opened (by omega)) linked
  · exact sameBelowTrans (sameBelowTrans (sameBelowIndex c _ depth) moved.lower (Nat.le_refl _) (by omega))
      (sameBelowEnter c1 0 g depth) (Nat.le_refl _) (Nat.le_refl _)

theorem nextRuns {mode : Mode} (creates : mode ≠ .unmap) (tree : Tree w root)
    (points : Points root (entries w.memory root) c d n) (room : n+1 < 512^(d+1))
    (clear : Clear shape (entries w.memory root) d (n+1)) :
    Runs pool short (carries d (n+1) - carries d n) (next mode d c) w fun r w' =>
      r.1 = true ∧ Moved root d (n+1) c r.2 w w' := by
  have depth := pointsDepth points
  induction d generalizing n c with
  | zero =>
    obtain ⟨table,index,bound⟩ := points
    simp only [next]
    rw [if_pos (by omega)]
    exact runsPure ⟨rfl,afterRefl tree,filledNone _ _ _,⟨table,by rw [index],by omega⟩,
      sameBelowIndex c _ (Nat.zero_le _)⟩
  | succ d ih =>
    have index := points.2.2
    unfold next
    refine runsIf (fun inside => ?_) (fun full => ?_)
    · rw [index] at inside ⊢
      exact runsCost (runsPure ⟨rfl,afterRefl tree,filledNone _ _ _,pointsAdvance points inside,
        sameBelowIndex c _ depth⟩) (Nat.zero_le _)
    · -- The index is 511: carry into the entry above, then enter its table.
      have number : (n+1)/512 = n/512+1 := by omega
      have up := clearUp clear
      have leaf := clearLast clear
      rw [number] at up leaf
      refine runsCost (runsBind (ih (pointsAbove points _) (by rw [Nat.pow_succ] at room; omega) up (by omega)) ?_)
        (Nat.le_of_eq (carriesFull (by omega)))
      rintro ⟨ok,c1⟩ w1 ⟨rfl,moved⟩
      obtain ⟨table1,index1⟩ := pointsTable moved.points
      rw [← moved.opened.beside d _ (Nat.le_refl _) (by omega)] at leaf
      dsimp only
      rw [if_pos rfl,index1]
      refine runsBind (d := 0) (enterRuns creates moved.after.tree (by omega) table1 leaf (fun _ => Nat.le_refl _) number) ?_
      rintro _ w2 ⟨g,rfl,after,opened,linked⟩
      exact runsPure ⟨rfl,movedEnter depth (by omega) moved after opened linked⟩

def following (e n : Nat) : Nat := if n+1 < 512^(e+1) then n+1 else 0

theorem followingCarry (last : n % 512 + 1 = 512) : following (d+1) n = following d (n/512) * 512 := by
  have carry : n+1 < 512^(d+1+1) ↔ n/512+1 < 512^(d+1) := by
    rw [Nat.pow_succ]
    omega
  unfold following
  by_cases room : n+1 < 512^(d+1+1)
  · rw [if_pos room,if_pos (carry.mp room)]
    omega
  · rw [if_neg room,if_neg (fun up => room (carry.mpr up)),Nat.zero_mul]

theorem followingRuns {cost : Nat} (tree : Tree w root) (points : Points root (entries w.memory root) c d n)
    (clear : Clear shape (entries w.memory root) d (following d n))
    (pays : entries w.memory root d (following d n) = 0 → d ≤ cost) :
    Runs pool short cost (next .search d c) w fun r w' => r.1 = true ∧ Moved root d (following d n) c r.2 w w' := by
  have depth := pointsDepth points
  induction d generalizing n c cost with
  | zero =>
    obtain ⟨table,index,bound⟩ := points
    unfold following
    simp only [next]
    refine runsCost (c := 0) (runsIf (fun inside => ?_) (fun full => ?_)) (Nat.zero_le _)
    · rw [if_pos (by omega),index]
      exact runsPure ⟨rfl,afterRefl tree,filledNone _ _ _,⟨table,rfl,by omega⟩,sameBelowIndex c _ (Nat.zero_le _)⟩
    · rw [if_neg (show ¬ n+1 < 512^(0+1) by omega),if_pos trivial]
      exact runsPure ⟨rfl,afterRefl tree,filledNone _ _ _,⟨table,rfl,by decide⟩,sameBelowIndex c 0 (Nat.zero_le _)⟩
  | succ d ih =>
    have index := points.2.2
    have bound := pointsBound points
    unfold next
    refine runsIf (fun inside => ?_) (fun full => ?_)
    · have here : following (d+1) n = n+1 := by
        unfold following
        rw [if_pos]
        rw [Nat.pow_succ] at bound ⊢
        omega
      rw [index] at inside ⊢
      rw [here]
      exact runsCost (runsPure ⟨rfl,afterRefl tree,filledNone _ _ _,pointsAdvance points inside,
        sameBelowIndex c _ depth⟩) (Nat.zero_le _)
    · -- The carry goes to the entry above, then into its table.
      have carried : following (d+1) n = following d (n/512) * 512 := followingCarry (by omega)
      have number : following (d+1) n / 512 = following d (n/512) := by
        rw [carried,Nat.mul_div_cancel _ (by decide)]
      have up := clearUp clear
      have leaf := clearLast clear
      rw [number] at up leaf
      have empty : entries w.memory root d (following d (n/512)) = 0 → d+1 ≤ cost := fun zero =>
        pays (groundedZero (entriesGrounded _ _) (Nat.lt_succ_self d)
          (by rw [Nat.add_sub_cancel_left,Nat.pow_one,shapeFanout,number,zero,linkZero]; rfl))
      obtain ⟨above,below,paysAbove,paysBelow,total⟩ : ∃ above below,
          (entries w.memory root d (following d (n/512)) = 0 → d ≤ above) ∧
          (entries w.memory root d (following d (n/512)) = 0 → 1 ≤ below) ∧ above+below ≤ cost := by
        by_cases zero : entries w.memory root d (following d (n/512)) = 0
        · exact ⟨d,1,fun _ => Nat.le_refl _,fun _ => Nat.le_refl _,empty zero⟩
        · exact ⟨0,0,fun yes => absurd yes zero,fun yes => absurd yes zero,Nat.zero_le _⟩
      refine runsCost (runsBind (ih (pointsAbove points _) up paysAbove (by omega)) ?_) total
      rintro ⟨ok,c1⟩ w1 ⟨rfl,moved⟩
      obtain ⟨table1,index1⟩ := pointsTable moved.points
      rw [← moved.opened.beside d _ (Nat.le_refl _) (by omega)] at leaf paysBelow
      dsimp only
      rw [if_pos rfl,index1]
      refine runsBind (d := 0) (enterRuns (by decide) moved.after.tree (by omega) table1 leaf paysBelow number) ?_
      rintro _ w2 ⟨g,rfl,after,opened,linked⟩
      exact runsPure ⟨rfl,movedEnter depth carried moved after opened linked⟩

theorem nextEnds {mode : Mode} (ends : mode ≠ .search) (tree : Tree w root)
    (points : Points root (entries w.memory root) c d n) (last : n+1 = 512^(d+1)) :
    Runs pool short 0 (next mode d c) w fun r w' =>
      r.1 = false ∧ After root w w' (entries w.memory root) ∧ r.2.level4Table = root := by
  induction d generalizing n c with
  | zero =>
    obtain ⟨table,index,bound⟩ := points
    simp only [next]
    rw [if_neg (by omega),if_neg ends]
    exact runsPure ⟨rfl,afterRefl tree,table⟩
  | succ d ih =>
    have index := points.2.2
    rw [Nat.pow_succ] at last
    unfold next
    rw [if_neg (by omega)]
    refine runsBind (c := 0) (d := 0) (ih (pointsAbove points _) (by omega)) ?_
    rintro ⟨ok,c1⟩ w1 ⟨rfl,done⟩
    exact runsPure ⟨rfl,done⟩

theorem nextUnmapRuns (tree : Tree w root) (points : Points root (entries w.memory root) c d n)
    (room : n+1 < 512^(d+1)) (clear : Clear shape (entries w.memory root) d (n+1)) :
    Runs pool short 0 (next .unmap d c) w fun r w' => After root w w' (entries w.memory root) ∧
      (r.1 = true ∧ Points root (entries w.memory root) r.2 d (n+1) ∧ SameBelow d c r.2 ∨
        r.1 = false ∧ tab shape root (entries w.memory root) d ((n+1)/512) = none ∧ r.2.level4Table = root) := by
  have depth := pointsDepth points
  induction d generalizing n c with
  | zero =>
    obtain ⟨table,index,bound⟩ := points
    simp only [next]
    rw [if_pos (by omega)]
    exact runsPure ⟨afterRefl tree,Or.inl ⟨rfl,⟨table,by rw [index],by omega⟩,sameBelowIndex c _ (Nat.zero_le _)⟩⟩
  | succ d ih =>
    have index := points.2.2
    unfold next
    refine runsIf (fun inside => ?_) (fun full => ?_)
    · rw [index] at inside ⊢
      exact runsPure ⟨afterRefl tree,Or.inl ⟨rfl,pointsAdvance points inside,sameBelowIndex c _ depth⟩⟩
    · have number : (n+1)/512 = n/512+1 := by omega
      have up := clearUp clear
      have leaf := clearLast clear
      rw [number] at up leaf
      refine runsBind (c := 0) (d := 0)
        (ih (pointsAbove points _) (by rw [Nat.pow_succ] at room; omega) up (by omega)) ?_
      rintro ⟨ok,c1⟩ w1 ⟨after,⟨done,points1,kept⟩ | ⟨failed,missing,table4⟩⟩
      · cases done
        obtain ⟨table1,index1⟩ := pointsTable points1
        rw [← after.shows] at leaf table1
        dsimp only
        rw [if_pos rfl,index1]
        refine runsBind (c := 0) (d := 0) (enterUnmapRuns after.tree table1 leaf) ?_
        rintro entered w2 ⟨rfl,after2⟩
        rw [after.shows] at after2 ⊢
        cases linked : tab shape root (entries w.memory root) (d+1) (n/512+1) with
        | none =>
          refine runsPure ⟨afterTrans after after2,Or.inr ⟨rfl,by rw [number,linked],?_⟩⟩
          exact (setIndexTable (e := 0) c1 0).trans (pointsRoot points1)
        | some g =>
          have points2 := pointsEnter points1 linked
          rw [show (n/512+1)*512 = n+1 by omega] at points2
          exact runsPure ⟨afterTrans after after2,Or.inl ⟨rfl,points2,
            sameBelowTrans (sameBelowTrans (sameBelowIndex c _ depth) kept (Nat.le_refl _) (by omega))
              (sameBelowEnter c1 0 g depth) (Nat.le_refl _) (Nat.le_refl _)⟩⟩
      · cases failed
        refine runsPure ⟨after,Or.inr ⟨rfl,?_,table4⟩⟩
        have zero : entries w.memory root d (n/512+1) = 0 :=
          entriesLast ((tableAtTab (row w.memory) root d _).trans missing)
        rw [number]
        simp only [tab,zero,linkZero]

/-- The 1 GiB loop takes the next level-4 entry as it stands, so that entry has to be empty. -/
theorem nextUnmaskedRuns (tree : Tree w root) (points : Points root (entries w.memory root) c 1 n)
    (room : n+1 < 512^2) (vacant : (n+1) % 512 = 0 → entries w.memory root 0 ((n+1)/512) = 0) :
    Runs pool short (carries 1 (n+1) - carries 1 n) (nextUnmasked c) w fun r w' =>
      r.1 = true ∧ Moved root 1 (n+1) c r.2 w w' := by
  have index : c.level3Index = n % 512 := points.2.2
  obtain ⟨rootTable,slot,bound⟩ := points.1
  unfold nextUnmasked
  refine runsIf (fun inside => ?_) (fun full => ?_)
  · rw [index] at inside ⊢
    exact runsCost (runsPure ⟨rfl,afterRefl tree,filledNone _ _ _,pointsAdvance points inside,
      sameBelowIndex c _ (by decide)⟩) (Nat.zero_le _)
  · have number : (n+1)/512 = n/512+1 := by omega
    have empty := vacant (by omega)
    rw [number] at empty
    have above : Points root (entries w.memory root) { c with level4Index := n/512+1 } 0 (n/512+1) :=
      ⟨rootTable,rfl,by omega⟩
    obtain ⟨table,_⟩ := pointsTable above
    have cost : 0+(1+0) ≤ carries 1 (n+1) - carries 1 n := by
      simp only [carries]
      omega
    rw [slot,if_pos (by omega)]
    have digit : n/512+1 = (n/512+1) % 512 := by omega
    rw [digit]
    refine runsCost (runsBind (loadRuns tree table) ?_) cost
    rintro v w1 ⟨rfl,after⟩
    rw [if_pos empty]
    refine runsBind (newTableRuns after.tree (by decide) (after.shows ▸ table)) ?_
    rintro g w2 ⟨v,linked,after2⟩
    rw [← digit]
    have both := afterTrans after after2
    rw [after.shows] at both
    have shows := both.shows
    have path : n/512+1 = (n+1) / shape.fanout^(1-0) := by simp [number]
    have opened : Opened shape (entries w.memory root) (entries w2.memory root) 1 (n+1) := by
      rw [shows,path]
      exact openedPut (entriesGrounded _ _) (by decide) (by rw [← path]; exact empty) (by rw [linked]; rfl)
    have link : tab shape root (entries w2.memory root) 1 (n/512+1) = some g := by
      rw [shows]
      simp only [tab,putSame,linked]
    have entered := pointsEnter (pointsFilled above opened (by decide)) link
    rw [show (n/512+1)*512 = n+1 by omega] at entered
    refine runsPure ⟨rfl,shows ▸ both,opened,entered,?_⟩
    exact sameBelowTrans (sameBelowIndex (d := 0) c (n/512+1) (by decide))
      (sameBelowEnter (d := 1) { c with level4Index := n/512+1 } 0 g (by decide)) (by decide) (by decide)

theorem nextUnmaskedEnds (tree : Tree w root) (points : Points root (entries w.memory root) c 1 n)
    (last : n+1 = 512^2) :
    Runs pool short 0 (nextUnmasked c) w fun r w' =>
      r.1 = false ∧ After root w w' (entries w.memory root) ∧ r.2.level4Table = root := by
  have index : c.level3Index = n % 512 := points.2.2
  have slot : c.level4Index = n/512 := points.1.2.1
  unfold nextUnmasked
  rw [if_neg (by omega),if_neg (by omega)]
  exact runsPure ⟨rfl,afterRefl tree,points.1.1⟩

end

end Kokos.Paging

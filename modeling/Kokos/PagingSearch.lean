import Kokos.PagingCalls

/-! The search for a free spot. It opens tables on its way and ends pointing at an
empty entry of the depth that the size flags ask for. -/
namespace Kokos.Paging
open BudgetedCalls RadixTables

inductive Choice where
  | refuse
  | stay
  | find (depth : Nat)
  deriving DecidableEq, Repr

def spotChoice (c : PagingContext) (bytes flags : Nat) : Choice :=
  if bytes = 0 then .refuse
  else if bytes ≤ 512*4096 ∧ c.level2Table ≠ 0 ∧ has flags flag1GB = false then
    if c.level1Index + units bytes 12 > 512 ∨ c.level1Table = 0 then .find 2 else .stay
  else if bytes ≤ 512*512*4096 ∧ c.level3Table ≠ 0 then
    if c.level2Index + units bytes 21 > 512 ∨ c.level2Table = 0 then .find 1 else .stay
  else if bytes ≤ 512*512*512*4096 then
    if c.level3Index + units bytes 30 > 512 ∨ c.level3Table = 0 then .find 0 else .stay
  else if c.level4Index + units bytes 39 > 512 then .refuse
  else .stay

section
variable {σ : Type} [PageAllocator σ]

def openBelow (depth : Nat) (c : PagingContext) (flags : Nat) : Kernel σ PagingContext :=
  match depth with
  | 0 => do
    let c ← openTable 0 c
    openLevel2 c flags
  | 1 => openLevel2 c flags
  | _ => openLevel1 c flags

theorem findSpotChoice (fuel : Nat) (c : PagingContext) (bytes flags : Nat) :
    pagingIndexFindSpot (σ := σ) fuel c bytes flags =
      match spotChoice c bytes flags with
      | .refuse => pure (false,c)
      | .stay => pure (true,c)
      | .find depth => do
        let c ← findEmpty depth fuel c
        let c ← openBelow depth c flags
        return (true,c) := by
  unfold pagingIndexFindSpot spotChoice
  split
  · rfl
  · split
    · split <;> rfl
    · split
      · split <;> rfl
      · split
        · split
          · simp only [openBelow,bind_assoc]
          · rfl
        · split <;> rfl

theorem choiceDepth {c : PagingContext} {bytes flags depth : Nat} (choice : spotChoice c bytes flags = .find depth) :
    depth ≤ 2 ∧ depth ≤ depthOf flags := by
  have low := (depthCases flags).1
  unfold spotChoice at choice
  split at choice
  · cases choice
  · split at choice
    · rename_i first
      split at choice
      · cases choice
        refine ⟨Nat.le_refl _,?_⟩
        simp only [depthOf,first.2.2,Bool.false_eq_true,if_false]
        split <;> decide
      · cases choice
    · split at choice
      · split at choice
        · cases choice
          exact ⟨by decide,low⟩
        · cases choice
      · split at choice
        · split at choice
          · cases choice
            exact ⟨by decide,Nat.zero_le _⟩
          · cases choice
        · split at choice <;> cases choice

variable {root : Nat} {w : World σ} {c : PagingContext} {short : Prop}

theorem movedTrans {k d a b : Nat} {c1 c2 : PagingContext} {w1 w2 : World σ} (le : k ≤ d) (under : b / 512^(d-k) = a)
    (first : Moved root k a c c1 w w1) (second : Moved root d b c1 c2 w1 w2) : Moved root d b c c2 w w2 where
  after := afterTrans first.after second.after
  opened := by
    have down := first.opened
    rw [← under] at down
    exact filledAfterOpened (openedDown le down) second.opened
  points := second.points
  lower := sameBelowTrans first.lower second.lower le (Nat.le_refl _)

theorem openTableRuns {k q : Nat} (inner : k < 3) (tree : Tree w root)
    (points : Points root (entries w.memory root) c k q) (empty : entries w.memory root k q = 0) :
    Runs pool short 1 (openTable k c) w fun c' w' =>
      Moved root (k+1) (q*512) c c' w w' ∧ entries w'.memory root (k+1) (q*512) = 0 := by
  obtain ⟨table,index⟩ := pointsTable points
  unfold openTable
  rw [index]
  refine runsBind (c := 1) (d := 0) (newTableRuns tree inner table) ?_
  rintro g w1 ⟨v,linked,after⟩
  have shows := after.shows
  have path : q = q*512 / shape.fanout^(k+1-k) := by simp
  have opened : Opened shape (entries w.memory root) (entries w1.memory root) (k+1) (q*512) := by
    have written := openedPut (d := k+1) (n := q*512) (e := k) (v := v) (entriesGrounded w.memory root)
      (Nat.lt_succ_self k) (by rw [← path]; exact empty) (by rw [linked]; rfl)
    rwa [← path,← shows] at written
  have link : tab shape root (entries w1.memory root) (k+1) q = some g := by
    rw [shows]
    simp only [tab,putSame,linked]
  refine runsPure ⟨⟨shows ▸ after,opened,pointsEnter (pointsFilled points opened (by omega)) link,
    sameBelowEnter c 0 g (by omega)⟩,?_⟩
  rw [shows,putBelow _ _ (Nat.lt_succ_self k) (by simp)]

theorem openLevel1Runs {q flags : Nat} (size : has flags flag1GB = false) (tree : Tree w root)
    (points : Points root (entries w.memory root) c 2 q) (empty : entries w.memory root 2 q = 0) :
    Runs pool short (depthOf flags - 2) (openLevel1 c flags) w fun c' w' =>
      Moved root (depthOf flags) (q*512^(depthOf flags - 2)) c c' w w' ∧
        entries w'.memory root (depthOf flags) (q*512^(depthOf flags - 2)) = 0 := by
  unfold openLevel1
  cases size2 : has flags flag2MB with
  | true =>
    have depth : depthOf flags = 2 := by simp [depthOf,size,size2]
    simp only [depth,Nat.sub_self,Nat.pow_zero,Nat.mul_one,if_true]
    exact runsPure ⟨⟨afterRefl tree,filledNone _ _ _,points,fun _ _ _ => ⟨rfl,rfl⟩⟩,empty⟩
  | false =>
    have depth : depthOf flags = 3 := by simp [depthOf,size,size2]
    simp only [depth]
    exact openTableRuns (by decide) tree points empty

theorem openLevel2Runs {q flags : Nat} (tree : Tree w root)
    (points : Points root (entries w.memory root) c 1 q) (empty : entries w.memory root 1 q = 0) :
    Runs pool short (depthOf flags - 1) (openLevel2 c flags) w fun c' w' =>
      Moved root (depthOf flags) (q*512^(depthOf flags - 1)) c c' w w' ∧
        entries w'.memory root (depthOf flags) (q*512^(depthOf flags - 1)) = 0 := by
  unfold openLevel2
  cases size : has flags flag1GB with
  | true =>
    have depth : depthOf flags = 1 := by simp [depthOf,size]
    simp only [depth,Nat.sub_self,Nat.pow_zero,Nat.mul_one,if_true]
    exact runsPure ⟨⟨afterRefl tree,filledNone _ _ _,points,fun _ _ _ => ⟨rfl,rfl⟩⟩,empty⟩
  | false =>
    have deep : 2 ≤ depthOf flags := by
      simp only [depthOf,size,Bool.false_eq_true,if_false]
      split <;> decide
    have power : q*512*512^(depthOf flags - 2) = q*512^(depthOf flags - 1) := by
      rw [Nat.mul_assoc,← Nat.pow_succ',show (depthOf flags - 2).succ = depthOf flags - 1 by omega]
    refine runsCost (runsBind (openTableRuns (by decide) tree points empty) ?_)
      (show 1 + (depthOf flags - 2) ≤ depthOf flags - 1 by omega)
    rintro c1 w1 ⟨moved,empty1⟩
    refine runsPost (openLevel1Runs size moved.after.tree moved.points empty1) ?_
    rintro c2 w2 ⟨moved2,empty2⟩
    have under : q*512*512^(depthOf flags - 2) / 512^(depthOf flags - 2) = q*512 :=
      Nat.mul_div_cancel _ (Nat.pow_pos (by decide))
    have both := movedTrans deep under moved moved2
    rw [power] at both empty2
    exact ⟨both,empty2⟩

theorem openBelowRuns {e q flags : Nat} (low : e ≤ 2) (le : e ≤ depthOf flags) (tree : Tree w root)
    (points : Points root (entries w.memory root) c e q) (empty : entries w.memory root e q = 0) :
    Runs pool short (depthOf flags - e) (openBelow e c flags) w fun c' w' =>
      Moved root (depthOf flags) (q*512^(depthOf flags - e)) c c' w w' ∧
        entries w'.memory root (depthOf flags) (q*512^(depthOf flags - e)) = 0 := by
  match e, low with
  | 0, _ =>
    have depth := (depthCases flags).1
    have power : q*512*512^(depthOf flags - 1) = q*512^(depthOf flags - 0) := by
      rw [Nat.mul_assoc,← Nat.pow_succ',show (depthOf flags - 1).succ = depthOf flags - 0 by omega]
    unfold openBelow
    refine runsCost (runsBind (openTableRuns (by decide) tree points empty) ?_)
      (show 1 + (depthOf flags - 1) ≤ depthOf flags - 0 by omega)
    rintro c1 w1 ⟨moved,empty1⟩
    refine runsPost (openLevel2Runs moved.after.tree moved.points empty1) ?_
    rintro c2 w2 ⟨moved2,empty2⟩
    have under : q*512*512^(depthOf flags - 1) / 512^(depthOf flags - 1) = q*512 :=
      Nat.mul_div_cancel _ (Nat.pow_pos (by decide))
    have both := movedTrans depth under moved moved2
    rw [power] at both empty2
    exact ⟨both,empty2⟩
  | 1, _ => exact openLevel2Runs tree points empty
  | 2, _ =>
    refine openLevel1Runs ?_ tree points empty
    cases size : has flags flag1GB with
    | false => rfl
    | true => simp [depthOf,size] at le

inductive Search (E : Nat → Nat → Nat) (e : Nat) : Nat → Nat → Nat → Nat → Prop where
  | here {n} (empty : E e n = 0) : Search E e n n 0 0
  | further {n q steps toll} (full : E e n ≠ 0) (clear : Clear shape E e (following e n))
      (rest : Search E e (following e n) q steps toll) :
      Search E e n q (steps+1) ((carries e (n+1) - carries e n) + e + toll)

theorem searchEmpty {E : Nat → Nat → Nat} {e n q steps toll : Nat} (search : Search E e n q steps toll) : E e q = 0 := by
  induction search with
  | here empty => exact empty
  | further _ _ _ ih => exact ih

theorem searchSame {E E' : Nat → Nat → Nat} {e n q steps toll : Nat} (level : ∀ r, E' e r = E e r)
    (kept : ∀ r, Clear shape E e r → Clear shape E' e r) (search : Search E e n q steps toll) :
    Search E' e n q steps toll := by
  induction search with
  | here empty => exact .here (by rwa [level])
  | further full clear _ ih => exact .further (by rwa [level]) (kept _ clear) ih

theorem findEmptyRuns {cost e n q steps toll : Nat} (fuel : Nat) (tree : Tree w root)
    (points : Points root (entries w.memory root) c e n) (search : Search (entries w.memory root) e n q steps toll)
    (pays : entries w.memory root e n ≠ 0 → e ≤ cost) :
    Runs pool (fuel ≤ steps) cost (findEmpty e fuel c) w fun c' w' => Moved root e q c c' w w' := by
  induction fuel generalizing w c n cost steps toll with
  | zero => exact Nat.zero_le _
  | succ fuel ih =>
    unfold findEmpty
    refine runsFree (loadPoints tree points) ?_
    rintro _ w1 ⟨rfl,after⟩
    cases search with
    | here empty =>
      rw [if_pos empty]
      refine runsCost (runsPure ⟨⟨after.tree,rfl,after.evolves,after.used,after.frames⟩,?_,?_,fun _ _ _ => ⟨rfl,rfl⟩⟩)
        (Nat.zero_le _)
      · rw [after.shows]; exact filledNone _ _ _
      · rw [after.shows]; exact points
    | @further _ _ steps toll full clear rest =>
      rw [if_neg full]
      obtain ⟨one,more,paysOne,paysMore,total⟩ : ∃ one more, (entries w.memory root e (following e n) = 0 → e ≤ one) ∧
          (entries w.memory root e (following e n) ≠ 0 → e ≤ more) ∧ one+more ≤ cost := by
        by_cases zero : entries w.memory root e (following e n) = 0
        · exact ⟨e,0,fun _ => Nat.le_refl _,fun no => absurd zero no,pays full⟩
        · exact ⟨0,e,fun yes => absurd yes zero,fun _ => Nat.le_refl _,by have := pays full; omega⟩
      rw [← after.shows] at points clear paysOne
      refine runsCost (runsBind (followingRuns after.tree points clear paysOne) ?_) total
      rintro ⟨ok,c1⟩ w2 ⟨rfl,moved⟩
      have opened := moved.opened
      rw [after.shows] at opened
      have level : ∀ r, entries w2.memory root e r = entries w.memory root e r :=
        fun r => opened.beside e r (Nat.le_refl _) (by omega)
      rw [← level] at paysMore
      refine runsMono (ih moved.after.tree moved.points (searchSame level (fun _ => filledClear opened) rest) paysMore)
        (Nat.le_refl _) (fun h => by omega) ?_
      intro c2 w3 moved2
      refine ⟨afterTrans after (afterTrans moved.after moved2.after),?_,moved2.points,
        sameBelowTrans moved.lower moved2.lower (Nat.le_refl _) (Nat.le_refl _)⟩
      -- Either the next entry is the one looked for, or its tables were all there.
      cases rest with
      | here _ => exact filledAfterOpened opened moved2.opened
      | further full2 _ _ =>
        have again := moved2.opened
        rwa [openedSame (entriesGrounded w.memory root) full2 opened] at again

theorem findSpotRuns {fuel bytes flags e n q steps toll : Nat} (tree : Tree w root)
    (choice : spotChoice c bytes flags = .find e) (points : Points root (entries w.memory root) c e n)
    (search : Search (entries w.memory root) e n q steps toll) :
    Runs pool (fuel ≤ steps) (depthOf flags) (pagingIndexFindSpot fuel c bytes flags) w fun r w' => r.1 = true ∧
        Moved root (depthOf flags) (q*512^(depthOf flags - e)) c r.2 w w' ∧
        entries w'.memory root (depthOf flags) (q*512^(depthOf flags - e)) = 0 := by
  obtain ⟨low,le⟩ := choiceDepth choice
  rw [findSpotChoice,choice]
  refine runsCost (runsBind (findEmptyRuns fuel tree points search fun _ => Nat.le_refl _) (d := depthOf flags - e) ?_)
    (by omega)
  intro c1 w1 moved
  have empty : entries w1.memory root e q = 0 := by
    rw [moved.opened.beside e q (Nat.le_refl _) (by omega)]
    exact searchEmpty search
  refine runsBind (d := 0) (openBelowRuns low le moved.after.tree moved.points empty) ?_
  rintro c2 w2 ⟨moved2,empty2⟩
  have under : q*512^(depthOf flags - e) / 512^(depthOf flags - e) = q := Nat.mul_div_cancel _ (Nat.pow_pos (by decide))
  exact runsPure ⟨rfl,movedTrans le under moved moved2,empty2⟩

end

end Kokos.Paging

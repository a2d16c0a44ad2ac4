import Kokos.PagingSearch

/-! Calls that are given an address: the walk of the mapping calls, which opens the
tables it misses, and paging_unmap, which does not. -/
namespace Kokos.Paging
open BudgetedCalls RadixTables

/-- The walk meets no huge page, and a level-1 table it has to create goes where it
belongs although the source uses the level-3 index for it. -/
def Walkable (E : Nat → Nat → Nat) (d address : Nat) : Prop :=
  Clear shape E d (numberAt address d) ∧
    (d = 3 → E 2 (numberAt address 2) = 0 → numberAt address 1 % 512 = numberAt address 2 % 512)

instance (E : Nat → Nat → Nat) (d address : Nat) : Decidable (Walkable E d address) :=
  inferInstanceAs (Decidable (Clear shape E d (numberAt address d) ∧
    (d = 3 → E 2 (numberAt address 2) = 0 → numberAt address 1 % 512 = numberAt address 2 % 512)))

theorem pointsOver {root address d g : Nat} {E : Nat → Nat → Nat} {c : PagingContext} (inner : d < 3)
    (points : Points root E c d (numberAt address d)) (link : tab shape root E (d+1) (numberAt address d) = some g) :
    tab shape root E (d+1) (numberAt address (d+1) / 512) = some g ∧
      Points root E ((c.setIndex (d+1) (numberAt address (d+1) % 512)).setTable (d+1) g) (d+1) (numberAt address (d+1)) := by
  rw [← overUp address d inner] at points link
  exact ⟨link,pointsSelect points link⟩

section
variable {σ : Type} [PageAllocator σ] {root : Nat} {w : World σ} {short : Prop}

theorem clearOver {E : Nat → Nat → Nat} {d address : Nat} (clear : Clear shape E d (numberAt address d)) (depth : d ≤ 3)
    {e : Nat} (he : e < d) : shape.leaf e (E e (numberAt address e)) = false := by
  have here := clear e he
  rwa [shapeFanout,overPath address depth (Nat.le_of_lt he)] at here

theorem clearNoLeaf {E : Nat → Nat → Nat} {d address : Nat} (clear : Clear shape E d (numberAt address d)) (depth : d ≤ 3)
    {e : Nat} (he : e < d) : ¬ Leaf shape E 3 (pageNumber address) e := by
  intro leaf
  have inner := clearOver clear depth he
  rw [show E e (numberAt address e) = E e (pageNumber address / shape.fanout^(3-e)) from rfl,leaf.2] at inner
  contradiction

theorem erasedUnmapped {E E' : Nat → Nat → Nat} {d n m address : Nat} {val : Nat → Nat} (filled : Filled shape E E' d n m val)
    (depth : d ≤ 3) (zero : ∀ j < m, val j = 0) (inside : n ≤ numberAt address d ∧ numberAt address d < n+m)
    (clear : Clear shape E d (numberAt address d)) : ¬ Mapped E' address := by
  rintro ⟨e,he,leaf⟩
  obtain ⟨higher,old⟩ := filledErased filled depth zero inside he leaf
  exact clearNoLeaf clear depth higher old

theorem enterOver {address d t i : Nat} {c : PagingContext} {w1 : World σ} (inner : d < 3) (here : c.table d = t)
    (digit : i = numberAt address d % 512) (moved : Moved root d (numberAt address d) (nullContext root) c w w1)
    (clear : shape.leaf d (entries w.memory root d (numberAt address d)) = false) :
    Runs pool short 1 (enterTable t i) w1 fun g w2 =>
      Moved root (d+1) (numberAt address (d+1)) (nullContext root)
        ((c.setIndex (d+1) (numberAt address (d+1) % 512)).setTable (d+1) g) w w2 := by
  subst here digit
  obtain ⟨table,_⟩ := pointsTable moved.points
  have level : entries w1.memory root d (numberAt address d) = entries w.memory root d (numberAt address d) :=
    moved.opened.beside d _ (Nat.le_refl _) (by omega)
  have up := overUp address d inner
  rw [← level] at clear
  refine runsPost (enterTableRuns moved.after.tree inner table clear (fun _ => Nat.le_refl _) up) ?_
  rintro g w2 ⟨after,opened,linked⟩
  refine ⟨afterTrans moved.after after,?_,?_,?_⟩
  · have first := moved.opened
    rw [← up] at first
    exact filledAfterOpened (openedDeeper first) opened
  · have kept := pointsFilled moved.points opened (by omega)
    rw [← up] at kept linked
    exact pointsSelect kept linked
  · exact sameBelowTrans moved.lower (sameBelowEnter c _ g (by omega)) (by omega) (Nat.le_refl _)

/-- At level 2 a missing table is linked at another index `j`. -/
theorem enterMisplaced {address t j : Nat} {c : PagingContext} {w1 : World σ} (here : c.table 2 = t)
    (moved : Moved root 2 (numberAt address 2) (nullContext root) c w w1)
    (clear : shape.leaf 2 (entries w.memory root 2 (numberAt address 2)) = false)
    (digit : entries w.memory root 2 (numberAt address 2) = 0 → j = numberAt address 2 % 512) :
    Runs pool short 1 (enterLevel1 t (numberAt address 2 % 512) j) w1 fun g w2 =>
      Moved root 3 (numberAt address 3) (nullContext root)
        ((c.setIndex 3 (numberAt address 3 % 512)).setTable 3 g) w w2 := by
  refine runsSame ?_ (enterOver (d := 2) (by decide) here rfl moved clear)
  by_cases zero : entries w.memory root 2 (numberAt address 2) = 0
  · rw [digit zero]
    rfl
  · have level : entries w1.memory root 2 (numberAt address 2) = entries w.memory root 2 (numberAt address 2) :=
      moved.opened.beside 2 _ (Nat.le_refl _) (by omega)
    obtain ⟨table,_⟩ := pointsTable moved.points
    rw [here] at table
    have word := entryOfTable table
    rw [← level] at zero clear
    have null := (maskedEntry moved.after.tree clear).1
    have kept : ¬ row w1.memory t (numberAt address 2 % 512) &&& addressMask = 0 := by
      rw [word,null]
      exact zero
    unfold row at kept
    simp only [enterLevel1,enterTable,load,bind,StateT.bind,Except.bind,if_neg kept]

theorem walkStart (tree : Tree w root) (address : Nat) :
    Moved root 0 (numberAt address 0) (nullContext root) { nullContext root with level4Index := numberAt address 0 } w w :=
  ⟨afterRefl tree,filledNone _ _ _,⟨rfl,rfl,overBound address 0 (by decide)⟩,
    sameBelowIndex (nullContext root) (numberAt address 0) (Nat.zero_le 3)⟩

theorem walkRuns {address flags : Nat} (tree : Tree w root)
    (walkable : Walkable (entries w.memory root) (depthOf flags) address) :
    Runs pool short 3 (pagingVirtualAddressToIndex root address flags) w fun r w' =>
      r.1 = decide (address % span (depthOf flags) = 0) ∧
        Moved root (depthOf flags) (numberAt address (depthOf flags)) (nullContext root) r.2 w w' := by
  obtain ⟨clear,index⟩ := walkable
  obtain ⟨d4,d3,d2,d1⟩ := overDigits address
  have mod30 : address &&& 0x3FFFFFFF = address % span 1 := Nat.and_two_pow_sub_one_eq_mod address 30
  have mod21 : address &&& 0x1FFFFF = address % span 2 := Nat.and_two_pow_sub_one_eq_mod address 21
  have mod12 : address &&& 0xFFF = address % span 3 := Nat.and_two_pow_sub_one_eq_mod address 12
  have root0 : numberAt address 0 % 512 = numberAt address 0 := Nat.mod_eq_of_lt (overBound address 0 (by decide))
  obtain ⟨low,high⟩ := depthCases flags
  unfold pagingVirtualAddressToIndex
  simp only [d4,d3,d2,d1,mod30,mod21,mod12]
  refine runsBind (c := 1) (d := 2) (enterOver (by decide) rfl root0.symm (walkStart tree address) (leafRoot _)) ?_
  intro table3 w1 moved1
  refine runsIf (fun size => ?_) (fun size => ?_)
  · have depth : depthOf flags = 1 := by simp [depthOf,size]
    rw [depth]
    exact runsCost (runsPure ⟨rfl,moved1⟩) (Nat.zero_le _)
  have size1 : has flags flag1GB = false := by simpa using size
  have deep : 2 ≤ depthOf flags := by
    simp only [depthOf,size1,Bool.false_eq_true,if_false]
    split <;> decide
  have clear1 := clearOver clear high (show 1 < depthOf flags by omega)
  refine runsBind (c := 1) (d := 1) (enterOver (by decide) rfl rfl moved1 clear1) ?_
  intro table2 w2 moved2
  refine runsIf (fun size2 => ?_) (fun size2 => ?_)
  · have depth : depthOf flags = 2 := by simp [depthOf,size1,size2]
    rw [depth]
    exact runsCost (runsPure ⟨rfl,moved2⟩) (Nat.zero_le _)
  have depth : depthOf flags = 3 := by simp [depthOf,size1,size2]
  have clear2 := clearOver clear high (show 2 < depthOf flags by omega)
  rw [depth] at index ⊢
  refine runsBind (c := 1) (d := 0) (enterMisplaced rfl moved2 clear2 (index rfl)) ?_
  intro table1 w3 moved3
  exact runsPure ⟨rfl,moved3⟩

/-! Unmapping. -/

def ClearOnWay (root : Nat) (E : Nat → Nat → Nat) (d n m : Nat) : Prop :=
  ∀ j, 1 ≤ j → j ≤ m → n+j < 512^(d+1) → (∀ i, 1 ≤ i → i < j → HasTable root d E (n+i)) → Clear shape E d (n+j)

structure UnmapOutcome (root d n bytes : Nat) (w w' : World σ) (ok : Bool) : Prop where
  looped : ∃ done val c c', Looped root d n (blocks d bytes) 0 done (fun _ => []) (HasTable root d) (NoTable root d) (fun _ v _ _ => v = 0)
    val c w w' (ok,c')
  counted : w'.usedVirtualPages =
    if ok then (w.usedVirtualPages + (2^64 - blocks d bytes * 512^(3-d) % 2^64)) % 2^64 else w.usedVirtualPages

theorem putsZero (root d : Nat) :
    Puts (σ := σ) root d (fun _ c => store (c.table d) (c.index d) 0) 0 (fun _ => []) (fun _ v _ _ => v = 0) :=
  storePuts (fun _ => by decide) fun _ => linkZero d

theorem subUsedRuns (pages : Nat) : Runs pool short 0 (subUsedPages pages) w fun _ w' =>
    w' = { w with usedVirtualPages := (w.usedVirtualPages + (2^64 - pages % 2^64)) % 2^64 } :=
  ⟨rfl,Nat.le_refl _⟩

theorem unmapLoopRuns {d n bytes pages weight : Nat} {c : PagingContext} (pagesEq : pages = blocks d bytes)
    (weightEq : weight = 512^(3-d)) {w1 : World σ} (after : After root w w1 (entries w.memory root))
    (points : Points root (entries w.memory root) c d n)
    (clear : ClearOnWay root (entries w.memory root) d n (blocks d bytes)) :
    Runs pool short 0 (unmapLoop d pages weight c) w1 fun ok w' => UnmapOutcome root d n bytes w w' ok := by
  subst pagesEq weightEq
  rw [← after.shows] at points clear
  have cost : blocks d bytes * 0 + (0-0) ≤ 0 := by omega
  refine runsFree (runsCost (mapLoopRuns (stepsUnmap root d) (putsZero root d) (blocks d bytes) after.tree points clear)
    cost) ?_
  rintro ⟨ok,c1⟩ w2 ⟨⟨done,val,looped⟩,used⟩
  have whole := loopedAfter (putsZero root d) after looped
  rw [after.used] at used
  cases ok with
  | false => exact runsPure ⟨⟨done,val,c,c1,whole⟩,used⟩
  | true =>
    refine runsFree (subUsedRuns _) ?_
    rintro _ w3 rfl
    refine runsPure ⟨⟨done,val,c,c1,loopedCounted (putsZero root d) whole _⟩,?_⟩
    dsimp only
    rw [used,if_pos rfl]

theorem unmapFinishes {d n bytes : Nat} {w' : World σ} {ok : Bool} (outcome : UnmapOutcome root d n bytes w w' ok)
    (inside : n + blocks d bytes < 512^(d+1))
    (tables : ∀ j ≤ blocks d bytes, (tab shape root (entries w.memory root) d ((n+j)/512)).isSome) : ok = true := by
  obtain ⟨done,val,c,c',looped⟩ := outcome.looped
  have few := looped.few
  by_contra failed
  obtain ⟨_,blocked,_⟩ := looped.stops (by simpa using failed)
  have there := tables done few
  rcases blocked with last | missing
  · omega
  · cases d with
    | zero =>
      simp only [tab] at there missing
      rw [missing] at there
      contradiction
    | succ k =>
      simp only [tab] at there missing
      rw [filledAbove looped.filled (Nat.lt_succ_self k) (linkIsSome.mp there).1] at missing
      rw [missing] at there
      contradiction

def Untouched (root address : Nat) (w w' : World σ) (ok : Bool) : Prop :=
  ok = false ∧ After root w w' (entries w.memory root) ∧
    (¬ Mapped (entries w.memory root) address ∨
      ∃ d ≤ 3, Leaf shape (entries w.memory root) 3 (pageNumber address) d ∧ address % span d ≠ 0)

theorem notMapped {E : Nat → Nat → Nat} (grounded : Grounded shape E) {address d : Nat} (hd : d ≤ 3)
    (above : Clear shape E d (numberAt address d)) (zero : E d (numberAt address d) = 0) : ¬ Mapped E address := by
  rintro ⟨e,he,leaf⟩
  rcases Nat.lt_trichotomy e d with less | same | more
  · exact clearNoLeaf above hd less leaf
  · subst same
    exact leaf.1 zero
  · exact (linkIsSome.mp (leafLink grounded he more leaf)).1 zero

theorem loadAt {k n t i : Nat} {w1 : World σ} (after : After root w w1 (entries w.memory root))
    (table : tab shape root (entries w.memory root) k (n/512) = some t) (digit : i = n % 512) :
    Runs pool short 0 (load t i) w1 fun v w' =>
      v = entries w.memory root k n ∧ After root w w' (entries w.memory root) := by
  subst digit
  rw [← after.shows] at table
  refine runsPost (loadRuns after.tree table) ?_
  rintro v w' ⟨value,after'⟩
  rw [after.shows] at value after'
  exact ⟨value,afterTrans after after'⟩

theorem clearNext {E : Nat → Nat → Nat} {address d : Nat} (inner : d < 3) (above : Clear shape E d (numberAt address d))
    (leaf : shape.leaf d (E d (numberAt address d)) = false) : Clear shape E (d+1) (numberAt address (d+1)) := by
  rw [← overUp address d inner] at above leaf
  exact clearSucc.mpr ⟨above,leaf⟩

theorem leafUnmapRuns {d address bytes mask pages weight : Nat} {c : PagingContext} {w1 : World σ} (depth : d ≤ 3)
    (offset : address &&& mask = address % span d) (pagesEq : pages = blocks d bytes) (weightEq : weight = 512^(3-d))
    (leaf : Leaf shape (entries w.memory root) 3 (pageNumber address) d) (after : After root w w1 (entries w.memory root))
    (points : Points root (entries w.memory root) c d (numberAt address d))
    (clear : ∀ d ≤ 3, Leaf shape (entries w.memory root) 3 (pageNumber address) d → address % span d = 0 →
      ClearOnWay root (entries w.memory root) d (numberAt address d) (blocks d bytes)) :
    Runs pool short 0 (if address &&& mask ≠ 0 then pure false else unmapLoop d pages weight c) w1 fun ok w' =>
      Untouched root address w w' ok ∨ ∃ d ≤ 3, Leaf shape (entries w.memory root) 3 (pageNumber address) d ∧
        address % span d = 0 ∧ UnmapOutcome root d (numberAt address d) bytes w w' ok := by
  rw [offset]
  refine runsIf (fun unaligned => ?_) (fun onBoundary => ?_)
  · exact runsPure (Or.inl ⟨rfl,after,Or.inr ⟨d,depth,leaf,unaligned⟩⟩)
  · refine runsPost (unmapLoopRuns pagesEq weightEq after points (clear d depth leaf (not_not.mp onBoundary))) fun ok w' outcome => ?_
    exact Or.inr ⟨d,depth,leaf,not_not.mp onBoundary,outcome⟩

theorem unmapRuns {address bytes : Nat} {c : PagingContext} (same : c.level4Table = root) (tree : Tree w root)
    (clear : ∀ d ≤ 3, Leaf shape (entries w.memory root) 3 (pageNumber address) d → address % span d = 0 →
      ClearOnWay root (entries w.memory root) d (numberAt address d) (blocks d bytes)) :
    Runs pool short 0 (pagingUnmap c address bytes) w fun ok w' => Untouched root address w w' ok ∨
      ∃ d ≤ 3, Leaf shape (entries w.memory root) 3 (pageNumber address) d ∧ address % span d = 0 ∧
        UnmapOutcome root d (numberAt address d) bytes w w' ok := by
  obtain ⟨d4,d3,d2,d1⟩ := overDigits address
  have grounded := entriesGrounded w.memory root
  have root0 : numberAt address 0 % 512 = numberAt address 0 := Nat.mod_eq_of_lt (overBound address 0 (by decide))
  have points0 := (walkStart tree address).points
  have size : ∀ d e, d = 1 ∨ d = 2 → shape.leaf d e = has e entrySize := by
    rintro d e (rfl | rfl) <;> rfl
  unfold pagingUnmap
  simp only [same,d4,d3,d2,d1]
  -- Level 4.
  refine runsFree (loadAt (afterRefl tree) (pointsTable points0).1 root0.symm) ?_
  rintro _ w1 ⟨rfl,after⟩
  have clear0 : Clear shape (entries w.memory root) 0 (numberAt address 0) := fun e he => by omega
  refine runsIf (fun zero => ?_) (fun some4 => ?_)
  · exact runsPure (Or.inl ⟨rfl,after,Or.inl (notMapped grounded (by decide) clear0 zero)⟩)
  have link4 := (maskedEntry tree (leafRoot _)).2 some4
  obtain ⟨table3,points1⟩ := pointsOver (by decide) points0 link4
  have clear1 := clearNext (by decide) clear0 (leafRoot _)
  -- Level 3, with its 1 GiB pages.
  refine runsFree (loadAt after table3 rfl) ?_
  rintro _ w2 ⟨rfl,after⟩
  refine runsIf (fun zero => ?_) (fun some3 => ?_)
  · exact runsPure (Or.inl ⟨rfl,after,Or.inl (notMapped grounded (by decide) clear1 zero)⟩)
  refine runsIf (fun huge => ?_) (fun table => ?_)
  · exact leafUnmapRuns (by decide) (Nat.and_two_pow_sub_one_eq_mod address 30) rfl rfl
      ⟨some3,(size 1 _ (Or.inl rfl)).trans huge⟩ after points1 clear
  have inner3 := (size 1 _ (Or.inl rfl)).trans (Bool.eq_false_iff.mpr table)
  have link3 := (maskedEntry tree inner3).2 some3
  obtain ⟨table2,points2⟩ := pointsOver (by decide) points1 link3
  have clear2 := clearNext (by decide) clear1 inner3
  -- Level 2, with its 2 MiB pages.
  refine runsFree (loadAt after table2 rfl) ?_
  rintro _ w3 ⟨rfl,after⟩
  refine runsIf (fun zero => ?_) (fun some2 => ?_)
  · exact runsPure (Or.inl ⟨rfl,after,Or.inl (notMapped grounded (by decide) clear2 zero)⟩)
  refine runsIf (fun huge => ?_) (fun table => ?_)
  · exact leafUnmapRuns (by decide) (Nat.and_two_pow_sub_one_eq_mod address 21) rfl rfl
      ⟨some2,(size 2 _ (Or.inr rfl)).trans huge⟩ after points2 clear
  have inner2 := (size 2 _ (Or.inr rfl)).trans (Bool.eq_false_iff.mpr table)
  have link2 := (maskedEntry tree inner2).2 some2
  obtain ⟨table1,points3⟩ := pointsOver (by decide) points2 link2
  have clear3 := clearNext (by decide) clear2 inner2
  -- Level 1.
  refine runsFree (loadAt after table1 rfl) ?_
  rintro _ w4 ⟨rfl,after⟩
  refine runsIf (fun zero => ?_) (fun some1 => ?_)
  · exact runsPure (Or.inl ⟨rfl,after,Or.inl (notMapped grounded (by decide) clear3 zero)⟩)
  exact leafUnmapRuns (by decide) (Nat.and_two_pow_sub_one_eq_mod address 12) rfl rfl ⟨some1,leafDepth _ (by decide)⟩
    after points3 clear

end

end Kokos.Paging

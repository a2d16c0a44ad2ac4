import Kokos.PagingLoops

/-! What each function of paging.c does to the tree when its context points where it
should and no huge page stands in the way. -/
namespace Kokos.Paging
open BudgetedCalls RadixTables

def depthOf (flags : Nat) : Nat := if has flags flag1GB then 1 else if has flags flag2MB then 2 else 3

def blocks (d bytes : Nat) : Nat := units bytes (12+9*(3-d))

def span (d : Nat) : Nat := 4096*512^(3-d)

inductive Source where
  | physical (address : Nat)
  | allocated
  deriving DecidableEq, Repr

section
variable {σ : Type} [PageAllocator σ]

def mapIndex : Source → PagingContext → Nat → Nat → Kernel σ (Bool × PagingContext)
  | .physical address, c, bytes, flags => pagingMapIndexPhysical address c bytes flags
  | .allocated, c, bytes, flags => pagingMapIndexCurrent c bytes flags

def Accepts (huge : Bool) (E : Nat → Nat → Nat) (d n : Nat) (source : Source) (bytes flags : Nat) : Prop :=
  bytes ≠ 0 ∧ match source with
    | .physical address => (d = 1 → huge = true) ∧ address % span d = 0 ∧
        (E d n = 0 ∨ d < 3 ∧ has flags flagReplace = true)
    | .allocated => d = 3 ∧ E d n = 0

def Value (source : Source) (d flags i v : Nat) (w w' : World σ) : Prop :=
  match source with
  | .physical address => v = physicalEntry d address (pagingConvertFlags (flags % 2^16)) i
  | .allocated => d = 3 ∧ Drawn (flags % 2^16) v w w'

def Source.unit : Source → Nat
  | .physical _ => 0
  | .allocated => 1

def Source.frames : Source → Nat → List Nat
  | .physical _, _ => []
  | .allocated, v => [v &&& 0xFFFFFFFFFF000]

theorem depthCases (flags : Nat) : 1 ≤ depthOf flags ∧ depthOf flags ≤ 3 := by
  unfold depthOf
  split
  · decide
  · split <;> decide

theorem valueLeaf {source : Source} {flags i v : Nat} {w w' : World σ} (value : Value source (depthOf flags) flags i v w w') :
    v ≠ 0 ∧ shape.leaf (depthOf flags) v = true := by
  cases source with
  | physical address =>
    have leaf := physicalLeaf (depthCases flags).1 address (flags % 2^16) i
    rw [← value] at leaf
    exact ⟨leaf.1,leaf.2.1⟩
  | allocated =>
    obtain ⟨depth,drawn⟩ := value
    rw [depth]
    have leaf := drawnLeaf drawn
    exact ⟨leaf.1,leaf.2.1⟩

theorem flagsShort (flags : Nat) :
    has (flags % 2^16) flag1GB = has flags flag1GB ∧ has (flags % 2^16) flag2MB = has flags flag2MB ∧
      has (flags % 2^16) flagReplace = has flags flagReplace :=
  ⟨hasShort flags (k := 4) (by decide),hasShort flags (k := 5) (by decide),hasShort flags (k := 6) (by decide)⟩

variable {root : Nat} {w : World σ} {c : PagingContext} {n : Nat} {short : Prop}

theorem loadPoints {e : Nat} (tree : Tree w root) (points : Points root (entries w.memory root) c e n) :
    Runs pool short 0 (load (c.table e) (c.index e)) w fun v w' =>
      v = entries w.memory root e n ∧ After root w w' (entries w.memory root) := by
  obtain ⟨table,index⟩ := pointsTable points
  rw [index]
  exact loadRuns tree table

theorem pointsLink {E : Nat → Nat → Nat} {d : Nat} (points : Points root E c (d+1) n) : has (E d (n/512)) entrySize = false ∨ d = 0 := by
  by_cases low : 1 ≤ d
  · have table := points.2.1
    simp only [tab] at table
    exact Or.inl (sizeClear low (linkSome table).2.1)
  · exact Or.inr (by omega)

structure LoopOutcome (source : Source) (root d n bytes flags : Nat) (c : PagingContext) (w w' : World σ)
    (r : Bool × PagingContext) : Prop where
  looped : ∃ done val, Looped root d n (blocks d bytes) 0 done source.frames (fun _ _ => True) (AtEnd d) (Value source d flags) val c w w' r
  counted : w'.usedVirtualPages =
    if r.1 then (w.usedVirtualPages + blocks d bytes * 512^(3-d)) % 2^64 else w.usedVirtualPages

structure MapOutcome (source : Source) (root d n bytes flags : Nat) (c : PagingContext) (w w' : World σ)
    (r : Bool × PagingContext) : Prop where
  refused : ¬ Accepts w.hugepagesSupported (entries w.memory root) d n source bytes flags →
    r = (false,c) ∧ After root w w' (entries w.memory root)
  accepted : Accepts w.hugepagesSupported (entries w.memory root) d n source bytes flags →
    LoopOutcome source root d n bytes flags c w w' r

theorem refuse {source : Source} {d bytes flags : Nat} {w' : World σ} (after : After root w w' (entries w.memory root))
    (not : ¬ Accepts w.hugepagesSupported (entries w.memory root) d n source bytes flags) :
    Runs pool short 0 (pure (false,c)) w' fun r w2 => MapOutcome source root d n bytes flags c w w2 r :=
  runsPure ⟨fun _ => ⟨rfl,after⟩,fun yes => absurd yes not⟩

theorem physicalPuts {root d : Nat} (low : 1 ≤ d) (address flags : Nat) :
    Puts (σ := σ) root d (putPhysical d address (pagingConvertFlags (flags % 2^16))) 0
      (Source.physical address).frames (Value (.physical address) d flags) := putsPhysical low address (flags % 2^16)

theorem allocatedPuts (root flags : Nat) :
    Puts (σ := σ) root 3 (putAllocated (pagingConvertFlags (flags % 2^16))) 1
      Source.allocated.frames (Value .allocated 3 flags) where
  run tree points := runsPost ((putsAllocated root (flags % 2^16)).run tree points)
    fun _ _ ⟨v,after,drawn⟩ => ⟨v,after,rfl,drawn⟩
  widen before value after := ⟨rfl,drawnWiden before value.2 after⟩

theorem acceptRuns {source : Source} {d bytes flags unit pages weight : Nat}
    {step : PagingContext → Kernel σ (Bool × PagingContext)} {act : Nat → PagingContext → Kernel σ Unit}
    (steps : Steps root d step (carries d) (fun E p => Passable E d p) (fun _ _ => True) (AtEnd d))
    (puts : Puts root d act unit source.frames (Value source d flags)) (pagesEq : pages = blocks d bytes)
    (weightEq : weight = 512^(3-d)) {w1 : World σ} (after : After root w w1 (entries w.memory root))
    (points : Points root (entries w.memory root) c d n)
    (pass : ∀ j, 1 ≤ j → j ≤ blocks d bytes → n+j < 512^(d+1) → Passable (entries w.memory root) d (n+j))
    (yes : Accepts w.hugepagesSupported (entries w.memory root) d n source bytes flags) :
    Runs pool short (blocks d bytes * unit + (carries d (n + blocks d bytes) - carries d n))
      (countedLoop act step pages weight c) w1 fun r w' => MapOutcome source root d n bytes flags c w w' r := by
  subst pagesEq weightEq
  rw [← after.shows] at points pass
  refine runsPost (countedLoopRuns steps puts after.tree points fun j low few room _ => pass j low few room) ?_
  rintro r w' ⟨⟨done,val,looped⟩,counted⟩
  refine ⟨fun no => absurd yes no,fun _ => ⟨⟨done,val,loopedAfter puts after looped⟩,?_⟩⟩
  rw [counted,after.used]

theorem hugeRuns {w1 : World σ} (after : After root w w1 (entries w.memory root)) :
    Runs pool short 0 hugepagesSupported w1 fun h w' =>
      h = w.hugepagesSupported ∧ After root w w' (entries w.memory root) :=
  ⟨⟨after.evolves.huge,after⟩,Nat.le_refl _⟩

theorem reloadPoints {e : Nat} {w1 : World σ} (after : After root w w1 (entries w.memory root))
    (points : Points root (entries w.memory root) c e n) :
    Runs pool short 0 (load (c.table e) (c.index e)) w1 fun v w' =>
      v = entries w.memory root e n ∧ After root w w' (entries w.memory root) := by
  rw [← after.shows] at points
  refine runsPost (loadPoints after.tree points) ?_
  rintro v w' ⟨value,after'⟩
  rw [after.shows] at value after'
  exact ⟨value,afterTrans after after'⟩

section
variable {w1 : World σ} (after : After root w w1 (entries w.memory root)) {e table index : Nat}
include after

theorem reloadLevel (points : Points root (entries w.memory root) c e n) (level : c.table e = table ∧ c.index e = index) :
    Runs pool short 0 (load table index) w1 fun v w' =>
      v = entries w.memory root e n ∧ After root w w' (entries w.memory root) := by
  rw [← level.1,← level.2]
  exact reloadPoints after points

theorem passLevel (points : Points root (entries w.memory root) c (e+1) n) (level : c.table e = table ∧ c.index e = index)
    (some : 1 ≤ e) (upper : e ≤ 2) : Runs pool short 0 (load table index) w1 fun v w' =>
      has v entrySize = false ∧ After root w w' (entries w.memory root) := by
  refine runsPost (reloadLevel after points.1 level) ?_
  rintro v w' ⟨rfl,after'⟩
  obtain rfl | rfl : e = 1 ∨ e = 2 := by omega
  · exact ⟨by simpa using pointsLink points,after'⟩
  · exact ⟨by simpa using pointsLink points,after'⟩

theorem replaceRuns {d bytes flags address pages weight : Nat} {step : PagingContext → Kernel σ (Bool × PagingContext)}
    (low : 1 ≤ d) (huge : d < 3) (steps : Steps root d step (carries d) (fun E p => Passable E d p) (fun _ _ => True) (AtEnd d))
    (pagesEq : pages = blocks d bytes) (weightEq : weight = 512^(3-d)) (points : Points root (entries w.memory root) c d n)
    (pass : Accepts w.hugepagesSupported (entries w.memory root) d n (.physical address) bytes flags →
      ∀ j, 1 ≤ j → j ≤ blocks d bytes → n+j < 512^(d+1) → Passable (entries w.memory root) d (n+j))
    (some : bytes ≠ 0) (supported : d = 1 → w.hugepagesSupported = true) (aligned : address % span d = 0) :
    Runs pool short (blocks d bytes * 0 + (carries d (n + blocks d bytes) - carries d n))
      (do
        let entry ← load (c.table d) (c.index d)
        if entry ≠ 0 ∧ has flags flagReplace = false then return (false,c)
        else countedLoop (putPhysical d address (pagingConvertFlags (flags % 2^16))) step pages weight c) w1
      fun r w' => MapOutcome (.physical address) root d n bytes flags c w w' r := by
  refine runsFree (reloadPoints after points) ?_
  rintro _ w2 ⟨rfl,after⟩
  refine runsIf (fun occupied => ?_) (fun free => ?_)
  · refine runsCost (refuse after fun yes => ?_) (Nat.zero_le _)
    rcases yes.2.2.2 with empty | ⟨_,replace⟩
    · exact occupied.1 empty
    · rw [occupied.2] at replace
      contradiction
  · have yes : Accepts w.hugepagesSupported (entries w.memory root) d n (.physical address) bytes flags := by
      refine ⟨some,supported,aligned,?_⟩
      by_cases empty : entries w.memory root d n = 0
      · exact Or.inl empty
      · exact Or.inr ⟨huge,by simpa [empty] using free⟩
    exact acceptRuns steps (physicalPuts low address flags) pagesEq weightEq after points (pass yes) yes

end

theorem mapLevel3Runs {bytes flags : Nat} (address : Nat) (size : has flags flag1GB = true) (tree : Tree w root)
    (points : Points root (entries w.memory root) c 1 n)
    (pass : Accepts w.hugepagesSupported (entries w.memory root) 1 n (.physical address) bytes flags →
      ∀ j, 1 ≤ j → j ≤ blocks 1 bytes → n+j < 512^2 → Passable (entries w.memory root) 1 (n+j)) :
    Runs pool short (blocks 1 bytes * 0 + (carries 1 (n + blocks 1 bytes) - carries 1 n))
      (pagingMapIndexPhysical address c bytes flags) w fun r w' =>
        MapOutcome (.physical address) root 1 n bytes flags c w w' r := by
  obtain ⟨short1,short2,shortR⟩ := flagsShort flags
  have aligned : address &&& 0x3FFFFFFF = address % span 1 := Nat.and_two_pow_sub_one_eq_mod address 30
  unfold pagingMapIndexPhysical
  simp only [short1,size,shortR,aligned,or_true,if_true]
  refine runsIf (fun zero => ?_) (fun some => ?_)
  · exact runsCost (refuse (afterRefl tree) fun yes => yes.1 zero) (Nat.zero_le _)
  refine runsFree (reloadLevel (afterRefl tree) points ⟨rfl,rfl⟩) ?_
  rintro _ w1 ⟨rfl,after⟩
  refine runsFree (hugeRuns after) ?_
  rintro _ w2 ⟨rfl,after⟩
  refine runsIf (fun no => ?_) (fun huge => ?_)
  · refine runsCost (refuse after fun yes => ?_) (Nat.zero_le _)
    have := yes.2.1 rfl
    simp [no] at this
  refine runsIf (fun unaligned => ?_) (fun onBoundary => ?_)
  · exact runsCost (refuse after fun yes => unaligned yes.2.2.1) (Nat.zero_le _)
  have supported : 1 = 1 → w.hugepagesSupported = true := fun _ => by simpa using huge
  exact replaceRuns after (by decide) (by decide) (stepsUnmasked root) rfl rfl points pass some supported (by simpa using onBoundary)

theorem mapLevel2Runs {bytes flags : Nat} (address : Nat) (size1 : has flags flag1GB = false)
    (size : has flags flag2MB = true) (tree : Tree w root) (points : Points root (entries w.memory root) c 2 n)
    (pass : Accepts w.hugepagesSupported (entries w.memory root) 2 n (.physical address) bytes flags →
      ∀ j, 1 ≤ j → j ≤ blocks 2 bytes → n+j < 512^3 → Passable (entries w.memory root) 2 (n+j)) :
    Runs pool short (blocks 2 bytes * 0 + (carries 2 (n + blocks 2 bytes) - carries 2 n))
      (pagingMapIndexPhysical address c bytes flags) w fun r w' =>
        MapOutcome (.physical address) root 2 n bytes flags c w w' r := by
  obtain ⟨short1,short2,shortR⟩ := flagsShort flags
  have aligned : address &&& 0x1FFFFF = address % span 2 := Nat.and_two_pow_sub_one_eq_mod address 21
  unfold pagingMapIndexPhysical
  simp only [short1,size1,short2,size,shortR,aligned,or_true,if_true,or_false,Bool.false_eq_true]
  refine runsIf (fun zero => ?_) (fun some => ?_)
  · exact runsCost (refuse (afterRefl tree) fun yes => yes.1 zero) (Nat.zero_le _)
  refine runsFree (passLevel (afterRefl tree) points ⟨rfl,rfl⟩ (by decide) (by decide)) ?_
  rintro _ w1 ⟨inner,after⟩
  rw [if_neg (by rw [inner]; decide)]
  refine runsFree (reloadLevel after points ⟨rfl,rfl⟩) ?_
  rintro _ w2 ⟨rfl,after⟩
  refine runsIf (fun unaligned => ?_) (fun onBoundary => ?_)
  · exact runsCost (refuse after fun yes => unaligned yes.2.2.1) (Nat.zero_le _)
  have supported : 2 = 1 → w.hugepagesSupported = true := fun one => absurd one (by decide)
  exact replaceRuns after (by decide) (by decide) (stepsMap root 2) rfl rfl points pass some supported (by simpa using onBoundary)

theorem mapLevel1Runs {bytes flags : Nat} (address : Nat) (size1 : has flags flag1GB = false)
    (size2 : has flags flag2MB = false) (tree : Tree w root) (points : Points root (entries w.memory root) c 3 n)
    (pass : Accepts w.hugepagesSupported (entries w.memory root) 3 n (.physical address) bytes flags →
      ∀ j, 1 ≤ j → j ≤ blocks 3 bytes → n+j < 512^4 → Passable (entries w.memory root) 3 (n+j)) :
    Runs pool short (blocks 3 bytes * 0 + (carries 3 (n + blocks 3 bytes) - carries 3 n))
      (pagingMapIndexPhysical address c bytes flags) w fun r w' =>
        MapOutcome (.physical address) root 3 n bytes flags c w w' r := by
  obtain ⟨short1,short2,_⟩ := flagsShort flags
  have aligned : address &&& 0xFFF = address % span 3 := Nat.and_two_pow_sub_one_eq_mod address 12
  unfold pagingMapIndexPhysical
  simp only [short1,size1,short2,size2,aligned,or_false,Bool.false_eq_true]
  refine runsIf (fun zero => ?_) (fun some => ?_)
  · exact runsCost (refuse (afterRefl tree) fun yes => yes.1 zero) (Nat.zero_le _)
  refine runsFree (passLevel (afterRefl tree) points.1 ⟨rfl,rfl⟩ (by decide) (by decide)) ?_
  rintro _ w1 ⟨inner3,after⟩
  rw [if_neg (by rw [inner3]; decide)]
  refine runsFree (passLevel after points ⟨rfl,rfl⟩ (by decide) (by decide)) ?_
  rintro _ w2 ⟨inner2,after⟩
  rw [if_neg (by rw [inner2]; decide)]
  refine runsFree (reloadLevel after points ⟨rfl,rfl⟩) ?_
  rintro _ w3 ⟨rfl,after⟩
  refine runsIf (fun occupied => ?_) (fun free => ?_)
  · refine runsCost (refuse after fun yes => ?_) (Nat.zero_le _)
    rcases yes.2.2.2 with empty | ⟨low,_⟩
    · exact occupied empty
    · exact absurd low (by decide)
  refine runsIf (fun unaligned => ?_) (fun onBoundary => ?_)
  · exact runsCost (refuse after fun yes => unaligned yes.2.2.1) (Nat.zero_le _)
  · have yes : Accepts w.hugepagesSupported (entries w.memory root) 3 n (.physical address) bytes flags :=
      ⟨some,fun one => absurd one (by decide),by simpa using onBoundary,Or.inl (by simpa using free)⟩
    exact acceptRuns (stepsMap root 3) (physicalPuts (by decide) address flags) rfl rfl after points (pass yes) yes

theorem mapCurrentRuns {bytes flags : Nat} (tree : Tree w root)
    (points : Points root (entries w.memory root) c (depthOf flags) n)
    (pass : Accepts w.hugepagesSupported (entries w.memory root) (depthOf flags) n .allocated bytes flags →
      ∀ j, 1 ≤ j → j ≤ blocks (depthOf flags) bytes → n+j < 512^(depthOf flags + 1) →
      Passable (entries w.memory root) (depthOf flags) (n+j)) :
    Runs pool short (blocks (depthOf flags) bytes * 1 +
        (carries (depthOf flags) (n + blocks (depthOf flags) bytes) - carries (depthOf flags) n))
      (pagingMapIndexCurrent c bytes flags) w fun r w' =>
        MapOutcome .allocated root (depthOf flags) n bytes flags c w w' r := by
  obtain ⟨short1,short2,_⟩ := flagsShort flags
  unfold pagingMapIndexCurrent
  simp only [short1,short2]
  refine runsIf (fun zero => ?_) (fun some => ?_)
  · exact runsCost (refuse (afterRefl tree) fun yes => yes.1 zero) (Nat.zero_le _)
  cases size1 : has flags flag1GB with
  | true =>
    have depth : depthOf flags = 1 := by simp [depthOf,size1]
    rw [depth] at points ⊢
    refine runsFree (reloadLevel (afterRefl tree) points ⟨rfl,rfl⟩) ?_
    rintro _ w1 ⟨rfl,after⟩
    rw [if_pos (Or.inr rfl)]
    refine runsFree (hugeRuns after) ?_
    rintro _ w2 ⟨rfl,after⟩
    refine runsIf (fun _ => ?_) (fun _ => ?_)
    · exact runsCost (refuse after fun yes => absurd yes.2.1 (by decide)) (Nat.zero_le _)
    · refine runsFree (reloadLevel after points ⟨rfl,rfl⟩) ?_
      rintro _ w3 ⟨rfl,after⟩
      exact runsCost (refuse after fun yes => absurd yes.2.1 (by decide)) (Nat.zero_le _)
  | false =>
    cases size2 : has flags flag2MB with
    | true =>
      have depth : depthOf flags = 2 := by simp [depthOf,size1,size2]
      rw [depth] at points ⊢
      refine runsFree (passLevel (afterRefl tree) points ⟨rfl,rfl⟩ (by decide) (by decide)) ?_
      rintro _ w1 ⟨inner,after⟩
      rw [if_neg (by rw [inner]; decide)]
      refine runsFree (reloadLevel after points ⟨rfl,rfl⟩) ?_
      rintro _ w2 ⟨rfl,after⟩
      rw [if_pos (Or.inr rfl)]
      refine runsFree (reloadLevel after points ⟨rfl,rfl⟩) ?_
      rintro _ w3 ⟨rfl,after⟩
      exact runsCost (refuse after fun yes => absurd yes.2.1 (by decide)) (Nat.zero_le _)
    | false =>
      have depth : depthOf flags = 3 := by simp [depthOf,size1,size2]
      rw [depth] at points pass ⊢
      refine runsFree (passLevel (afterRefl tree) points.1 ⟨rfl,rfl⟩ (by decide) (by decide)) ?_
      rintro _ w1 ⟨inner3,after⟩
      rw [if_neg (by rw [inner3]; decide)]
      refine runsFree (passLevel after points ⟨rfl,rfl⟩ (by decide) (by decide)) ?_
      rintro _ w2 ⟨inner2,after⟩
      rw [if_neg (by rw [inner2]; decide)]
      refine runsFree (reloadLevel after points ⟨rfl,rfl⟩) ?_
      rintro _ w3 ⟨rfl,after⟩
      refine runsIf (fun occupied => ?_) (fun free => ?_)
      · exact runsCost (refuse after fun yes => occupied yes.2.2) (Nat.zero_le _)
      · have yes : Accepts w.hugepagesSupported (entries w.memory root) 3 n .allocated bytes flags :=
          ⟨some,rfl,by simpa using free⟩
        exact acceptRuns (stepsMap root 3) (allocatedPuts root flags) rfl rfl after points (pass yes) yes

def demand (source : Source) (d n bytes : Nat) : Nat :=
  blocks d bytes * source.unit + (carries d (n + blocks d bytes) - carries d n)

theorem mapIndexRuns (source : Source) {bytes flags : Nat} (tree : Tree w root)
    (points : Points root (entries w.memory root) c (depthOf flags) n)
    (pass : Accepts w.hugepagesSupported (entries w.memory root) (depthOf flags) n source bytes flags →
      ∀ j, 1 ≤ j → j ≤ blocks (depthOf flags) bytes → n+j < 512^(depthOf flags + 1) →
      Passable (entries w.memory root) (depthOf flags) (n+j)) :
    Runs pool short (demand source (depthOf flags) n bytes) (mapIndex source c bytes flags) w fun r w' =>
      MapOutcome source root (depthOf flags) n bytes flags c w w' r := by
  cases source with
  | allocated => exact mapCurrentRuns tree points pass
  | physical address =>
    unfold mapIndex
    cases size1 : has flags flag1GB with
    | true =>
      have depth : depthOf flags = 1 := by simp [depthOf,size1]
      rw [depth] at points pass ⊢
      exact mapLevel3Runs address size1 tree points pass
    | false =>
      cases size2 : has flags flag2MB with
      | true =>
        have depth : depthOf flags = 2 := by simp [depthOf,size1,size2]
        rw [depth] at points pass ⊢
        exact mapLevel2Runs address size1 size2 tree points pass
      | false =>
        have depth : depthOf flags = 3 := by simp [depthOf,size1,size2]
        rw [depth] at points pass ⊢
        exact mapLevel1Runs address size1 size2 tree points pass

end

end Kokos.Paging

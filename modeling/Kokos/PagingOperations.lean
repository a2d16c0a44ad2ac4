import Kokos.PagingWalk

/-! The five calls of paging.c as operations on the tree under one level-4 table. -/
namespace Kokos.Paging
open BudgetedCalls RadixTables

section
variable {σ : Type} [PageAllocator σ]

def mapAnywhere : Source → Nat → PagingContext → Nat → Nat → Kernel σ (Nat × PagingContext)
  | .physical address, fuel, c, bytes, flags => pagingMapPhysical fuel c address bytes flags
  | .allocated, fuel, c, bytes, flags => pagingMap fuel c bytes flags

def mapFixed : Source → PagingContext → Nat → Nat → Nat → Kernel σ Nat
  | .physical address, c, target, bytes, flags => pagingMapPhysicalAt c address target bytes flags
  | .allocated, c, target, bytes, flags => pagingMapAt c target bytes flags

structure MapResult (source : Source) (root start bytes flags : Nat) (c : PagingContext) (w w' : World σ) (ok : Bool)
    (c' : PagingContext) (done : Nat) (val : Nat → Nat) : Prop where
  tree : Tree w' root
  evolves : Evolves root w w'
  filled : Filled shape (entries w.memory root) (entries w'.memory root) (depthOf flags) start done val
  values : ∀ j < done, Value source (depthOf flags) flags j (val j) w w'
  apart : ∀ j k, j < k → k < done → ∃ mid, Value source (depthOf flags) flags j (val j) w mid ∧
    Value source (depthOf flags) flags k (val k) mid w'
  frames : ∀ f, f ∈ w'.frames ↔ f ∈ w.frames ∨ ∃ j < done, f ∈ source.frames (val j)
  few : done ≤ blocks (depthOf flags) bytes
  counted : w'.usedVirtualPages = if ok then
    (w.usedVirtualPages + blocks (depthOf flags) bytes * 512^(3 - depthOf flags)) % 2^64 else w.usedVirtualPages
  succeeds : ok = true → done = blocks (depthOf flags) bytes ∧
    Accepts w.hugepagesSupported (entries w.memory root) (depthOf flags) start source bytes flags ∧
    Points root (entries w'.memory root) c' (depthOf flags) (start + done) ∧ SameBelow (depthOf flags) c c'
  rooted : c'.level4Table = root
  fails : ok = false → done = 0 ∨ start + done = 512^(depthOf flags + 1) ∧
    Accepts w.hugepagesSupported (entries w.memory root) (depthOf flags) start source bytes flags

variable {root : Nat} {w : World σ} {c : PagingContext} {short : Prop} {source : Source} {bytes flags : Nat}

theorem valueWiden {d i v : Nat} {w0 w w' w2 : World σ} (before : Evolves root w0 w) (value : Value source d flags i v w w')
    (after : Evolves root w' w2) : Value source d flags i v w0 w2 := by
  cases source with
  | physical address => exact value
  | allocated => exact ⟨value.1,drawnWiden before value.2 after⟩

theorem physicalFrame {d address j : Nat} (low : 1 ≤ d) (aligned : address % span d = 0)
    (bound : address + span d * j < 2^52) (flags : Nat) :
    physicalEntry d address (pagingConvertFlags flags) j &&& 0xFFFFFFFFFF000 = address + span d * j := by
  obtain ⟨small,present⟩ := convertBits flags
  have field := (leafEntry (d := d) (x := (address + span d * j) % 2^64) low small present).2.2.2
  have page : (address + span d * j) % 4096 = 0 := by
    have block : span d % 4096 = 0 := by simp [span]
    have whole : address % 4096 = 0 := by
      have := Nat.mod_mod_of_dvd address (Nat.dvd_of_mod_eq_zero block)
      rw [aligned] at this
      omega
    rw [Nat.add_mod,Nat.mul_mod,whole,block]
    simp
  change _ = (address + span d * j) % 2^64 / 4096 % 2^40 * 4096 at field
  have bits : (address + span d * j) % 2^64 / 4096 % 2^40 * 4096 = address + span d * j := by omega
  exact field.trans bits

theorem drawnFrame {v : Nat} {w w' : World σ} (drawn : Drawn flags v w w') :
    IsPage (v &&& 0xFFFFFFFFFF000) ∧ ¬ PageAllocator.Taken w.allocator (v &&& 0xFFFFFFFFFF000) ∧
      PageAllocator.Taken w'.allocator (v &&& 0xFFFFFFFFFF000) ∧ (v &&& 0xFFFFFFFFFF000) ∉ w'.tables := by
  obtain ⟨page,rfl,isPage,facts⟩ := drawn
  rw [frameField isPage]
  exact ⟨isPage,facts⟩

theorem openedResult {start : Nat} {c1 : PagingContext} {w1 : World σ}
    (moved : Moved root (depthOf flags) start c c1 w w1) :
    MapResult source root start bytes flags c w w1 false c1 0 (fun _ => 0) where
  tree := moved.after.tree
  evolves := moved.after.evolves
  filled := moved.opened
  values := by omega
  apart := by omega
  frames f := by simp [moved.after.frames]
  few := Nat.zero_le _
  counted := moved.after.used
  succeeds ok := Bool.noConfusion ok
  rooted := pointsRoot moved.points
  fails _ := Or.inl rfl

theorem acceptsSame {E E' : Nat → Nat → Nat} {huge huge' : Bool} {d n : Nat} (same : E' d n = E d n) (flag : huge' = huge) :
    Accepts huge' E' d n source bytes flags ↔ Accepts huge E d n source bytes flags := by
  subst flag
  unfold Accepts
  rw [same]

theorem acceptsMoved {start : Nat} {c1 : PagingContext} {w1 : World σ} (moved : Moved root (depthOf flags) start c c1 w w1) :
    Accepts w1.hugepagesSupported (entries w1.memory root) (depthOf flags) start source bytes flags ↔
      Accepts w.hugepagesSupported (entries w.memory root) (depthOf flags) start source bytes flags :=
  acceptsSame (moved.opened.beside _ _ (Nat.le_refl _) (by omega)) moved.after.evolves.huge

theorem mapResult {start : Nat} {c1 : PagingContext} {w1 w' : World σ} {r : Bool × PagingContext}
    (moved : Moved root (depthOf flags) start c c1 w w1)
    (outcome : MapOutcome source root (depthOf flags) start bytes flags c1 w1 w' r) :
    (∃ done val, MapResult source root start bytes flags c w w' r.1 r.2 done val ∧
      (Accepts w.hugepagesSupported (entries w.memory root) (depthOf flags) start source bytes flags → r.1 = false →
        start + done = 512^(depthOf flags + 1))) ∧
      Points root (entries w'.memory root) c1 (depthOf flags) start := by
  have same : Accepts w1.hugepagesSupported (entries w1.memory root) (depthOf flags) start source bytes flags ↔
      Accepts w.hugepagesSupported (entries w.memory root) (depthOf flags) start source bytes flags := acceptsMoved moved
  by_cases yes : Accepts w1.hugepagesSupported (entries w1.memory root) (depthOf flags) start source bytes flags
  · obtain ⟨⟨done,val,looped⟩,counted⟩ := outcome.accepted yes
    refine ⟨⟨done,val,⟨looped.tree,evolvesTrans moved.after.evolves looped.evolves,
      filledAfterOpened moved.opened looped.filled,?_,?_,?_,looped.few,by rw [counted,moved.after.used],?_,?_,?_⟩,?_⟩,
      pointsFilled moved.points looped.filled (Nat.le_refl _)⟩
    · intro j hj
      have value := looped.values j hj
      rw [Nat.zero_add] at value
      exact valueWiden moved.after.evolves value (evolvesRefl root w')
    · intro j k less high
      obtain ⟨mid,left,right⟩ := looped.apart j k less high
      rw [Nat.zero_add] at left right
      exact ⟨mid,valueWiden moved.after.evolves left (evolvesRefl root mid),right⟩
    · intro f
      rw [looped.frames,moved.after.frames,List.nil_append]
    · intro ok
      obtain ⟨all,points,below⟩ := looped.goes ok
      refine ⟨all,same.mp yes,by rw [all]; exact points,?_⟩
      exact sameBelowTrans moved.lower below (Nat.le_refl _) (Nat.le_refl _)
    · cases ok : r.1 with
      | true => exact pointsRoot (looped.goes ok).2.1
      | false => exact (looped.stops ok).2.2
    · intro failed
      exact Or.inr ⟨(looped.stops failed).2.1,same.mp yes⟩
    · intro _ failed
      exact (looped.stops failed).2.1
  · obtain ⟨failed,after⟩ := outcome.refused yes
    rw [failed]
    refine ⟨⟨0,fun _ => 0,⟨after.tree,evolvesTrans moved.after.evolves after.evolves,?_,by omega,by omega,?_,
      Nat.zero_le _,after.used.trans moved.after.used,fun ok => Bool.noConfusion ok,pointsRoot moved.points,
      fun _ => Or.inl rfl⟩,fun accepts => absurd (same.mpr accepts) yes⟩,?_⟩
    · rw [after.shows]
      exact moved.opened
    · intro f
      simp [after.frames,moved.after.frames]
    · rw [after.shows]
      exact moved.points

/-! What a result says about the checks and the end of the range. -/

section
variable {start done : Nat} {ok : Bool} {c' : PagingContext} {val : Nat → Nat} {w' : World σ}

theorem resultAccepted (result : MapResult source root start bytes flags c w w' ok c' done val) (some : 0 < done) :
    Accepts w.hugepagesSupported (entries w.memory root) (depthOf flags) start source bytes flags := by
  cases finished : ok with
  | true => exact (result.succeeds finished).2.1
  | false =>
    rcases result.fails finished with none | ⟨_,accepts⟩
    · omega
    · exact accepts

theorem resultFinished (result : MapResult source root start bytes flags c w w' ok c' done val)
    (inside : start + blocks (depthOf flags) bytes < 512^(depthOf flags + 1))
    (last : ok = false → start + done = 512^(depthOf flags + 1)) : ok = true := by
  by_contra failed
  have stop := last (by simpa using failed)
  have few := result.few
  omega

theorem resultNothing (result : MapResult source root start bytes flags c w w' false c' done val)
    (inside : 0 < done → start + blocks (depthOf flags) bytes < 512^(depthOf flags + 1)) : done = 0 := by
  rcases result.fails rfl with none | ⟨last,_⟩
  · exact none
  · by_contra some
    have few := result.few
    have room := inside (by omega)
    omega

theorem resultSlot (result : MapResult source root start bytes flags c w w' ok c' done val) {j k : Nat} (few : j < done)
    (slot : (start+j) / 512^depthOf flags = k) : entries w'.memory root 0 k ≠ 0 := by
  have leaf := valueLeaf (result.values j few)
  rw [← result.filled.value j few] at leaf
  have link := groundedLink (entriesGrounded w'.memory root) leaf.1 0 (depthCases flags).1
  rw [Nat.sub_zero,shapeFanout,slot] at link
  exact (linkIsSome.mp link).1

theorem okOfValue {v a : Nat} (value : v = if ok then a else 0) (success : v ≠ 0) : ok = true := by
  by_contra failed
  rw [if_neg failed] at value
  exact success value

end

def Runway (E : Nat → Nat → Nat) (start bytes flags : Nat) : Prop :=
  ∀ j, 1 ≤ j → j ≤ blocks (depthOf flags) bytes → start+j < 512^(depthOf flags + 1) →
    Passable E (depthOf flags) (start+j)

instance (E : Nat → Nat → Nat) (start bytes flags : Nat) : Decidable (Runway E start bytes flags) :=
  decidable_of_iff (∀ j < blocks (depthOf flags) bytes + 1, 1 ≤ j → start+j < 512^(depthOf flags + 1) →
    Passable E (depthOf flags) (start+j))
    ⟨fun h j low high => h j (Nat.lt_succ_of_le high) low,fun h j less low => h j low (Nat.le_of_lt_succ less)⟩

theorem runwayOpened {E E' : Nat → Nat → Nat} {start : Nat} (runway : Runway E start bytes flags)
    (opened : Opened shape E E' (depthOf flags) start) : Runway E' start bytes flags :=
  fun j low high room => passableOpened opened (by omega) (runway j low high room)

theorem mapFixedRuns {target : Nat} (same : c.level4Table = root) (tree : Tree w root)
    (walkable : Walkable (entries w.memory root) (depthOf flags) target)
    (runway : Accepts w.hugepagesSupported (entries w.memory root) (depthOf flags) (numberAt target (depthOf flags)) source bytes flags →
      target % span (depthOf flags) = 0 → Runway (entries w.memory root) (numberAt target (depthOf flags)) bytes flags) :
    Runs pool short (3 + demand source (depthOf flags) (numberAt target (depthOf flags)) bytes)
      (mapFixed source c target bytes flags) w fun r w' => ∃ ok c' done val,
        MapResult source root (numberAt target (depthOf flags)) bytes flags (nullContext root) w w' ok c' done val ∧
        r = (if ok then target else 0) ∧ (0 < done → target % span (depthOf flags) = 0) ∧
        (Accepts w.hugepagesSupported (entries w.memory root) (depthOf flags) (numberAt target (depthOf flags)) source bytes flags →
          target % span (depthOf flags) = 0 → ok = false → numberAt target (depthOf flags) + done = 512^(depthOf flags + 1)) := by
  have body : mapFixed (σ := σ) source c target bytes flags =
      mapAtAddress (fun index => mapIndex source index bytes flags) c target flags := by
    cases source <;> rfl
  rw [body]
  unfold mapAtAddress
  rw [same]
  refine runsBind (walkRuns tree walkable) ?_
  rintro ⟨found,c1⟩ w1 ⟨aligned,moved⟩
  dsimp only at aligned
  refine runsIf (fun yes => ?_) (fun no => ?_)
  · rw [aligned] at yes
    refine runsBind (d := 0) (mapIndexRuns source moved.after.tree moved.points fun accepts =>
      runwayOpened (runway ((acceptsMoved moved).mp accepts) (of_decide_eq_true yes)) moved.opened) ?_
    rintro ⟨ok,c2⟩ w2 outcome
    obtain ⟨⟨done,val,result,last⟩,_⟩ := mapResult moved outcome
    exact runsPure ⟨ok,c2,done,val,result,rfl,fun _ => of_decide_eq_true yes,fun accepts _ => last accepts⟩
  · refine runsCost (runsPure ⟨false,c1,0,fun _ => 0,openedResult moved,rfl,fun some => by omega,fun _ even => ?_⟩)
      (Nat.zero_le _)
    rw [aligned,decide_eq_true even] at no
    exact absurd rfl no

inductive SpotAt (root : Nat) (E : Nat → Nat → Nat) (c : PagingContext) (bytes flags : Nat) : Nat → Nat → Nat → Prop where
  | stay {start} (choice : spotChoice c bytes flags = .stay) (points : Points root E c (depthOf flags) start) :
      SpotAt root E c bytes flags start 0 0
  | find {e n q steps toll} (choice : spotChoice c bytes flags = .find e) (points : Points root E c e n)
      (search : Search E e n q steps toll) :
      SpotAt root E c bytes flags (q*512^(depthOf flags - e)) steps (toll + (depthOf flags - e))

theorem spotRuns {fuel start steps toll : Nat} (tree : Tree w root)
    (spot : SpotAt root (entries w.memory root) c bytes flags start steps toll) :
    Runs pool (fuel ≤ steps) (depthOf flags) (pagingIndexFindSpot fuel c bytes flags) w fun r w' =>
      r.1 = true ∧ Moved root (depthOf flags) start c r.2 w w' := by
  cases spot with
  | stay choice points =>
    rw [findSpotChoice,choice]
    exact runsCost (runsPure ⟨rfl,afterRefl tree,filledNone _ _ _,points,fun _ _ _ => ⟨rfl,rfl⟩⟩) (Nat.zero_le _)
  | find choice points search =>
    refine runsPost (findSpotRuns tree choice points search) ?_
    rintro r w' ⟨found,moved,_⟩
    exact ⟨found,moved⟩

theorem mapAnywhereSpot (source : Source) (fuel : Nat) (c : PagingContext) (bytes flags : Nat) :
    mapAnywhere (σ := σ) source fuel c bytes flags = mapAtSpot (fun index => mapIndex source index bytes flags) fuel c bytes flags := by
  cases source <;> rfl

theorem mapAnywhereRuns {fuel start steps toll : Nat} (tree : Tree w root)
    (spot : SpotAt root (entries w.memory root) c bytes flags start steps toll)
    (runway : Accepts w.hugepagesSupported (entries w.memory root) (depthOf flags) start source bytes flags →
      Runway (entries w.memory root) start bytes flags) :
    Runs pool (fuel ≤ steps) (depthOf flags + demand source (depthOf flags) start bytes)
      (mapAnywhere source fuel c bytes flags) w fun r w' => ∃ ok c1 done val,
        MapResult source root start bytes flags c w w' ok r.2 done val ∧
        Points root (entries w'.memory root) c1 (depthOf flags) start ∧ SameBelow (depthOf flags) c c1 ∧
        r.1 = (if ok then c1.address else 0) ∧
        (Accepts w.hugepagesSupported (entries w.memory root) (depthOf flags) start source bytes flags → ok = false →
          start + done = 512^(depthOf flags + 1)) := by
  rw [mapAnywhereSpot]
  unfold mapAtSpot
  refine runsBind (spotRuns tree spot) ?_
  rintro ⟨found,c1⟩ w1 ⟨rfl,moved⟩
  refine runsBind (d := 0) (mapIndexRuns source moved.after.tree moved.points fun accepts =>
    runwayOpened (runway ((acceptsMoved moved).mp accepts)) moved.opened) ?_
  rintro ⟨ok,c2⟩ w2 outcome
  obtain ⟨⟨done,val,result,last⟩,points⟩ := mapResult moved outcome
  exact runsPure ⟨ok,c1,done,val,result,points,moved.lower,rfl,last⟩

theorem refusedRuns {fuel : Nat} (choice : spotChoice c bytes flags = .refuse) :
    Runs pool short 0 (mapAnywhere source fuel c bytes flags) w fun r w' => r = (0,c) ∧ w' = w := by
  rw [mapAnywhereSpot]
  unfold mapAtSpot
  rw [findSpotChoice,choice]
  exact runsPure ⟨rfl,rfl⟩

theorem addressOf {E : Nat → Nat → Nat} {d n : Nat} {c : PagingContext} (points : Points root E c d n)
    (lower : ∀ e, d < e → e ≤ 3 → c.index e = 0) : c.address = n * span d := by
  match d, pointsDepth points with
  | 0, _ =>
    have i4 : c.level4Index = n := points.2.1
    have i3 : c.level3Index = 0 := lower 1 (by decide) (by decide)
    have i2 : c.level2Index = 0 := lower 2 (by decide) (by decide)
    have i1 : c.level1Index = 0 := lower 3 (by decide) (by decide)
    rw [addressSum (by omega) (by omega) (by omega),i4,i3,i2,i1]
    simp only [span]
    omega
  | 1, _ =>
    have i4 : c.level4Index = n/512 := points.1.2.1
    have i3 : c.level3Index = n%512 := points.2.2
    have i2 : c.level2Index = 0 := lower 2 (by decide) (by decide)
    have i1 : c.level1Index = 0 := lower 3 (by decide) (by decide)
    rw [addressSum (by omega) (by omega) (by omega),i4,i3,i2,i1]
    simp only [span]
    omega
  | 2, _ =>
    have i4 : c.level4Index = n/512/512 := points.1.1.2.1
    have i3 : c.level3Index = n/512%512 := points.1.2.2
    have i2 : c.level2Index = n%512 := points.2.2
    have i1 : c.level1Index = 0 := lower 3 (by decide) (by decide)
    rw [addressSum (by omega) (by omega) (by omega),i4,i3,i2,i1]
    simp only [span]
    omega
  | 3, _ =>
    have i4 : c.level4Index = n/512/512/512 := points.1.1.1.2.1
    have i3 : c.level3Index = n/512/512%512 := points.1.1.2.2
    have i2 : c.level2Index = n/512%512 := points.1.2.2
    have i1 : c.level1Index = n%512 := points.2.2
    rw [addressSum (by omega) (by omega) (by omega),i4,i3,i2,i1]
    simp only [span]
    omega

end

/-! Numbers of entries and addresses. -/

theorem overPage {v d : Nat} (page : v < 2^36) : numberAt (4096*v) d = v / 512^(3-d) := by
  unfold numberAt pageNumber
  congr 1
  omega

theorem spaceEnd {d n : Nat} (depth : d ≤ 3) (inside : n < 512^(d+1)) : n*512^(3-d) ≤ 2^36 := by
  calc n*512^(3-d) ≤ 512^(d+1)*512^(3-d) := Nat.mul_le_mul_right _ (Nat.le_of_lt inside)
    _ = 2^36 := by rw [← Nat.pow_add,show d+1+(3-d) = 4 by omega]; rfl

theorem overAt {d n : Nat} (depth : d ≤ 3) (inside : n < 512^(d+1)) : numberAt (n * span d) d = n := by
  have page : n*512^(3-d) < 2^36 := by
    have next := spaceEnd depth inside
    have power : 512^(d+1)*512^(3-d) = 2^36 := by
      rw [← Nat.pow_add,show d+1+(3-d) = 4 by omega]; rfl
    exact power ▸ Nat.mul_lt_mul_of_pos_right inside (Nat.pow_pos (by decide))
  have address : n * span d = 4096*(n*512^(3-d)) := by
    unfold span
    rw [Nat.mul_left_comm]
  rw [address,overPage page,Nat.mul_div_cancel _ (Nat.pow_pos (by decide))]

theorem spaceSize {d : Nat} (depth : d ≤ 3) : 512^(d+1) * span d = 2^48 := by
  unfold span
  rw [Nat.mul_left_comm,← Nat.pow_add,show d+1+(3-d) = 4 by omega]; rfl

theorem numberOf {d a : Nat} (low : a < 2^48) : numberAt a d = a / span d := by
  unfold numberAt pageNumber span
  rw [Nat.mod_eq_of_lt (by omega),Nat.div_div_eq_div_mul]

theorem numberTop {d a m : Nat} (depth : d ≤ 3) : numberAt a 0 < m ↔ numberAt a d < m*512^d := by
  rw [← overPath a depth (Nat.zero_le d),Nat.sub_zero]
  exact Nat.div_lt_iff_lt_mul (Nat.pow_pos (by decide))

end Kokos.Paging

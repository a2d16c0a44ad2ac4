import Kokos.PagingRuns

/-! A request for more than 512 GiB at a null cursor. The search only counts level-4
slots there and opens no tables, so the loop goes through null pointers: page 0 serves
as the table of every level, and its entry 1, which the loop has filled with a frame,
becomes the next level-1 table. -/
namespace Kokos.Paging
open ByteMemory BudgetedCalls

section
variable {σ : Type} {w w' w'' : World σ}

def Grows (w w' : World σ) : Prop := (∀ a ∈ w.accesses, a ∈ w'.accesses) ∧ ∀ f ∈ w.frames, f ∈ w'.frames

theorem growsTrans (first : Grows w w') (second : Grows w' w'') : Grows w w'' :=
  ⟨fun a h => second.1 a (first.1 a h),fun f h => second.2 f (first.2 f h)⟩

def FrameTouched (w : World σ) : Prop := ∃ f ∈ w.frames, (f,8) ∈ w.accesses

theorem touchedGrows (touched : FrameTouched w) (grows : Grows w w') : FrameTouched w' := by
  obtain ⟨f,member,access⟩ := touched
  exact ⟨f,grows.2 f member,grows.1 _ access⟩

def pastNull (root k : Nat) : PagingContext := { nullContext root with level1Index := k }

def World.withPage (w : World σ) (address entryFlags page : Nat) (allocator : σ) : World σ :=
  { w with
    memory := writeWord w.memory address ((page &&& addressMask) ||| entryFlags)
    accesses := (address,8) :: w.accesses
    frames := page :: w.frames
    allocator := allocator }

def SecondEntry (w : World σ) : Prop :=
  readWord w.memory 8 &&& addressMask ∈ w.frames ∧ readWord w.memory 8 &&& addressMask ≠ 0

theorem entryPage {page entryFlags : Nat} (isPage : IsPage page) (small : entryFlags < 4096) :
    ((page &&& addressMask) ||| entryFlags) &&& addressMask = page ∧ (page &&& addressMask) ||| entryFlags < 2^64 := by
  obtain ⟨aligned,_,bound⟩ := isPage
  rw [entryBits small,masked]
  omega

theorem secondKept {entryFlags k page : Nat} {w : World σ} (small : entryFlags < 4096) (isPage : IsPage page) (some : 1 ≤ k)
    (second : 2 ≤ k → SecondEntry w) (allocator : σ) : SecondEntry (w.withPage (0+8*k) entryFlags page allocator) := by
  obtain ⟨address,bound⟩ := entryPage isPage small
  unfold SecondEntry World.withPage
  by_cases one : k = 1
  · subst one
    rw [readWriteSame w.memory _ bound,address]
    exact ⟨List.mem_cons_self,Nat.pos_iff_ne_zero.mp isPage.2.1⟩
  · have before := second (by omega)
    rw [readWriteOther w.memory _ (by omega)]
    exact ⟨List.mem_cons_of_mem _ before.1,before.2⟩

variable [PageAllocator σ] {short : Prop}

abbrev Growing {α : Type} (cost : Nat) (x : Kernel σ α) : Prop :=
  ∀ w : World σ, Runs pool False cost x w fun _ w' => Grows w w'

theorem growingPure {α : Type} (a : α) : Growing (σ := σ) 0 (pure a) :=
  fun _ => runsPure ⟨fun _ h => h,fun _ h => h⟩

theorem growingBind {α β : Type} {x : Kernel σ α} {f : α → Kernel σ β} {c d : Nat} (first : Growing c x)
    (next : ∀ a, Growing d (f a)) : Growing (c+d) (x >>= f) :=
  fun w => runsBind (first w) fun a w' grown => runsPost (next a w') fun _ _ more => growsTrans grown more

theorem growingCost {α : Type} {x : Kernel σ α} {c d : Nat} (run : Growing c x) (le : c ≤ d) : Growing d x :=
  fun w => runsCost (run w) le

theorem growingLoad (table index : Nat) : Growing (σ := σ) 0 (load table index) :=
  fun _ => ⟨⟨fun _ h => List.mem_cons_of_mem _ h,fun _ h => h⟩,Nat.le_refl _⟩

theorem growingStore (table index value : Nat) : Growing (σ := σ) 0 (store table index value) :=
  fun _ => ⟨⟨fun _ h => List.mem_cons_of_mem _ h,fun _ h => h⟩,Nat.le_refl _⟩

theorem growingZero (address size : Nat) : Growing (σ := σ) 0 (memoryZero address size) :=
  fun _ => ⟨⟨fun _ h => List.mem_cons_of_mem _ h,fun _ h => h⟩,Nat.le_refl _⟩

theorem growingRecordTable (table : Nat) : Growing (σ := σ) 0 (recordTable table) :=
  fun _ => ⟨⟨fun _ h => h,fun _ h => h⟩,Nat.le_refl _⟩

theorem growingRecordFrame (frame : Nat) : Growing (σ := σ) 0 (recordFrame frame) :=
  fun _ => ⟨⟨fun _ h => h,fun _ h => List.mem_cons_of_mem _ h⟩,Nat.le_refl _⟩

theorem drawRuns (w : World σ) : Runs pool short 1 memoryPhysicalAllocate w fun page w' =>
    IsPage page ∧ ∃ allocator, w' = { w with allocator := allocator } := by
  unfold Runs memoryPhysicalAllocate
  cases drawn : PageAllocator.allocate w.allocator with
  | none =>
    have empty := PageAllocator.empty drawn
    dsimp only
    unfold pool
    omega
  | some pair => exact ⟨⟨PageAllocator.isPage drawn,pair.2,rfl⟩,PageAllocator.spends drawn⟩

theorem growingDraw : Growing (σ := σ) 1 memoryPhysicalAllocate := by
  intro w
  refine runsPost (drawRuns w) ?_
  rintro page w' ⟨_,allocator,rfl⟩
  exact ⟨fun _ h => h,fun _ h => h⟩

theorem growingEnter {mode : Mode} (creates : mode ≠ .unmap) (parent index : Nat) :
    Growing (σ := σ) 1 (enter mode parent index) := by
  unfold enter enterTable newTable
  rw [if_neg creates]
  refine growingBind (c := 1) (d := 0) (growingBind (c := 0) (d := 1) (growingLoad _ _) fun entry => ?_) fun _ => growingPure _
  intro w
  refine runsIf (fun _ => ?_) (fun _ => runsCost (growingPure _ w) (Nat.zero_le _))
  exact growingBind (c := 1) (d := 0) growingDraw (fun table => growingBind (c := 0) (d := 0) (growingRecordTable _) fun _ =>
    growingBind (c := 0) (d := 0) (growingZero _ _) fun _ => growingBind (c := 0) (d := 0) (growingStore _ _ _) fun _ =>
      growingPure _) w

theorem growingNext (d : Nat) (c : PagingContext) : Growing (σ := σ) d (next .map d c) := by
  induction d generalizing c with
  | zero =>
    unfold next
    intro w
    exact runsIf (fun _ => growingPure _ w) (fun _ => runsIf (fun _ => growingPure _ w) (fun _ => growingPure _ w))
  | succ d ih =>
    unfold next
    intro w
    refine runsIf (fun _ => runsCost (growingPure _ w) (Nat.zero_le _)) (fun _ => ?_)
    refine growingBind (c := d) (d := 1) (ih _) ?_ w
    rintro ⟨ok,c⟩ w
    refine runsIf (fun _ => ?_) (fun _ => runsCost (growingPure _ w) (Nat.zero_le _))
    refine growingBind (c := 1) (d := 0) (growingEnter (by decide) _ _) ?_ w
    intro entered
    cases entered with
    | none => exact growingPure _
    | some table => exact growingPure _

theorem growingLoop (entryFlags pages i : Nat) (c : PagingContext) :
    Growing (σ := σ) (4*pages) (mapLoop (putAllocated entryFlags) (next .map 3) pages i c) := by
  induction pages generalizing i c with
  | zero => exact growingPure _
  | succ pages ih =>
    have put : Growing (σ := σ) 1 (putAllocated entryFlags i c) :=
      growingBind (c := 1) (d := 0) growingDraw fun page =>
        growingBind (c := 0) (d := 0) (growingStore _ _ _) fun _ => growingRecordFrame _
    refine growingCost (growingBind put fun _ => growingBind (growingNext 3 c) (d := 4*pages) ?_) (by omega)
    rintro ⟨ok,c⟩ w
    exact runsIf (fun _ => ih _ _ w) (fun _ => runsCost (growingPure _ w) (Nat.zero_le _))

theorem putRuns (entryFlags i : Nat) (c : PagingContext) (w : World σ) :
    Runs pool short 1 (putAllocated entryFlags i c) w fun _ w' => ∃ page allocator, IsPage page ∧
      w' = w.withPage (c.level1Table+8*c.level1Index) entryFlags page allocator := by
  refine runsBind (c := 1) (d := 0) (drawRuns w) ?_
  rintro page w' ⟨isPage,allocator,rfl⟩
  exact ⟨⟨page,allocator,isPage,rfl⟩,Nat.le_refl _⟩

theorem enterSecond {w : World σ} (second : SecondEntry w) : enter .map 0 1 w =
    .ok (some (readWord w.memory 8 &&& addressMask),{ w with accesses := (8,8) :: w.accesses }) := by
  have entered : enterTable 0 1 w = .ok (readWord w.memory 8 &&& addressMask,{ w with accesses := (8,8) :: w.accesses }) := by
    change (if readWord w.memory 8 &&& addressMask = 0 then newTable 0 1 else pure (readWord w.memory 8 &&& addressMask))
      { w with accesses := (8,8) :: w.accesses } = _
    rw [if_neg second.2]
    rfl
  unfold enter
  rw [if_neg (by decide)]
  simp only [bind,StateT.bind,entered,Except.bind]
  rfl

/-- The carry after 512 pages takes that frame for its level-1 table. -/
theorem nextSecond (root : Nat) {w : World σ} (second : SecondEntry w) : next .map 3 (pastNull root 511) w =
    .ok ((true,{ nullContext root with level2Index := 1, level1Table := readWord w.memory 8 &&& addressMask }),
      { w with accesses := (8,8) :: w.accesses }) := by
  have up : next (σ := σ) .map 2 ((pastNull root 511).setIndex 3 512) =
      pure (true,{ (pastNull root 512) with level2Index := 1 }) := rfl
  change (next .map 2 ((pastNull root 511).setIndex 3 512) >>= _) w = _
  rw [up,pure_bind]
  change (enter .map 0 1 >>= _) w = _
  simp only [bind,StateT.bind,enterSecond second,Except.bind]
  rfl

theorem touchRuns (entryFlags n i root : Nat) {w : World σ} (second : SecondEntry w) :
    Runs pool False (4*(n+1)) (next .map 3 (pastNull root 511) >>= fun r =>
      if r.1 then mapLoop (putAllocated entryFlags) (next .map 3) (n+1) i r.2 else pure (false,r.2)) w
      fun _ w' => FrameTouched w' := by
  have carried : Runs pool False 0 (next .map 3 (pastNull root 511)) w fun r w' => r.1 = true ∧ r.2.level1Index = 0 ∧
      r.2.level1Table ∈ w'.frames := by
    unfold Runs
    rw [nextSecond root second]
    exact ⟨⟨rfl,rfl,second.1⟩,Nat.le_refl _⟩
  refine runsFree carried ?_
  rintro ⟨ok,c⟩ w1 ⟨rfl,index,table⟩
  dsimp only at index table ⊢
  rw [if_pos rfl]
  unfold mapLoop
  refine runsCost (runsBind (putRuns entryFlags i c w1) (d := 3+4*n) ?_) (by omega)
  rintro _ w2 ⟨page,allocator,_,rfl⟩
  have touched : FrameTouched (w1.withPage (c.level1Table+8*c.level1Index) entryFlags page allocator) :=
    ⟨c.level1Table,List.mem_cons_of_mem _ table,by rw [index]; exact List.mem_cons_self⟩
  refine runsPost (growingBind (growingNext 3 c) (d := 4*n) ?_ _) fun _ _ grows => touchedGrows touched grows
  rintro ⟨ok,c⟩ w
  exact runsIf (fun _ => growingLoop _ _ _ _ w) (fun _ => runsCost (growingPure _ w) (Nat.zero_le _))

theorem nullLoopRuns {entryFlags : Nat} (small : entryFlags < 4096) (root n : Nat) {j k : Nat} (places : k+j = 511)
    (i : Nat) {w : World σ} (second : 2 ≤ k → SecondEntry w) :
    Runs pool False (4*(j+(n+2))) (mapLoop (putAllocated entryFlags) (next .map 3) (j+(n+2)) i (pastNull root k)) w
      fun _ w' => FrameTouched w' := by
  induction j generalizing k i w with
  | zero =>
    obtain rfl : k = 511 := by omega
    rw [show 0+(n+2) = n+1+1 by omega,mapLoop]
    refine runsCost (runsBind (putRuns entryFlags i (pastNull root 511) w) (d := 4*(n+1)) ?_) (by omega)
    rintro _ w1 ⟨page,allocator,isPage,rfl⟩
    exact touchRuns entryFlags n (i+1) root (secondKept small isPage (by decide) second allocator)
  | succ j ih =>
    rw [show j+1+(n+2) = j+(n+2)+1 by omega,mapLoop]
    refine runsCost (runsBind (putRuns entryFlags i (pastNull root k) w) (d := 4*(j+(n+2))) ?_) (by omega)
    rintro _ w1 ⟨page,allocator,isPage,rfl⟩
    have step : next (σ := σ) .map 3 (pastNull root k) = pure (true,pastNull root (k+1)) := by
      rw [next]
      exact if_pos (show k+1 < 512 by omega)
    rw [step,pure_bind]
    exact ih (by omega) (i+1) fun two => secondKept small isPage (by omega) second allocator

theorem nullReads {w : World σ} (zero : readWord w.memory 0 = 0) :
    Runs pool False 0 (load 0 0) w fun entry w' => entry = 0 ∧ readWord w'.memory 0 = 0 :=
  ⟨⟨zero,zero⟩,Nat.le_refl _⟩

theorem nullPagesRuns {entryFlags pages : Nat} (small : entryFlags < 4096) (root : Nat) (many : 513 ≤ pages) (w : World σ) :
    Runs pool False (4*pages) (countedLoop (putAllocated entryFlags) (next .map 3) pages 1 (nullContext root)) w
      fun _ w' => FrameTouched w' := by
  have looped := nullLoopRuns small root (pages-513) (Nat.zero_add 511) 0 (w := w) (fun two => absurd two (by decide))
  rw [show 511+(pages-513+2) = pages by omega] at looped
  refine runsCost (runsBind looped (d := 0) ?_) (Nat.le_refl _)
  rintro ⟨ok,c⟩ w' touched
  exact runsIf (fun _ => ⟨touched,Nat.le_refl _⟩) (fun _ => runsPure touched)

theorem nullIndexRuns {root bytes flags pages : Nat} {w : World σ} (some : bytes ≠ 0) (count : units bytes 12 = pages)
    (many : 513 ≤ pages) (plain : has flags flag1GB = false ∧ has flags flag2MB = false) (zero : readWord w.memory 0 = 0) :
    Runs pool False (4*pages) (pagingMapIndexCurrent (nullContext root) bytes flags) w fun _ w' => FrameTouched w' := by
  obtain ⟨short1,short2,_⟩ := flagsShort flags
  unfold pagingMapIndexCurrent
  simp only [short1,short2,plain.1,plain.2,count]
  rw [if_neg some]
  refine runsFree (nullReads zero) ?_
  rintro _ w1 ⟨rfl,zero⟩
  rw [if_neg (by decide)]
  refine runsFree (nullReads zero) ?_
  rintro _ w2 ⟨rfl,zero⟩
  rw [if_neg (by decide)]
  refine runsFree (nullReads zero) ?_
  rintro _ w3 ⟨rfl,_⟩
  rw [if_neg (by decide)]
  exact nullPagesRuns (Nat.lt_trans (convertBits _).1 (by decide)) root many w3

theorem nullCallRuns {fuel root bytes flags pages : Nat} {w : World σ} (some : bytes ≠ 0)
    (count : units bytes 12 = pages) (many : 513 ≤ pages) (granted : spotChoice (nullContext root) bytes flags = .stay)
    (plain : has flags flag1GB = false ∧ has flags flag2MB = false) (zero : readWord w.memory 0 = 0) :
    Runs pool False (4*pages) (pagingMap fuel (nullContext root) bytes flags) w fun _ w' => FrameTouched w' := by
  unfold pagingMap mapAtSpot
  rw [findSpotChoice,granted]
  dsimp only
  rw [pure_bind]
  dsimp only
  rw [if_pos rfl]
  refine runsBind (d := 0) (nullIndexRuns some count many plain zero) ?_
  rintro ⟨ok,c⟩ w' touched
  exact runsPure touched

end
end Kokos.Paging

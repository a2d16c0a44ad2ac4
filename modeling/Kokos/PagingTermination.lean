import Kokos.PagingIsolation
import Kokos.PagingSpots

/-! Whether a mapping call returns. Its search for a spot goes round the entries of one
level until it comes to an empty one; nothing else in the call can go on for ever. -/
namespace Kokos.Paging
open BudgetedCalls RadixTables

/-! The parts of a mapping call that hold no search. -/

section
variable {σ : Type}

theorem finishesLoad (table index : Nat) : Finishes (load (σ := σ) table index) := finishesOk fun _ => ⟨_,rfl⟩

theorem finishesStore (table index value : Nat) : Finishes (store (σ := σ) table index value) := finishesOk fun _ => ⟨_,rfl⟩

section
variable {put : Nat → PagingContext → Kernel σ Unit} {step : PagingContext → Kernel σ (Bool × PagingContext)}

theorem finishesMapLoop (puts : ∀ i c, Finishes (put i c)) (steps : ∀ c, Finishes (step c)) (pages i : Nat) (c : PagingContext) :
    Finishes (mapLoop put step pages i c) := by
  induction pages generalizing i c with
  | zero => exact finishesPure _
  | succ pages ih =>
    refine finishesBind (puts i c) fun _ => finishesBind (steps c) ?_
    rintro ⟨ok,c1⟩
    exact finishesIf (fun _ => ih _ _) fun _ => finishesPure _

theorem finishesCounted (puts : ∀ i c, Finishes (put i c)) (steps : ∀ c, Finishes (step c)) (pages weight : Nat) (c : PagingContext) :
    Finishes (countedLoop put step pages weight c) := by
  refine finishesBind (finishesMapLoop puts steps pages 0 c) ?_
  rintro ⟨ok,c1⟩
  exact finishesIf (fun _ => finishesBind (finishesOk fun _ => ⟨_,rfl⟩) fun _ => finishesPure _) fun _ => finishesPure _

end

variable [PageAllocator σ]

theorem finishesAllocate : Finishes (memoryPhysicalAllocate (σ := σ)) := by
  intro w spins
  unfold memoryPhysicalAllocate at spins
  split at spins
  · cases spins
  · cases spins

theorem finishesNewTable (parent index : Nat) : Finishes (newTable (σ := σ) parent index) := by
  refine finishesBind finishesAllocate fun table => finishesBind (finishesOk fun _ => ⟨_,rfl⟩) fun _ => ?_
  refine finishesBind (finishesOk fun _ => ⟨_,rfl⟩) fun _ => finishesBind (finishesStore _ _ _) fun _ => finishesPure table

theorem finishesEnterTable (parent index : Nat) : Finishes (enterTable (σ := σ) parent index) :=
  finishesBind (finishesLoad _ _) fun _ => finishesIf (fun _ => finishesNewTable _ _) fun _ => finishesPure _

theorem finishesEnter (mode : Mode) (parent index : Nat) : Finishes (enter (σ := σ) mode parent index) :=
  finishesIf (fun _ => finishesBind (finishesLoad _ _) fun _ => finishesPure _)
    fun _ => finishesBind (finishesEnterTable _ _) fun _ => finishesPure _

theorem finishesNext (mode : Mode) (d : Nat) (c : PagingContext) : Finishes (next (σ := σ) mode d c) := by
  induction d generalizing c with
  | zero => exact finishesIf (fun _ => finishesPure _) fun _ => finishesIf (fun _ => finishesPure _) fun _ => finishesPure _
  | succ d ih =>
    refine finishesIf (fun _ => finishesPure _) fun _ => finishesBind (ih _) ?_
    rintro ⟨ok,c1⟩
    refine finishesIf (fun _ => finishesBind (finishesEnter _ _ _) fun entered => ?_) fun _ => finishesPure _
    cases entered with
    | none => exact finishesPure _
    | some table => exact finishesPure _

theorem finishesNextUnmasked (c : PagingContext) : Finishes (nextUnmasked (σ := σ) c) := by
  refine finishesIf (fun _ => finishesPure _) fun _ => finishesIf (fun _ => ?_) fun _ => finishesPure _
  refine finishesBind (finishesLoad _ _) fun entry => ?_
  exact finishesIf (fun _ => finishesBind (finishesNewTable _ _) fun _ => finishesPure _)
    fun _ => finishesBind (finishesPure entry) fun _ => finishesPure _

theorem finishesPutAllocated (entryFlags i : Nat) (c : PagingContext) : Finishes (putAllocated (σ := σ) entryFlags i c) :=
  finishesBind finishesAllocate fun _ => finishesBind (finishesStore _ _ _) fun _ => finishesOk fun _ => ⟨_,rfl⟩

theorem finishesMapPhysical (address : Nat) (c : PagingContext) (bytes flags : Nat) :
    Finishes (pagingMapIndexPhysical (σ := σ) address c bytes flags) := by
  refine finishesIf (fun _ => finishesPure _) fun _ => finishesBind (finishesLoad _ _) fun entry3 => ?_
  refine finishesIf (fun _ => ?_) fun _ => finishesBind (finishesLoad _ _) fun entry2 => finishesIf (fun _ => ?_) fun _ => ?_
  · refine finishesBind (finishesOk fun _ => ⟨_,rfl⟩) fun huge => finishesIf (fun _ => finishesPure _) fun _ => ?_
    refine finishesIf (fun _ => finishesPure _) fun _ => finishesBind (finishesLoad _ _) fun entry => ?_
    exact finishesIf (fun _ => finishesPure _) fun _ => finishesCounted (fun _ _ => finishesStore _ _ _) finishesNextUnmasked _ _ _
  · refine finishesIf (fun _ => finishesPure _) fun _ => finishesBind (finishesLoad _ _) fun entry => ?_
    exact finishesIf (fun _ => finishesPure _) fun _ => finishesCounted (fun _ _ => finishesStore _ _ _) (finishesNext .map 2) _ _ _
  · refine finishesBind (finishesLoad _ _) fun entry => finishesIf (fun _ => finishesPure _) fun _ => ?_
    exact finishesIf (fun _ => finishesPure _) fun _ => finishesCounted (fun _ _ => finishesStore _ _ _) (finishesNext .map 3) _ _ _

theorem finishesMapCurrent (c : PagingContext) (bytes flags : Nat) : Finishes (pagingMapIndexCurrent (σ := σ) c bytes flags) := by
  refine finishesIf (fun _ => finishesPure _) fun _ => finishesBind (finishesLoad _ _) fun entry3 => ?_
  refine finishesIf (fun _ => ?_) fun _ => finishesBind (finishesLoad _ _) fun entry2 => finishesIf (fun _ => ?_) fun _ => ?_
  · refine finishesBind (finishesOk fun _ => ⟨_,rfl⟩) fun huge => finishesIf (fun _ => finishesPure _) fun _ => ?_
    exact finishesBind (finishesLoad _ _) fun _ => finishesPure _
  · exact finishesBind (finishesLoad _ _) fun _ => finishesPure _
  · refine finishesBind (finishesLoad _ _) fun entry => finishesIf (fun _ => finishesPure _) fun _ => ?_
    exact finishesCounted (finishesPutAllocated _) (finishesNext .map 3) _ _ _

theorem finishesMap (source : Source) (c : PagingContext) (bytes flags : Nat) : Finishes (mapIndex (σ := σ) source c bytes flags) := by
  cases source with
  | physical address => exact finishesMapPhysical address c bytes flags
  | allocated => exact finishesMapCurrent c bytes flags

theorem finishesMapping {map : PagingContext → Kernel σ (Bool × PagingContext)} {fuel bytes flags : Nat} {c : PagingContext} {w : World σ}
    (maps : ∀ c, Finishes (map c)) (found : pagingIndexFindSpot fuel c bytes flags w ≠ .error .spinning) :
    mapAtSpot map fuel c bytes flags w ≠ .error .spinning := by
  refine bindFinishes ?_ found
  rintro ⟨found,c1⟩
  refine finishesIf (fun _ => finishesBind (maps c1) ?_) fun _ => finishesPure _
  rintro ⟨ok,c2⟩
  exact finishesPure _

end

/-! The search. -/

section
variable {E : Nat → Nat → Nat} {e n q : Nat}

theorem followingBound (inside : n < 512^(e+1)) : following e n < 512^(e+1) := by
  unfold following
  split
  · assumption
  · exact Nat.zero_lt_of_lt inside

theorem followingRound (inside : n < 512^(e+1)) (k : Nat) : (following e)^[k] n = (n+k) % 512^(e+1) := by
  induction k with
  | zero => exact (Nat.mod_eq_of_lt inside).symm
  | succ k ih =>
    have bound := Nat.mod_lt (n+k) (Nat.zero_lt_of_lt inside)
    rw [Function.iterate_succ_apply',ih,← Nat.add_assoc,Nat.add_mod (n+k) 1]
    unfold following
    by_cases last : (n+k) % 512^(e+1) + 1 < 512^(e+1)
    · rw [if_pos last,Nat.mod_eq_of_lt (a := 1) (by omega),Nat.mod_eq_of_lt last]
    · rw [if_neg last,Nat.mod_eq_of_lt (a := 1) (Nat.one_lt_pow (by omega) (by decide)),
        show (n+k) % 512^(e+1) + 1 = 512^(e+1) by omega,Nat.mod_self]

theorem followingReaches (inside : n < 512^(e+1)) (last : q < 512^(e+1)) : ∃ k, (following e)^[k] n = q := by
  refine ⟨q + (512^(e+1) - n),?_⟩
  rw [followingRound inside,show n + (q + (512^(e+1) - n)) = q + 512^(e+1) by omega,Nat.add_mod_right,Nat.mod_eq_of_lt last]

def RoundClear (E : Nat → Nat → Nat) (e n : Nat) : Prop :=
  ∀ j, (∀ i ≤ j, E e ((following e)^[i] n) ≠ 0) → Clear shape E e ((following e)^[j+1] n)

theorem roundFirst (round : RoundClear E e n) (full : E e n ≠ 0) : Clear shape E e (following e n) := by
  refine round 0 fun i le => ?_
  rw [Nat.le_zero.mp le]
  exact full

theorem roundNext (round : RoundClear E e n) (full : E e n ≠ 0) : RoundClear E e (following e n) := by
  intro j before
  refine round (j+1) fun i le => ?_
  cases i with
  | zero => exact full
  | succ i => exact before i (Nat.le_of_succ_le_succ le)

theorem searchRing {k : Nat} (round : RoundClear E e n) (empty : E e ((following e)^[k] n) = 0) :
    ∃ first steps toll, Search E e n first steps toll := by
  induction k generalizing n with
  | zero => exact ⟨n,0,0,.here empty⟩
  | succ k ih =>
    by_cases here : E e n = 0
    · exact ⟨n,0,0,.here here⟩
    · exact searchStep (roundFirst round here) (ih (roundNext round here) empty)

variable {σ : Type} [PageAllocator σ] {root : Nat} {w : World σ} {c : PagingContext}

theorem findEmptySpins (fuel : Nat) (tree : Tree w root) (points : Points root (entries w.memory root) c e n)
    (full : ∀ r < 512^(e+1), entries w.memory root e r ≠ 0) (round : RoundClear (entries w.memory root) e n) :
    findEmpty e fuel c w = .error .spinning := by
  induction fuel generalizing w c n with
  | zero => rfl
  | succ fuel ih =>
    have bound := pointsBound points
    have ahead := followingBound bound
    have next := roundFirst round (full n bound)
    have round := roundNext round (full n bound)
    obtain ⟨v,w1,reads,⟨value,after⟩,_⟩ := runsReturns (@loadPoints _ _ _ _ _ _ False _ tree points) id (Nat.zero_le _)
    have shows := after.shows
    rw [← shows] at points full round next
    obtain ⟨⟨ok,c1⟩,w2,goes,⟨rfl,moved⟩,_⟩ := runsReturns (@followingRuns _ _ _ _ _ _ _ False 0 after.tree points next
      fun zero => absurd zero (full _ ahead)) id (Nat.zero_le _)
    have nonzero : v ≠ 0 := by
      rw [value,← shows]
      exact full n bound
    unfold findEmpty
    rw [bindGoes reads,if_neg nonzero,bindGoes goes]
    have level : ∀ r, entries w2.memory root e r = entries w1.memory root e r :=
      fun r => moved.opened.beside e r (Nat.le_refl _) (by omega)
    refine ih moved.after.tree moved.points (fun r less => ?_) fun j before => filledClear moved.opened (round j fun i le => ?_)
    · rw [level]
      exact full r less
    · rw [← level]
      exact before i le

end

/-! What the search of a call meets. -/

def SearchGuided (root : Nat) (E : Nat → Nat → Nat) (c : PagingContext) (bytes flags : Nat) : Prop :=
  ∀ e, spotChoice c bytes flags = .find e → Points root E c e (c.number e) ∧ RoundClear E e (c.number e)

def HasEmpty (E : Nat → Nat → Nat) (c : PagingContext) (bytes flags : Nat) : Prop :=
  ∀ e, spotChoice c bytes flags = .find e → ∃ q < 512^(e+1), E e q = 0

def NoRoom (E : Nat → Nat → Nat) (c : PagingContext) (bytes flags : Nat) : Prop :=
  spotChoice c bytes flags ≠ .stay ∧ ∀ e, spotChoice c bytes flags = .find e → ∀ q < 512^(e+1), E e q ≠ 0

section
variable {σ : Type} [PageAllocator σ] {root fuel bytes flags : Nat} {start s : Machine σ} {source : Source}

theorem performStops {stop : Stop} : perform fuel s (.map source bytes flags) = .error stop ↔
    mapAnywhere source fuel s.context bytes flags s.world = .error stop := by
  simp only [perform]
  cases mapAnywhere source fuel s.context bytes flags s.world with
  | error e => exact ⟨fun same => congrArg Except.error (Except.error.inj same),fun same => congrArg Except.error (Except.error.inj same)⟩
  | ok r =>
    constructor
    · intro same
      cases same
    · intro same
      cases same

theorem performSpins {e : Nat} (sane : Sane root s) (guided : SearchGuided root (s.entries root) s.context bytes flags)
    (choice : spotChoice s.context bytes flags = .find e) (full : ∀ q < 512^(e+1), s.entries root e q ≠ 0) (fuel : Nat) :
    perform fuel s (.map source bytes flags) = .error .spinning := by
  obtain ⟨points,round⟩ := guided e choice
  have search := findEmptySpins fuel sane.tree points full round
  have spot : pagingIndexFindSpot fuel s.context bytes flags s.world = .error .spinning := by
    rw [findSpotChoice,choice]
    exact bindStops search
  rw [performStops,mapAnywhereSpot]
  exact bindStops spot

theorem spotFinishes (sane : Sane root s) (guided : SearchGuided root (s.entries root) s.context bytes flags)
    (empty : HasEmpty (s.entries root) s.context bytes flags) :
    ∃ least, ∀ fuel, least ≤ fuel → pagingIndexFindSpot fuel s.context bytes flags s.world ≠ .error .spinning := by
  cases choice : spotChoice s.context bytes flags with
  | refuse =>
    refine ⟨0,fun fuel _ => ?_⟩
    rw [findSpotChoice,choice]
    exact finishesPure _ _
  | stay =>
    refine ⟨0,fun fuel _ => ?_⟩
    rw [findSpotChoice,choice]
    exact finishesPure _ _
  | find e =>
    obtain ⟨points,round⟩ := guided e choice
    obtain ⟨q,last,zero⟩ := empty e choice
    obtain ⟨k,rfl⟩ := followingReaches (pointsBound points) last
    obtain ⟨first,steps,toll,search⟩ := searchRing round zero
    refine ⟨steps+1,fun fuel long spins => ?_⟩
    have runs : Runs pool (fuel ≤ steps) (depthOf flags) (pagingIndexFindSpot fuel s.context bytes flags) s.world _ :=
      findSpotRuns sane.tree choice points search
    unfold Runs at runs
    rw [spins] at runs
    exact absurd runs (by omega)

theorem mapReturnsIff (sane : Sane root start) (run : Reached fuel (Orderly root) start s)
    (guided : SearchGuided root (s.entries root) s.context bytes flags)
    (supply : ∀ fuel, perform fuel s (.map source bytes flags) ≠ .error .exhausted) :
    (∃ least, ∀ fuel, least ≤ fuel → ∃ v s', perform fuel s (.map source bytes flags) = .ok (v,s') ∧
      (NoRoom (s.entries root) s.context bytes flags → v = 0)) ↔ HasEmpty (s.entries root) s.context bytes flags := by
  have now := reachedSane (fun _ _ h => h) sane run
  constructor
  · rintro ⟨least,returns⟩ e choice
    by_contra none
    have full : ∀ q < 512^(e+1), s.entries root e q ≠ 0 := fun q less zero => none ⟨q,less,zero⟩
    obtain ⟨v,s',call,_⟩ := returns least (Nat.le_refl _)
    rw [performSpins now guided choice full] at call
    cases call
  · intro empty
    obtain ⟨least,found⟩ := spotFinishes now guided empty
    refine ⟨least,fun fuel long => ?_⟩
    have finished := finishesMapping (fun c => finishesMap source c bytes flags) (found fuel long)
    rw [← mapAnywhereSpot] at finished
    have supplied := supply fuel
    rw [ne_eq,performStops] at supplied
    cases call : mapAnywhere source fuel s.context bytes flags s.world with
    | error stop =>
      cases stop with
      | exhausted => exact absurd call supplied
      | spinning => exact absurd call finished
    | ok r =>
      refine ⟨r.1.1,⟨r.2,r.1.2⟩,by simp only [perform,call]; rfl,?_⟩
      rintro ⟨moves,full⟩
      cases choice : spotChoice s.context bytes flags with
      | refuse => exact congrArg Prod.fst (returned (refusedRuns choice) call).1
      | stay => exact absurd choice moves
      | find e =>
        obtain ⟨q,less,zero⟩ := empty e choice
        exact absurd zero (full e choice q less)

end

theorem slotsGuided {root bytes flags : Nat} (E : Nat → Nat → Nat) (some : bytes ≠ 0) (bound : bytes ≤ 2^39) :
    SearchGuided root E (nullContext root) bytes flags := by
  intro e choice
  rw [spotNull some bound] at choice
  cases choice
  exact ⟨⟨rfl,rfl,show 0 < 512 by decide⟩,fun _ _ d deeper => absurd deeper (Nat.not_lt_zero d)⟩

theorem mapReturnsSecond : ∃ s, Reached 512 (Orderly 0x1000) (blank false) s ∧ s.entries 0x1000 0 0 ≠ 0 ∧
    ∃ least, ∀ fuel, least ≤ fuel → ∃ v s', perform fuel s (.map (.physical 0x200000) 0x200000 0b100010) = .ok (v,s') ∧
      (NoRoom (s.entries 0x1000) s.context 0x200000 0b100010 → v = 0) := by
  obtain ⟨s,first,null,used,free,runway,enough⟩ := onePage
  have here : Reached 512 (Orderly 0x1000) (blank false) s := .step .start blankOrderly first
  have sane := reachedSane (fun _ _ h => h) (blankSane false) here
  have starts : StartsAt 0x1000 s (.map (.physical 0x200000) 0x200000 0b100010) (1*512^2) :=
    secondSlot _ null used free (by decide) (by decide)
  obtain ⟨steps,toll,spot⟩ := starts
  have supply : ∀ fuel, perform fuel s (.map (.physical 0x200000) 0x200000 0b100010) ≠ .error .exhausted := fun fuel stops =>
    runsSupplied (@mapAnywhereRuns _ _ _ _ _ (.physical 0x200000) _ _ fuel _ _ _ sane.tree spot fun _ => runway) enough
      (performStops.mp stops)
  have choice : spotChoice s.context 0x200000 0b100010 = .find 0 := by
    rw [null]
    rfl
  have guided : SearchGuided 0x1000 (s.entries 0x1000) s.context 0x200000 0b100010 := by
    rw [null]
    exact slotsGuided _ (by decide) (by decide)
  refine ⟨s,here,used,(mapReturnsIff (blankSane false) here guided supply).mpr fun e found => ?_⟩
  cases choice.symm.trans found
  exact ⟨1,by decide,free⟩

theorem slotsUsed {σ : Type} [PageAllocator σ] {root bytes flags k : Nat} {source : Source} {w w' : World σ} {c c' : PagingContext}
    {val : Nat → Nat} (result : MapResult source root (numberAt 0 (depthOf flags)) bytes flags c w w' true c' (blocks (depthOf flags) bytes) val)
    (many : 511*512^depthOf flags < blocks (depthOf flags) bytes) (less : k < 512) : entries w'.memory root 0 k ≠ 0 := by
  have few : k*512^depthOf flags < blocks (depthOf flags) bytes :=
    Nat.lt_of_le_of_lt (Nat.mul_le_mul_right _ (Nat.le_of_lt_succ less)) many
  have start : numberAt 0 (depthOf flags) = 0 := Nat.zero_div _
  refine resultSlot result few ?_
  rw [start,Nat.zero_add,Nat.mul_div_cancel _ (Nat.pow_pos (by decide))]

/-- Every entry but the last of level 2, each of them a 2 MiB page: all level-4 slots are
in use, and a call for one more page at the null cursor never returns. -/
theorem fullTreeSpins : ∃ s : Machine PhysicalMemory.Bitmap, Reached 1 (fun _ _ => True) large s ∧
    (∀ k < 512, s.entries 0x1000 0 k ≠ 0) ∧
    ∀ fuel, perform fuel s (.map (.physical 0x50000) 4096 2) = .error .spinning := by
  have orderly : Orderly 0x1000 large (.mapAt (.physical 0) 0 (2^48-2^21) 0b100010) := emptyOrderly _ blankZero fun three => absurd three (by decide)
  have cost : 3 + demand (.physical 0) (depthOf 0b100010) (numberAt 0 (depthOf 0b100010)) (2^48-2^21) ≤ 2^20 := by decide
  have free := wordsAvailable largeState
  obtain ⟨v,w,call⟩ := fixedReturns 1 largeSane orderly (Nat.le_trans cost (by rw [poolAvailable]; omega))
  have accepts : Accepts large.world.hugepagesSupported (large.entries 0x1000) (depthOf 0b100010) (numberAt 0 (depthOf 0b100010))
      (.physical 0) (2^48-2^21) 0b100010 :=
    ⟨by decide,fun one => absurd one (by decide),by decide,Or.inl (blankZero _ _)⟩
  have inside : numberAt 0 (depthOf 0b100010) + blocks (depthOf 0b100010) (2^48-2^21) < 512^(depthOf 0b100010 + 1) := by decide
  have many : 511*512^depthOf 0b100010 < blocks (depthOf 0b100010) (2^48-2^21) := by decide
  obtain ⟨_,c',val,result⟩ := mapAtAccepted largeSane orderly (by decide) inside accepts call
  have full : ∀ k < 512, entries w.memory 0x1000 0 k ≠ 0 := fun k less => slotsUsed result many less
  have sane := effectSane largeSane (performed largeSane orderly call)
  refine ⟨_,.step .start trivial call,full,fun fuel => ?_⟩
  exact performSpins sane (slotsGuided _ (by decide) (by decide)) (spotNull (by decide) (by decide) _ _) full fuel

end Kokos.Paging

import Kokos.LockedCalls
import Kokos.PhysicalSearches

/-! The functions of memory_physical.c as several CPUs run them, one access to the table or
to a counter at a time. `|=`, `&=`, `++` and `--` are a load and a store. -/
namespace Kokos.PhysicalCpus
open PhysicalMemory WordBits LockedSections

inductive Call where
  | reserve (address bytes : Nat)
  | free (address : Nat)
  | allocate
  | allocateConsecutive (pages : Nat)
  deriving DecidableEq, Repr

/-- What a call has to return when it leaves the section. `cursor` is what
allocate_consecutive stores to `allocation_index` after lock_release. -/
inductive Result where
  | reserved
  | freed (outcome : FreeOutcome)
  | page (address : Nat)
  | block (address cursor : Nat)
  deriving DecidableEq, Repr

inductive Position where
  | reserveTest (index left : Nat)
  | reserveBit (index left : Nat)
  | reserveLoad (index left : Nat)
  | reserveStore (index left : Nat) (word : BitVec 64)
  | reserveUsed (index left : Nat)
  | reserveCount (index left used : Nat)
  | freeTest (address : Nat)
  | freeBit (address : Nat)
  | freeLoad (address : Nat)
  | freeStore (address : Nat) (word : BitVec 64)
  | freeUsed
  | freeCount (used : Nat)
  | allocateStart
  | allocateWord (spot : Nat)
  | allocateNext (spot : Nat)
  | allocateBits (spot : Nat)
  | allocateLoad (spot bit : Nat)
  | allocateStore (spot bit : Nat) (word : BitVec 64)
  | allocateCursor (spot bit : Nat)
  | allocateUsed (spot bit : Nat)
  | allocateCount (spot bit used : Nat)
  | consecutiveStart (chunkCount : Nat)
  | consecutiveWord (chunkCount spot consecutive : Nat)
  | consecutiveNext (chunkCount spot consecutive : Nat)
  | consecutiveFill (chunkCount spot i : Nat)
  | done (result : Result)
  deriving DecidableEq

def byteOf (index : Nat) : Nat := (index >>> 6) % 2^32

def reserveHead (index : Nat) : Nat → Position
  | 0 => .done .reserved
  | left+1 => .reserveTest index left

def fillHead (chunkCount spot i : Nat) : Position :=
  if i < chunkCount then .consecutiveFill chunkCount spot i
  else .done (.block (((spot <<< 6) <<< 12) % 2^64) (spot + chunkCount))

def enter : Call → Position
  | .reserve address bytes => reserveHead (reserveStart address) (reserveCount address bytes)
  | .free address => .freeTest address
  | .allocate => .allocateStart
  | .allocateConsecutive pages => .consecutiveStart (pages >>> 6)

def access : Position → State → Option (Position × State)
  | .reserveTest index left, s =>
    some (if s.allocationTableLength ≤ index then .done .reserved else .reserveBit index left,s)
  | .reserveBit index left, s =>
    some (if s.allocationTable (byteOf index) &&& intMask (index % 64) = 0 then .reserveLoad index left
      else reserveHead (index+1) left,s)
  | .reserveLoad index left, s => some (.reserveStore index left (s.allocationTable (byteOf index) ||| intMask (index % 64)),s)
  | .reserveStore index left word, s =>
    some (.reserveUsed index left,{ s with allocationTable := setWord s.allocationTable (byteOf index) word })
  | .reserveUsed index left, s => some (.reserveCount index left s.usedPhysicalPages,s)
  | .reserveCount index left used, s => some (reserveHead (index+1) left,{ s with usedPhysicalPages := (used + 1) % 2^64 })
  | .freeTest address, s =>
    some (if s.allocationTableLength ≤ byteOf (address >>> 12) then .done (.freed .invalidAddress) else .freeBit address,s)
  | .freeBit address, s =>
    some (if s.allocationTable (byteOf (address >>> 12)) &&& intMask ((address >>> 12) % 64) ≠ 0 then .freeLoad address
      else .done (.freed .alreadyFreed),s)
  | .freeLoad address, s =>
    some (.freeStore address (s.allocationTable (byteOf (address >>> 12)) &&& intMaskNot ((address >>> 12) % 64)),s)
  | .freeStore address word, s =>
    some (.freeUsed,{ s with allocationTable := setWord s.allocationTable (byteOf (address >>> 12)) word })
  | .freeUsed, s => some (.freeCount s.usedPhysicalPages,s)
  | .freeCount used, s => some (.done (.freed .cleared),{ s with usedPhysicalPages := (used + (2^64 - 1)) % 2^64 })
  | .allocateStart, s => some (.allocateWord s.allocationIndex,s)
  | .allocateWord spot, s =>
    some (if s.allocationTable spot = BitVec.allOnes 64 then .allocateNext spot else .allocateBits spot,s)
  | .allocateNext spot, s => some (.allocateWord (if s.allocationTableLength ≤ spot+1 then 0 else spot+1),s)
  | .allocateBits spot, s =>
    let bit := scanOnes 64 (s.allocationTable spot) 0
    some (if 64 ≤ bit then .done (.page 0) else .allocateLoad spot bit,s)
  | .allocateLoad spot bit, s => some (.allocateStore spot bit (s.allocationTable spot ||| intMask bit),s)
  | .allocateStore spot bit word, s =>
    some (.allocateCursor spot bit,{ s with allocationTable := setWord s.allocationTable spot word })
  | .allocateCursor spot bit, s => some (.allocateUsed spot bit,{ s with allocationIndex := spot })
  | .allocateUsed spot bit, s => some (.allocateCount spot bit s.usedPhysicalPages,s)
  | .allocateCount spot bit used, s =>
    some (.done (.page ((((spot <<< 6) + bit) <<< 12) % 2^64)),{ s with usedPhysicalPages := (used + 1) % 2^64 })
  | .consecutiveStart chunkCount, s => some (.consecutiveWord chunkCount s.allocationIndex 0,s)
  | .consecutiveWord chunkCount spot consecutive, s =>
    let row := if s.allocationTable spot = 0 then (consecutive+1) % 2^32 else 0
    some (if s.allocationTable spot = 0 ∧ chunkCount ≤ row then
        fillHead chunkCount ((spot + 2^64 - (row + 2^32 - 1) % 2^32) % 2^64) 0
      else .consecutiveNext chunkCount spot row,s)
  | .consecutiveNext chunkCount spot consecutive, s =>
    some (if s.allocationTableLength ≤ spot+1 then .consecutiveWord chunkCount 0 0
      else .consecutiveWord chunkCount (spot+1) consecutive,s)
  | .consecutiveFill chunkCount spot i, s =>
    some (fillHead chunkCount spot ((i+1) % 2^32),{ s with
      allocationTable := setWord s.allocationTable (spot+i) (BitVec.allOnes 64) })
  | .done _, _ => none

def result : Position → Option Result
  | .done r => some r
  | _ => none

def storeCursor (cursor : Nat) (s : State) : State := { s with allocationIndex := cursor }

/-- allocate_consecutive writes `allocation_index` when it no longer has the lock. -/
def after : Call → Result → Option (State → State)
  | _, .block _ cursor => some (storeCursor cursor)
  | _, _ => none

def sections : Sections State Call Position Result := ⟨enter,access,result,after⟩

def Sequential : Call → State → Result → State → Prop
  | .reserve address bytes, s, r, s' => r = .reserved ∧ s' = memoryPhysicalReserve s address bytes
  | .free address, s, r, s' => r = .freed (memoryPhysicalFree s address).1 ∧ s' = (memoryPhysicalFree s address).2
  | .allocate, s, r, s' => ∃ address, r = .page address ∧ memoryPhysicalAllocate s = some (address,s')
  | .allocateConsecutive pages, s, r, s' => ∃ fuel address t, memoryPhysicalAllocateConsecutive fuel s pages = some (address,t) ∧
      r = .block address t.allocationIndex ∧ s' = storeCursor s.allocationIndex t

/-! Each function alone, from its entry to its end. -/

variable {s s' : State} {r : Result}

theorem aloneReserve {index left : Nat} (alone : Alone sections (reserveHead index left) s r s') :
    r = .reserved ∧ s' = reserveLoop left index s := by
  induction left generalizing index s with
  | zero => exact aloneDone alone rfl rfl
  | succ left ih =>
    have tested := aloneStep alone rfl rfl
    rw [reserveLoop]
    split at tested
    · rename_i beyond
      rw [if_pos beyond]
      exact aloneDone tested rfl rfl
    · rename_i inside
      rw [if_neg inside,reservePage]
      have read := aloneStep tested rfl rfl
      change Alone sections (if s.allocationTable (byteOf index) &&& intMask (index % 64) = 0 then _ else _) s r s' at read
      unfold byteOf at read
      split at read
      · rename_i clear
        rw [if_pos clear]
        have counted := aloneStep (aloneStep (aloneStep (aloneStep read rfl rfl) rfl rfl) rfl rfl) rfl rfl
        exact ih counted
      · rename_i marked
        rw [if_neg marked]
        exact ih read

theorem aloneFree {address : Nat} (alone : Alone sections (.freeTest address) s r s') :
    r = .freed (memoryPhysicalFree s address).1 ∧ s' = (memoryPhysicalFree s address).2 := by
  have tested := aloneStep alone rfl rfl
  rw [memoryPhysicalFree]
  unfold byteOf at tested
  split at tested
  · rename_i beyond
    rw [if_pos beyond]
    exact aloneDone tested rfl rfl
  · rename_i inside
    rw [if_neg inside]
    have read := aloneStep tested rfl rfl
    unfold byteOf at read
    split at read
    · rename_i marked
      rw [if_pos marked]
      have stored := aloneStep (aloneStep (aloneStep (aloneStep read rfl rfl) rfl rfl) rfl rfl) rfl rfl
      exact aloneDone stored rfl rfl
    · rename_i clear
      rw [if_neg clear]
      exact aloneDone read rfl rfl

theorem aloneSearch {p : Position} (alone : Alone sections p s r s') :
    (∀ spot, p = .allocateWord spot → ∃ fuel word, findWord s.allocationTable s.allocationTableLength fuel spot = some word ∧
      Alone sections (.allocateBits word) s r s') ∧
    ∀ spot, p = .allocateNext spot → ∃ fuel word,
      findWord s.allocationTable s.allocationTableLength fuel (if s.allocationTableLength ≤ spot+1 then 0 else spot+1) = some word ∧
      Alone sections (.allocateBits word) s r s' := by
  induction alone with
  | done result =>
    constructor <;> rintro spot rfl <;> cases result
  | step accessed rest ih =>
    constructor
    · rintro spot rfl
      obtain ⟨rfl,rfl⟩ := Prod.mk.inj (Option.some.inj accessed)
      split at ih
      · rename_i full
        obtain ⟨fuel,word,found,onward⟩ := ih.2 spot rfl
        refine ⟨fuel+1,word,?_,onward⟩
        rw [findWord,if_pos full]
        exact found
      · rename_i free
        rw [if_neg free] at rest
        refine ⟨1,spot,?_,rest⟩
        rw [findWord,if_neg free]
    · rintro spot rfl
      obtain ⟨rfl,rfl⟩ := Prod.mk.inj (Option.some.inj accessed)
      exact ih.1 _ rfl

theorem findWordMore {table : Nat → BitVec 64} {length fuel spot word : Nat} (found : findWord table length fuel spot = some word)
    (more : Nat) : findWord table length (fuel+more) spot = some word := by
  induction fuel generalizing spot with
  | zero => cases found
  | succ fuel ih =>
    rw [Nat.succ_add]
    unfold findWord at found ⊢
    split at found
    · rename_i full
      rw [if_pos full]
      exact ih found
    · rename_i free
      rwa [if_neg free]

theorem findWordInside {table : Nat → BitVec 64} {length fuel spot word enough : Nat} (inside : spot < length)
    (found : findWord table length fuel spot = some word) (round : length ≤ enough) :
    findWord table length enough spot = some word := by
  have place : word < length := by
    rcases findWordPlace (by omega) found with less | same
    · exact less
    · omega
  obtain ⟨k,_,_,_,ends⟩ := findWordFirst table length spot word inside place (findWordFree found)
  have same := (ends (fuel+enough) (by omega)).symm.trans (findWordMore found enough)
  exact (ends enough round).trans same

theorem findWordRound {table : Nat → BitVec 64} {length fuel spot word : Nat} (some_ : 0 < length)
    (found : findWord table length fuel spot = some word) : findWord table length (length+1) spot = some word := by
  by_cases inside : spot < length
  · exact findWordInside inside found (Nat.le_succ _)
  · cases fuel with
    | zero => cases found
    | succ fuel =>
      unfold findWord at found ⊢
      split at found
      · rename_i full
        rw [if_pos (by omega)] at found
        rw [if_pos full,if_pos (by omega)]
        exact findWordInside some_ found (Nat.le_refl _)
      · rename_i free
        rwa [if_neg free]

theorem aloneAllocate (some_ : 0 < s.allocationTableLength) (alone : Alone sections .allocateStart s r s') :
    ∃ address, r = .page address ∧ memoryPhysicalAllocate s = some (address,s') := by
  obtain ⟨fuel,word,found,marking⟩ := (aloneSearch (aloneStep alone rfl rfl)).1 _ rfl
  have found := findWordRound some_ found
  obtain ⟨inside,_,_⟩ := scanOnesZero _ (findWordFree found)
  have scanned := aloneStep marking rfl rfl
  rw [if_neg (by omega)] at scanned
  have counted := aloneStep (aloneStep (aloneStep (aloneStep (aloneStep scanned rfl rfl) rfl rfl) rfl rfl) rfl rfl) rfl rfl
  obtain ⟨rfl,rfl⟩ := aloneDone counted rfl rfl
  refine ⟨_,rfl,Option.bind_eq_some_iff.mpr ⟨word,found,?_⟩⟩
  dsimp only
  rw [if_neg (by omega)]

theorem aloneRun {p : Position} (alone : Alone sections p s r s') :
    (∀ chunks spot row, p = .consecutiveWord chunks spot row → ∃ fuel word,
      findEmptyWords s.allocationTable s.allocationTableLength chunks fuel spot row = some word ∧
      Alone sections (fillHead chunks word 0) s r s') ∧
    ∀ chunks spot row, p = .consecutiveNext chunks spot row → ∃ fuel word,
      (if s.allocationTableLength ≤ spot+1 then findEmptyWords s.allocationTable s.allocationTableLength chunks fuel 0 0
        else findEmptyWords s.allocationTable s.allocationTableLength chunks fuel (spot+1) row) = some word ∧
      Alone sections (fillHead chunks word 0) s r s' := by
  induction alone with
  | done result =>
    constructor <;> rintro chunks spot row rfl <;> cases result
  | @step _ m _ _ _ _ accessed rest ih =>
    constructor
    · rintro chunks spot row rfl
      obtain ⟨rfl,rfl⟩ := Prod.mk.inj (Option.some.inj accessed)
      by_cases ends : m.allocationTable spot = 0 ∧
          chunks ≤ if m.allocationTable spot = 0 then (row+1) % 2^32 else 0
      · rw [if_pos ends] at rest
        refine ⟨1,_,?_,rest⟩
        rw [findEmptyWords]
        exact if_pos ends
      · rw [if_neg ends] at ih
        obtain ⟨fuel,word,found,fills⟩ := ih.2 _ _ _ rfl
        refine ⟨fuel+1,word,?_,fills⟩
        rw [findEmptyWords]
        exact (if_neg ends).trans found
    · rintro chunks spot row rfl
      obtain ⟨rfl,rfl⟩ := Prod.mk.inj (Option.some.inj accessed)
      by_cases past : m.allocationTableLength ≤ spot+1
      · simp only [if_pos past] at ih ⊢
        exact ih.1 _ _ _ rfl
      · simp only [if_neg past] at ih ⊢
        exact ih.1 _ _ _ rfl

theorem setFilled {table table' : Nat → BitVec 64} {spot i : Nat}
    (filled : ∀ w, table' w = if spot ≤ w ∧ w < spot+i then BitVec.allOnes 64 else table w) (w : Nat) :
    setWord table' (spot+i) (BitVec.allOnes 64) w = if spot ≤ w ∧ w < spot+(i+1) then BitVec.allOnes 64 else table w := by
  by_cases here : w = spot+i
  · subst here
    rw [setWordSame,if_pos (by omega)]
  · rw [setWordOther _ _ here,filled]
    simp only [show (spot ≤ w ∧ w < spot+i) ↔ spot ≤ w ∧ w < spot+(i+1) by omega]

theorem aloneFill {table : Nat → BitVec 64} {chunks spot k i : Nat} (narrow : chunks < 2^32) (left : i+k = chunks)
    (filled : ∀ w, s.allocationTable w = if spot ≤ w ∧ w < spot+i then BitVec.allOnes 64 else table w)
    (alone : Alone sections (fillHead chunks spot i) s r s') :
    r = .block (((spot <<< 6) <<< 12) % 2^64) (spot + chunks) ∧
    s' = { s with allocationTable := fun w => if spot ≤ w ∧ w < spot+chunks then BitVec.allOnes 64 else table w } := by
  induction k generalizing i s with
  | zero =>
    rw [fillHead,if_neg (by omega)] at alone
    have whole : s.allocationTable = fun w => if spot ≤ w ∧ w < spot+chunks then BitVec.allOnes 64 else table w := by
      funext w
      rw [filled w,show i = chunks by omega]
    obtain ⟨ends,same⟩ := aloneDone alone rfl rfl
    exact ⟨ends,by rw [← whole,same]⟩
  | succ k ih =>
    rw [fillHead,if_pos (by omega)] at alone
    have stored := aloneStep alone rfl rfl
    rw [Nat.mod_eq_of_lt (by omega)] at stored
    obtain ⟨ends,made⟩ := ih (show i+1+k = chunks by omega) (setFilled filled) stored
    exact ⟨ends,made⟩

theorem aloneConsecutive {pages : Nat} (alone : Alone sections (.consecutiveStart (pages >>> 6)) s r s') :
    ∃ fuel address t, memoryPhysicalAllocateConsecutive fuel s pages = some (address,t) ∧
      r = .block address t.allocationIndex ∧ s' = storeCursor s.allocationIndex t := by
  obtain ⟨fuel,word,found,fills⟩ := (aloneRun (aloneStep alone rfl rfl)).1 _ _ _ rfl
  have narrow := findEmptyNarrow found
  have nothing : ∀ w, s.allocationTable w = if word ≤ w ∧ w < word+0 then BitVec.allOnes 64 else s.allocationTable w := by
    intro w
    rw [if_neg (by omega)]
  obtain ⟨rfl,rfl⟩ := aloneFill narrow (Nat.zero_add _) nothing fills
  exact ⟨fuel,_,_,Option.bind_eq_some_iff.mpr ⟨word,found,rfl⟩,rfl,rfl⟩

/-! The four functions under the lock. -/

theorem sequentialLength {k : Call} (runs : Sequential k s r s') : s'.allocationTableLength = s.allocationTableLength := by
  cases k with
  | reserve address bytes =>
    obtain ⟨_,rfl⟩ := runs
    exact (reserveFields s address bytes).1
  | free address =>
    obtain ⟨_,rfl⟩ := runs
    exact (freeFields s address).1
  | allocate =>
    obtain ⟨_,_,call⟩ := runs
    exact allocateLength call
  | allocateConsecutive pages =>
    obtain ⟨_,_,_,call,_,rfl⟩ := runs
    obtain ⟨_,_,made⟩ := Option.bind_eq_some_iff.mp call
    obtain ⟨_,rfl⟩ := Prod.mk.inj (Option.some.inj made)
    rfl

def HasWords (s : State) : Prop := 0 < s.allocationTableLength

theorem aloneSequential {k : Call} (alone : Alone sections (sections.enter k) s r s') (words : HasWords s) : Sequential k s r s' := by
  cases k with
  | reserve address bytes => exact aloneReserve alone
  | free address => exact aloneFree alone
  | allocate => exact aloneAllocate words alone
  | allocateConsecutive pages => exact aloneConsecutive alone

def ReadsCursor : Position → Prop
  | .allocateStart | .consecutiveStart _ => True
  | _ => False

theorem readsFirst {p p' : Position} (access : sections.access p s = some (p',s')) : ¬ ReadsCursor p' := by
  have head : ∀ index left, ¬ ReadsCursor (reserveHead index left) := by
    intro index left
    cases left <;> exact id
  have fill : ∀ chunks spot i, ¬ ReadsCursor (fillHead chunks spot i) := by
    intro chunks spot i
    unfold fillHead
    split <;> exact id
  cases p <;> simp only [sections,Kokos.PhysicalCpus.access,Option.some.injEq,Prod.mk.injEq,reduceCtorEq] at access
  all_goals obtain ⟨rfl,_⟩ := access
  case reserveTest | freeTest | freeBit | allocateWord | allocateBits | consecutiveNext => split <;> exact id
  case reserveBit =>
    split
    · exact id
    · exact head _ _
  case consecutiveWord chunks spot row _ =>
    by_cases ends : s.allocationTable spot = 0 ∧ chunks ≤ if s.allocationTable spot = 0 then (row+1) % 2^32 else 0
    · rw [if_pos ends]
      exact fill _ _ _
    · rw [if_neg ends]
      exact id
  case reserveCount => exact head _ _
  case consecutiveFill => exact fill _ _ _
  all_goals exact id

theorem cursorLate {k : Call} {write : State → State} (late : sections.after k r = some write) (p : Position) :
    ReadsCursor p ∨ (∀ m, sections.access p (write m) = (sections.access p m).map (Prod.map id write)) ∨
      ∀ m, sections.access p (write m) = sections.access p m := by
  cases r with
  | block address cursor =>
    cases Option.some.inj late
    cases p
    case allocateStart | consecutiveStart => exact Or.inl trivial
    case allocateCursor => exact Or.inr (Or.inr fun _ => rfl)
    all_goals exact Or.inr (Or.inl fun _ => rfl)
  | reserved | freed | page => cases late

theorem sectionsCorrect : Correct sections (fun k m r m' => HasWords m → Sequential k m r m' ∧ HasWords m') ReadsCursor where
  alone := fun alone words => by
    have runs := aloneSequential alone words
    have length := sequentialLength runs
    exact ⟨runs,Nat.lt_of_lt_of_eq words length.symm⟩
  onward := readsFirst
  late := fun late => cursorLate late _
  last := by
    rintro k r k' r' before after first second m
    cases r <;> cases first
    cases r' <;> cases second
    rfl

theorem serialSequential {ι : Type} {first m : State} (words : HasWords first) {h : List (ι × Call × Result)}
    (serial : Serial sections (fun k m r m' => HasWords m → Sequential k m r m' ∧ HasWords m') first h m) :
    Serial sections Sequential first h m := by
  refine (serialKeeps (I := HasWords) words ?_ serial).1
  intro k r write late m words
  cases r <;> cases late
  exact words

theorem cpusSerial {ι : Type} [DecidableEq ι] {first : State} (words : 0 < first.allocationTableLength)
    {es : List (ι × LockedCalls.Action Call)} {s : LockedCalls.Cpus ι State Call Position Result}
    (run : (LockedCalls.system sections first).Run es s) :
    ∃ m, Serial sections Sequential first s.finished m ∧ (s.lock.word = 0 → s.memory = m) := by
  obtain ⟨m,serial,free⟩ := LockedCalls.callsSerial (meansOfCorrect sectionsCorrect) run
  exact ⟨m,serialSequential words serial,free⟩

def twoAllocate : List (Fin 2 × LockedCalls.Action Call) :=
  [(0,.call .allocate),(1,.call .allocate),(0,.lockAccess),(1,.lockAccess),(0,.access),(0,.access),(0,.access),(0,.access),
    (1,.lockAccess),(0,.access),(0,.access),(0,.access),(0,.access),(0,.release),(0,.lockAccess),(1,.lockAccess),(1,.lockAccess),
    (1,.access),(1,.access),(1,.access),(1,.access),(1,.access),(1,.access),(1,.access),(1,.access),(1,.release),(1,.lockAccess)]

theorem cpusSerialTwo : ∃ es s, (LockedCalls.system sections (memoryPhysicalInitialize (fun _ => 0) 0 (2^18))).Run es s ∧
    s.finished = [((1 : Fin 2),.allocate,.page 4096),(0,.allocate,.page 0)] ∧
    ∃ m, Serial sections Sequential (memoryPhysicalInitialize (fun _ => 0) 0 (2^18)) s.finished m := by
  have ends : (TransitionRuns.follow (LockedCalls.next sections) (LockedCalls.started (memoryPhysicalInitialize (fun _ => 0) 0 (2^18)))
      twoAllocate).any (fun s => decide (s.finished = [((1 : Fin 2),.allocate,.page 4096),(0,.allocate,.page 0)])) = true := by decide
  obtain ⟨s,_,run,finished⟩ := TransitionRuns.followEnds
    (S := LockedCalls.system sections (memoryPhysicalInitialize (fun _ => 0) 0 (2^18))) (fun _ _ _ move => move) (.start rfl) ends
  obtain ⟨m,serial,_⟩ := cpusSerial (by decide) run
  exact ⟨_,s,run,of_decide_eq_true finished,m,serial⟩

end Kokos.PhysicalCpus

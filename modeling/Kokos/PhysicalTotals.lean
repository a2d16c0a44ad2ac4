import Kokos.PhysicalRuns
import Kokos.TransitionRuns

/-! How many pages the bitmap hands out in all, and how many it counts as used. -/
namespace Kokos.PhysicalMemory
open WordBits TransitionRuns

def allocateMany : Nat → State → Option (List Nat × State)
  | 0, s => some ([],s)
  | count+1, s => do
    let (address,s) ← memoryPhysicalAllocate s
    let (rest,s) ← allocateMany count s
    some (address::rest,s)

def HandsOutEveryPage (contents : Nat → BitVec 64) (used n : Nat) : Prop :=
  ∃ pages s, allocateMany (64*n) (memoryPhysicalInitialize contents used (64*n*4096)) = some (pages,s) ∧
    pages.Perm ((List.range (64*n)).map (· * 4096))

theorem allocateManySplit {k m : Nat} {s s' : State} {pages : List Nat} (all : allocateMany (k+m) s = some (pages,s')) :
    ∃ first mid rest, allocateMany k s = some (first,mid) ∧ allocateMany m mid = some (rest,s') := by
  induction k generalizing s pages with
  | zero => exact ⟨[],s,pages,rfl,by rwa [Nat.zero_add] at all⟩
  | succ k ih =>
    rw [Nat.succ_add] at all
    obtain ⟨⟨address,s1⟩,call,tail⟩ := Option.bind_eq_some_iff.mp all
    obtain ⟨⟨later,s2⟩,run,last⟩ := Option.bind_eq_some_iff.mp tail
    obtain ⟨rfl,rfl⟩ := Prod.mk.inj (Option.some.inj last)
    obtain ⟨first,mid,rest,before,after⟩ := ih run
    exact ⟨address::first,mid,rest,by simp only [allocateMany,call,before,bind,Option.bind],after⟩

theorem fullTable {s : State} (sound : Sound s) (none : (clearBelow s (64*s.allocationTableLength)).card = 0) :
    ∀ w < s.allocationTableLength, s.allocationTable w = BitVec.allOnes 64 := by
  intro w hw
  have set : ∀ b < 32, low s w b = true := by
    intro b hb
    by_contra clear
    have member : w*64+b ∈ clearBelow s (64*s.allocationTableLength) := by
      simp only [clearBelow,Finset.mem_filter,Finset.mem_range]
      refine ⟨by omega,by omega,?_⟩
      rw [show (w*64+b)/64 = w by omega,show (w*64+b)%64 = b by omega]
      simpa using clear
    rw [Finset.card_eq_zero.mp none] at member
    exact absurd member (Finset.notMem_empty _)
  apply allOnesOfBits
  intro i hi
  by_cases lower : i < 32
  · exact set i lower
  · rw [sound.upper w hw i (by omega) hi]
    exact set 31 (by decide)

theorem findWordFull {table : Nat → BitVec 64} {length spot : Nat} (inside : spot < length)
    (full : ∀ w < length, table w = BitVec.allOnes 64) (fuel : Nat) : findWord table length fuel spot = none := by
  induction fuel generalizing spot with
  | zero => rfl
  | succ fuel ih =>
    simp only [findWord,full spot inside,if_true]
    exact ih (by split <;> omega)

theorem clearInitially (contents : Nat → BitVec 64) (used n : Nat) :
    (clearBelow (memoryPhysicalInitialize contents used (64*n*4096))
      (64*(memoryPhysicalInitialize contents used (64*n*4096)).allocationTableLength)).card = 32*n := by
  have length : 64*n*4096/4096/64 = n := by omega
  rw [show (memoryPhysicalInitialize contents used (64*n*4096)).allocationTableLength = n from length]
  have lower : clearBelow (memoryPhysicalInitialize contents used (64*n*4096)) (64*n) =
      (Finset.range (32*n)).image fun j => j/32*64 + j%32 := by
    ext q
    simp only [clearBelow,Finset.mem_filter,Finset.mem_range,Finset.mem_image]
    constructor
    · rintro ⟨hq,half,_⟩
      exact ⟨q/64*32+q%64,by omega,by omega⟩
    · rintro ⟨j,hj,rfl⟩
      refine ⟨by omega,by omega,?_⟩
      simp only [low,memoryPhysicalInitialize,length]
      rw [if_pos (by omega)]
      simp
  rw [lower,Finset.card_image_of_injOn,Finset.card_range]
  intro j _ k _ same
  dsimp only at same
  omega

theorem allocateManyReturns {k : Nat} {s : State} (sound : Sound s)
    (enough : k ≤ (clearBelow s (64*s.allocationTableLength)).card) :
    ∃ pages s', allocateMany k s = some (pages,s') ∧ Sound s' ∧ s'.allocationTableLength = s.allocationTableLength ∧
      (clearBelow s' (64*s.allocationTableLength)).card + k = (clearBelow s (64*s.allocationTableLength)).card := by
  induction k generalizing s with
  | zero => exact ⟨[],s,rfl,sound,rfl,rfl⟩
  | succ k ih =>
    have room : ∃ w < s.allocationTableLength, s.allocationTable w ≠ BitVec.allOnes 64 := by
      by_contra full
      push Not at full
      have none : clearBelow s (64*s.allocationTableLength) = ∅ := by
        refine Finset.filter_eq_empty_iff.mpr fun q member clear => ?_
        have inside := Finset.mem_range.mp member
        have word : low s (q/64) (q%64) = true := by
          unfold low
          rw [full (q/64) (by omega),BitVec.getLsbD_allOnes]
          exact decide_eq_true (Nat.mod_lt _ (by decide))
        rw [clear.2] at word
        contradiction
      rw [none,Finset.card_empty] at enough
      omega
    obtain ⟨address,s1,call,⟨done⟩⟩ := allocateReturns sound room
    have word := done.wordInside
    have bit := done.bitInside
    have fewer := allocateClears done (64*s.allocationTableLength) (by omega)
    have length := done.length
    obtain ⟨pages,s',run,sound',length',left⟩ := ih done.sound (by rw [length]; omega)
    rw [length] at left length'
    exact ⟨address::pages,s',by simp only [allocateMany,call,run,bind,Option.bind],sound',length',by omega⟩

theorem handsOutHalf (contents : Nat → BitVec 64) (used : Nat) {n : Nat} (some : 1 ≤ n) (fits : 64*n*4096 < 2^64) :
    (∃ pages s, allocateMany (32*n) (memoryPhysicalInitialize contents used (64*n*4096)) = .some (pages,s) ∧
      ∀ fuel, findWord s.allocationTable s.allocationTableLength fuel s.allocationIndex = none) ∧
    ¬ HandsOutEveryPage contents used n := by
  have length : 64*n*4096/4096/64 = n := by omega
  have sound := initializeSound contents used (64*n*4096) (by omega) (by omega)
  have clear := clearInitially contents used n
  obtain ⟨pages,s,run,sound',length',left⟩ := allocateManyReturns sound (Nat.le_of_eq clear.symm)
  have empty : (clearBelow s (64*s.allocationTableLength)).card = 0 := by
    rw [clear,← length'] at left
    omega
  have stuck : ∀ fuel, findWord s.allocationTable s.allocationTableLength fuel s.allocationIndex = none :=
    findWordFull sound'.inside (fullTable sound' empty)
  refine ⟨⟨pages,s,run,stuck⟩,?_⟩
  rintro ⟨all,s2,call,_⟩
  have parts : allocateMany (32*n + (32*(n-1)+31+1)) (memoryPhysicalInitialize contents used (64*n*4096)) = .some (all,s2) := by
    rwa [show 32*n + (32*(n-1)+31+1) = 64*n by omega]
  obtain ⟨first,mid,rest,before,after⟩ := allocateManySplit parts
  rw [run] at before
  cases before
  obtain ⟨_,next,_⟩ := Option.bind_eq_some_iff.mp after
  simp only [memoryPhysicalAllocate,stuck,bind,Option.bind] at next
  cases next

theorem handsOutHalfOneWord : ∃ pages s, allocateMany 32 (memoryPhysicalInitialize (fun _ => 0) 0 (2^18)) = some (pages,s) ∧
    memoryPhysicalAllocate s = none := by
  obtain ⟨⟨pages,s,run,stuck⟩,_⟩ := handsOutHalf (fun _ => 0) 0 (Nat.le_refl 1) (by decide)
  refine ⟨pages,s,run,?_⟩
  simp only [memoryPhysicalAllocate,stuck,bind,Option.bind]

theorem handsOutNotAll : ¬ HandsOutEveryPage (fun _ => 0) 0 1 := by
  rintro ⟨pages,s,call,_⟩
  have none : allocateMany (64*1) (memoryPhysicalInitialize (fun _ => 0) 0 (64*1*4096)) = none := by
    have stops : (allocateMany (64*1) (memoryPhysicalInitialize (fun _ => 0) 0 (64*1*4096))).isNone = true := by decide +kernel
    exact Option.isNone_iff_eq_none.mp stops
  rw [none] at call
  cases call

/-! The counter of used pages. -/

structure Books where
  state : State
  reserved : Finset Nat
  held : Finset Nat

inductive Call where
  | reserve (address bytes : Nat)
  | allocate
  | allocateConsecutive (fuel pages : Nat)
  | free (address : Nat)

def covered (s : State) (address bytes : Nat) : Finset Nat :=
  (Finset.range (64*s.allocationTableLength)).filter fun p => 0 < bytes ∧ address/4096 ≤ p ∧ p ≤ (address+bytes-1)/4096

def Books.step (b : Books) : Call → Books → Prop
  | .reserve address bytes, b' => address < 2^64 ∧ bytes < 2^64 ∧
      b' = ⟨memoryPhysicalReserve b.state address bytes,b.reserved ∪ covered b.state address bytes,b.held⟩
  | .allocate, b' => ∃ address s, memoryPhysicalAllocate b.state = some (address,s) ∧
      b' = ⟨s,b.reserved,insert (address/4096) b.held⟩
  | .allocateConsecutive fuel pages, b' => 0 < pages ∧ pages % 64 = 0 ∧
      ∃ address s, memoryPhysicalAllocateConsecutive fuel b.state pages = some (address,s) ∧
        b' = ⟨s,b.reserved,b.held ∪ (Finset.range pages).image (address/4096 + ·)⟩
  | .free address, b' => address % 4096 = 0 ∧ address/4096 ∈ b.held ∧
      b' = ⟨(memoryPhysicalFree b.state address).2,b.reserved,b.held.erase (address/4096)⟩

def books (contents : Nat → BitVec 64) (total : Nat) : System Books Call where
  start b := b = ⟨memoryPhysicalInitialize contents 0 total,∅,∅⟩
  step := Books.step

def Books.inUse (b : Books) : Finset Nat :=
  (b.reserved ∪ b.held).filter (· < 64*b.state.allocationTableLength)

/-- The calls that the counter follows. Not among them: allocate_consecutive; a
reservation of no bytes, or of managed pages at or past the number of table words, or
of pages in the upper half of a word; freeing a page that was reserved while held, or
one that lies past the reach of the 32-bit word index. -/
def Tracked (b : Books) : Call → Prop
  | .reserve address bytes => 0 < bytes ∧ address % 4096 + bytes ≤ 2^64 ∧
      ∀ p ∈ covered b.state address bytes, p < b.state.allocationTableLength ∧ p % 64 < 32 ∧ p < 2^38
  | .allocate => 0 < b.state.allocationTableLength
  | .allocateConsecutive _ _ => False
  | .free address => address < 2^50 ∧ address/4096 ∉ b.reserved

structure Tally (s : State) (used : Finset Nat) : Prop where
  small : s.allocationTableLength ≤ 2^46
  sound : 0 < s.allocationTableLength → Sound s
  pages : ∀ p ∈ used, p < 64*s.allocationTableLength ∧ p % 64 < 32
  marked : ∀ w < s.allocationTableLength, ∀ b < 32, low s w b = true ↔ w*64+b ∈ used
  count : s.usedPhysicalPages = used.card

theorem tallyBound {s : State} {used : Finset Nat} (tally : Tally s used) : used.card < 2^64 - 1 := by
  have inside : used ⊆ Finset.range (64*s.allocationTableLength) :=
    fun p member => Finset.mem_range.mpr (tally.pages p member).1
  have card := Finset.card_le_card inside
  rw [Finset.card_range] at card
  have small := tally.small
  omega

theorem tallyInsert {s s' : State} {used : Finset Nat} {p : Nat} (tally : Tally s used) (inside : p < 64*s.allocationTableLength)
    (half : p % 64 < 32) (fresh : p ∉ used) (length : s'.allocationTableLength = s.allocationTableLength) (sound : Sound s')
    (marked : ∀ w b, b < 32 → low s' w b = (low s w b || decide (w = p/64 ∧ b = p%64)))
    (count : s'.usedPhysicalPages = (s.usedPhysicalPages + 1) % 2^64) : Tally s' (insert p used) := by
  have bound := tallyBound tally
  refine ⟨length ▸ tally.small,fun _ => sound,?_,?_,?_⟩
  · intro q member
    rw [length]
    rcases Finset.mem_insert.mp member with rfl | old
    · exact ⟨inside,half⟩
    · exact tally.pages q old
  · intro w hw b hb
    rw [length] at hw
    have page : w*64+b = p ↔ w = p/64 ∧ b = p%64 := by omega
    rw [marked w b hb,Bool.or_eq_true,decide_eq_true_eq,Finset.mem_insert,page,tally.marked w hw b hb,or_comm]
  · rw [count,tally.count,Finset.card_insert_of_notMem fresh]
    omega

theorem tallyReservePage {s : State} {used : Finset Nat} {p : Nat} (tally : Tally s used) (inside : p < s.allocationTableLength)
    (half : p % 64 < 32) (narrow : p < 2^38) : Tally (reservePage s p) (insert p used) := by
  have sound := tally.sound (by omega)
  have word : p/64 % 2^32 = p/64 := Nat.mod_eq_of_lt (by omega)
  have page := tally.marked (p/64) (by omega) (p%64) half
  rw [show p/64*64+p%64 = p by omega] at page
  by_cases old : p ∈ used
  · -- The mask is found in the word, and nothing changes.
    have same : reservePage s p = s := by
      simp only [reservePage,Nat.shiftRight_eq_div_pow]
      rw [show p/2^6 % 2^32 = p/64 from word,if_neg (heldMask half (page.mpr old))]
    rw [same,Finset.insert_eq_of_mem old]
    exact tally
  · have clear : s.allocationTable (p/64) &&& intMask (p%64) = 0 := by
      by_contra held
      have set := testedMark (sound.upper (p/64) (by omega)) (p%64) held
      rw [Nat.mod_eq_of_lt half] at set
      exact old (page.mp set)
    have count : (reservePage s p).usedPhysicalPages = (s.usedPhysicalPages + 1) % 2^64 := by
      simp only [reservePage,Nat.shiftRight_eq_div_pow]
      rw [show p/2^6 % 2^32 = p/64 from word,if_pos clear]
    refine tallyInsert tally (by omega) half old (reservePageFields s p).1 (reservePageSound sound p) ?_ count
    intro w b hb
    rw [reservePageLow sound inside w b hb,word,show p % 32 = p % 64 by omega]

theorem tallyReserveLoop {count index : Nat} {s : State} {used : Finset Nat} (tally : Tally s used)
    (plain : ∀ p, index ≤ p → p < index+count → p < s.allocationTableLength → p % 64 < 32 ∧ p < 2^38) :
    Tally (reserveLoop count index s) (used ∪ Finset.Ico index (min (index+count) s.allocationTableLength)) := by
  induction count generalizing index s used with
  | zero =>
    rw [Finset.Ico_eq_empty (by omega),Finset.union_empty]
    exact tally
  | succ count ih =>
    simp only [reserveLoop]
    split
    · rw [Finset.Ico_eq_empty (by omega),Finset.union_empty]
      exact tally
    · rename_i inside
      obtain ⟨half,narrow⟩ := plain index (Nat.le_refl _) (by omega) (by omega)
      have length := (reservePageFields s index).1
      have rest : Tally (reserveLoop count (index+1) (reservePage s index)) _ :=
        ih (tallyReservePage tally (by omega) half narrow) (fun p low high within => plain p (by omega) (by omega) (by rwa [length] at within))
      have same : insert index used ∪ Finset.Ico (index+1) (min (index+1+count) s.allocationTableLength) =
          used ∪ Finset.Ico index (min (index+(count+1)) s.allocationTableLength) := by
        ext p
        simp only [Finset.mem_union,Finset.mem_insert,Finset.mem_Ico]
        by_cases member : p ∈ used
        · simp [member]
        · simp only [member,or_false,false_or]
          omega
      rw [length,same] at rest
      exact rest

theorem reserveSpan {address bytes : Nat} (some : 1 ≤ bytes) (fits : address % 4096 + bytes ≤ 2^64) :
    reserveStart address = address/4096 ∧ reserveStart address + reserveCount address bytes = (address+bytes-1)/4096 + 1 := by
  have start : reserveStart address = address/4096 := Nat.shiftRight_eq_div_pow _ _
  have count : reserveCount address bytes = (address % 4096 + bytes - 1)/4096 + 1 := by
    simp only [reserveCount,Nat.shiftRight_eq_div_pow]
    omega
  exact ⟨start,by omega⟩

theorem reserveRange {s : State} {address bytes : Nat} (some : 0 < bytes) (fits : address % 4096 + bytes ≤ 2^64)
    (plain : ∀ p ∈ covered s address bytes, p < s.allocationTableLength) :
    Finset.Ico (reserveStart address) (min (reserveStart address + reserveCount address bytes) s.allocationTableLength) =
      covered s address bytes := by
  obtain ⟨start,stop⟩ := reserveSpan some fits
  ext p
  simp only [covered,Finset.mem_Ico,Finset.mem_filter,Finset.mem_range] at plain ⊢
  rw [stop,start]
  constructor
  · rintro ⟨low,high⟩
    exact ⟨by omega,some,low,by omega⟩
  · rintro ⟨inside,_,low,high⟩
    have within := plain p ⟨inside,some,low,high⟩
    exact ⟨low,by omega⟩

theorem tallyAllocate {s s' : State} {used : Finset Nat} {address : Nat} (tally : Tally s used)
    (some : 0 < s.allocationTableLength) (call : memoryPhysicalAllocate s = .some (address,s')) :
    Tally s' (insert (address/4096) used) := by
  have sound := tally.sound some
  obtain ⟨done⟩ := allocateSound sound call
  have word := done.wordInside
  have bit := done.bitInside
  have page := allocatedPage done
  have fresh : done.word*64+done.bit ∉ used := by
    rw [← tally.marked _ word _ bit,done.wasClear]
    exact Bool.false_ne_true
  rw [page]
  refine tallyInsert tally (by omega) (by omega) fresh done.length done.sound ?_ (allocateUsed call)
  intro w b hb
  rw [done.marked w b hb,show (done.word*64+done.bit)/64 = done.word by omega,
    show (done.word*64+done.bit)%64 = done.bit by omega]

theorem tallyFree {s : State} {used : Finset Nat} {address : Nat} (tally : Tally s used) (aligned : address % 4096 = 0)
    (narrow : address < 2^50) (member : address/4096 ∈ used) :
    Tally (memoryPhysicalFree s address).2 (used.erase (address/4096)) := by
  obtain ⟨inside,half⟩ := tally.pages _ member
  have bound := tallyBound tally
  have page : address/4096/64*64 + address/4096%64 = address/4096 := by omega
  have address' : address = pageAddress (address/4096/64) (address/4096%64) := by
    unfold pageAddress
    omega
  have set : low s (address/4096/64) (address/4096%64) = true := by
    rw [tally.marked _ (by omega) _ half,page]
    exact member
  obtain ⟨_,length,sound,count,bits⟩ := freeHeld (tally.sound (by omega)) (show address/4096/64 < 2^32 by omega) (by omega) half set
  rw [← address'] at length sound count bits
  have positive := Finset.card_pos.mpr ⟨_,member⟩
  refine ⟨length ▸ tally.small,fun _ => sound,?_,?_,?_⟩
  · intro q still
    rw [length]
    exact tally.pages q (Finset.mem_of_mem_erase still)
  · intro w hw b hb
    rw [length] at hw
    have this : w*64+b ≠ address/4096 ↔ ¬ (w = address/4096/64 ∧ b = address/4096%64) := by omega
    rw [bits w b hb,Bool.and_eq_true,Bool.not_eq_true',decide_eq_false_iff_not,Finset.mem_erase,this,
      tally.marked w hw b hb,and_comm]
  · rw [count,tally.count,Finset.card_erase_of_mem member]
    omega

theorem tallyStep {b b' : Books} {call : Call} (tally : Tally b.state (b.reserved ∪ b.held)) (tracked : Tracked b call)
    (move : b.step call b') : Tally b'.state (b'.reserved ∪ b'.held) := by
  cases call with
  | reserve address bytes =>
    obtain ⟨_,_,rfl⟩ := move
    obtain ⟨some,fits,plain⟩ := tracked
    have range := reserveRange some fits (fun p member => (plain p member).1)
    have loop : Tally (memoryPhysicalReserve b.state address bytes) _ :=
      tallyReserveLoop tally fun p low high inside => by
        have member : p ∈ covered b.state address bytes := by
          rw [← range,Finset.mem_Ico]
          exact ⟨low,lt_min high inside⟩
        exact (plain p member).2
    rw [range,Finset.union_right_comm] at loop
    exact loop
  | allocate =>
    obtain ⟨address,s,call,rfl⟩ := move
    rw [Finset.union_insert]
    exact tallyAllocate tally tracked call
  | allocateConsecutive fuel pages => exact tracked.elim
  | free address =>
    obtain ⟨aligned,member,rfl⟩ := move
    have same : b.reserved ∪ b.held.erase (address/4096) = (b.reserved ∪ b.held).erase (address/4096) := by
      rw [Finset.erase_union_distrib,Finset.erase_eq_of_notMem tracked.2]
    rw [same]
    exact tallyFree tally aligned tracked.1 (Finset.mem_union_right _ member)

theorem tallyStart (contents : Nat → BitVec 64) {total : Nat} (bound : total < 2^64) :
    Tally (memoryPhysicalInitialize contents 0 total) ∅ := by
  refine ⟨?_,fun words => initializeSound contents 0 total (by omega) words,fun p member => absurd member (Finset.notMem_empty p),?_,rfl⟩
  · simp only [memoryPhysicalInitialize]
    omega
  · intro w hw b hb
    simp only [memoryPhysicalInitialize] at hw
    simp [low,memoryPhysicalInitialize,hw]

theorem usedPagesCounted {contents : Nat → BitVec 64} {total : Nat} {calls : List Call} {b : Books} (bound : total < 2^64)
    (run : ((books contents total).restrict Tracked).Run calls b) :
    memoryPhysicalUsedPages b.state = b.inUse.card := by
  have tally : Tally b.state (b.reserved ∪ b.held) := by
    refine invariant (I := fun b => Tally b.state (b.reserved ∪ b.held)) ?_ ?_ run
    · rintro b rfl
      exact tallyStart contents bound
    · intro b call b' tally move
      exact tallyStep tally move.1 move.2
  have all : b.inUse = b.reserved ∪ b.held :=
    Finset.filter_eq_self.mpr fun p member => (tally.pages p member).1
  rw [all]
  exact tally.count

theorem usedPagesCountedTwo : ∃ b, ((books (fun _ => 0) (2^18)).restrict Tracked).Run [.allocate,.reserve 0 4096] b ∧
    memoryPhysicalUsedPages b.state = 2 ∧ b.inUse.card = 2 := by
  have only : ∀ p ∈ covered (memoryPhysicalInitialize (fun _ => 0) 0 (2^18)) 0 4096, p = 0 := by decide
  have tracked : Tracked ⟨memoryPhysicalInitialize (fun _ => 0) 0 (2^18),∅,∅⟩ (.reserve 0 4096) :=
    ⟨by decide,by decide,fun p member => by rw [only p member]; decide⟩
  have reserve : Books.step ⟨memoryPhysicalInitialize (fun _ => 0) 0 (2^18),∅,∅⟩ (.reserve 0 4096) _ :=
    ⟨by decide,by decide,rfl⟩
  obtain ⟨s,call,two⟩ : ∃ s, memoryPhysicalAllocate
      (memoryPhysicalReserve (memoryPhysicalInitialize (fun _ => 0) 0 (2^18)) 0 4096) = some (4096,s) ∧
      s.usedPhysicalPages = 2 := ⟨_,rfl,rfl⟩
  have allocate : Books.step ⟨memoryPhysicalReserve (memoryPhysicalInitialize (fun _ => 0) 0 (2^18)) 0 4096,
      ∅ ∪ covered (memoryPhysicalInitialize (fun _ => 0) 0 (2^18)) 0 4096,∅⟩ .allocate _ := ⟨4096,s,call,rfl⟩
  have words : Tracked ⟨memoryPhysicalReserve (memoryPhysicalInitialize (fun _ => 0) 0 (2^18)) 0 4096,
      ∅ ∪ covered (memoryPhysicalInitialize (fun _ => 0) 0 (2^18)) 0 4096,∅⟩ .allocate :=
    show 0 < (memoryPhysicalReserve _ 0 4096).allocationTableLength by decide
  have run := ((System.Run.start (S := (books (fun _ => 0) (2^18)).restrict Tracked) rfl).step ⟨tracked,reserve⟩).step
    ⟨words,allocate⟩
  exact ⟨_,run,two,(usedPagesCounted (by decide) run).symm.trans two⟩

theorem usedPagesMissConsecutive : ∃ b, (books (fun _ => 0) (2^18)).Run [.allocateConsecutive 1 64] b ∧
    memoryPhysicalUsedPages b.state = 0 ∧ b.inUse.card = 64 := by
  obtain ⟨s,call,none,length⟩ : ∃ s, memoryPhysicalAllocateConsecutive 1 (memoryPhysicalInitialize (fun _ => 0) 0 (2^18)) 64 =
      some (0,s) ∧ s.usedPhysicalPages = 0 ∧ s.allocationTableLength = 1 := ⟨_,rfl,rfl,rfl⟩
  have move : Books.step ⟨memoryPhysicalInitialize (fun _ => 0) 0 (2^18),∅,∅⟩ (.allocateConsecutive 1 64) _ :=
    ⟨by decide,by decide,0,s,call,rfl⟩
  refine ⟨_,(System.Run.start (S := books (fun _ => 0) (2^18)) rfl).step move,none,?_⟩
  simp only [Books.inUse,length]
  decide

end Kokos.PhysicalMemory

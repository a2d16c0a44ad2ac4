import Mathlib.Data.Nat.Find
import Kokos.PhysicalMemory

/-! What one call does to the bitmap. The mask is 32 bits wide and sign-extended,
so pages 31..63 of a word share one fate: their bits are equal in every reachable
table, and the scan only ever stops at one of the bits 0..31. -/
namespace Kokos.PhysicalMemory
open WordBits

/-- What every call keeps: the search starts inside the table, page addresses fit
in 64 bits, and the upper half of a word repeats bit 31. -/
structure Sound (s : State) : Prop where
  inside : s.allocationIndex < s.allocationTableLength
  small : s.allocationTableLength ≤ 2^46
  upper : ∀ w < s.allocationTableLength, ∀ i, 31 ≤ i → i < 64 →
    (s.allocationTable w).getLsbD i = (s.allocationTable w).getLsbD 31

def low (s : State) (w b : Nat) : Bool := (s.allocationTable w).getLsbD b

def pageAddress (w b : Nat) : Nat := (w*64+b)*4096

theorem pageBitAddress (s : State) (w b : Nat) (bound : b < 64) :
    pageBit s (pageAddress w b) = low s w b := by
  have page : pageAddress w b / 4096 = w*64+b := by unfold pageAddress; omega
  have word : (w*64+b) / 64 = w := by omega
  have bit : (w*64+b) % 64 = b := by omega
  simp only [pageBit,page,word,bit,low]

theorem pageAddressInjective {w b v c : Nat} (hb : b < 64) (hc : c < 64)
    (same : pageAddress w b = pageAddress v c) : w = v ∧ b = c := by
  unfold pageAddress at same
  omega

theorem maskLow (bit b : Nat) (hb : b < 32) :
    (intMask bit).getLsbD b = decide (b = bit % 32) := by
  rw [intMaskBit bit b (by omega)]
  split
  · rename_i top
    have same : 31 ≤ b ↔ b = bit % 32 := by omega
    simp only [same]
  · rfl

theorem maskUpper (bit i : Nat) (h31 : 31 ≤ i) (h64 : i < 64) :
    (intMask bit).getLsbD i = decide (bit % 32 = 31) := by
  rw [intMaskBit bit i h64]
  split
  · rename_i top; simp [top,h31]
  · rename_i below
    have : i ≠ bit % 32 := by have := Nat.mod_lt bit (show 0 < 32 by decide); omega
    simp [this,below]

theorem testedMark {word : BitVec 64} (upper : ∀ i, 31 ≤ i → i < 64 → word.getLsbD i = word.getLsbD 31)
    (bit : Nat) (held : word &&& intMask bit ≠ 0) : word.getLsbD (bit % 32) = true := by
  by_contra clear
  apply held
  apply (andZeroIff word (intMask bit)).mpr
  intro i hi set
  rw [intMaskBit bit i hi]
  split
  · rename_i top
    rw [top] at clear
    by_contra inside
    simp only [decide_eq_false_iff_not,not_not] at inside
    exact clear ((upper i inside hi).symm.trans set)
  · simp only [decide_eq_false_iff_not]
    intro same
    exact clear (same ▸ set)

@[simp] theorem setWordSame (table : Nat → BitVec 64) (w : Nat) (v : BitVec 64) : setWord table w v w = v := by
  simp [setWord]

theorem setWordOther (table : Nat → BitVec 64) {w i : Nat} (v : BitVec 64) (other : i ≠ w) :
    setWord table w v i = table i := by simp [setWord,other]

theorem markLow (table : Nat → BitVec 64) (w bit v b : Nat) (hb : b < 32) :
    (setWord table w (table w ||| intMask bit) v).getLsbD b =
      ((table v).getLsbD b || decide (v = w ∧ b = bit % 32)) := by
  by_cases same : v = w
  · subst v
    simp [maskLow bit b hb]
  · rw [setWordOther table _ same]
    simp [same]

theorem markUpper {table : Nat → BitVec 64} {length w : Nat} (bit : Nat)
    (upper : ∀ v < length, ∀ i, 31 ≤ i → i < 64 → (table v).getLsbD i = (table v).getLsbD 31) :
    ∀ v < length, ∀ i, 31 ≤ i → i < 64 →
      (setWord table w (table w ||| intMask bit) v).getLsbD i =
      (setWord table w (table w ||| intMask bit) v).getLsbD 31 := by
  intro v hv i h31 h64
  by_cases same : v = w
  · subst v
    simp only [setWordSame,BitVec.getLsbD_or,maskUpper bit i h31 h64,
      maskUpper bit 31 (by decide) (by decide),upper w hv i h31 h64]
  · rw [setWordOther table _ same]
    exact upper v hv i h31 h64

theorem reservePageFields (s : State) (index : Nat) :
    (reservePage s index).allocationTableLength = s.allocationTableLength ∧
    (reservePage s index).allocationIndex = s.allocationIndex := by
  simp only [reservePage]
  split <;> exact ⟨rfl,rfl⟩

theorem reservePageLow {s : State} (sound : Sound s) {index : Nat} (inside : index < s.allocationTableLength)
    (w b : Nat) (hb : b < 32) :
    low (reservePage s index) w b = (low s w b || decide (w = index / 64 % 2^32 ∧ b = index % 32)) := by
  have word : (index >>> 6) % 2^32 = index / 64 % 2^32 := by rw [Nat.shiftRight_eq_div_pow]
  have fold : index % 64 % 32 = index % 32 := by omega
  simp only [reservePage,word]
  split
  · simp only [low]
    rw [markLow _ _ _ _ _ hb,fold]
  · rename_i held
    have set := testedMark (sound.upper (index / 64 % 2^32) (by omega)) (index % 64) held
    rw [fold] at set
    by_cases this : w = index / 64 % 2^32 ∧ b = index % 32
    · obtain ⟨rfl,rfl⟩ := this
      rw [low,set]
      rfl
    · rw [decide_eq_false this,Bool.or_false]

theorem reservePageSound {s : State} (sound : Sound s) (index : Nat) : Sound (reservePage s index) := by
  have fields := reservePageFields s index
  refine ⟨by rw [fields.1,fields.2]; exact sound.inside,by rw [fields.1]; exact sound.small,?_⟩
  rw [fields.1]
  simp only [reservePage]
  split
  · exact markUpper _ sound.upper
  · exact sound.upper

theorem reserveLoopFields (count index : Nat) (s : State) :
    (reserveLoop count index s).allocationTableLength = s.allocationTableLength ∧
    (reserveLoop count index s).allocationIndex = s.allocationIndex := by
  induction count generalizing index s with
  | zero => exact ⟨rfl,rfl⟩
  | succ count ih =>
    simp only [reserveLoop]
    split
    · exact ⟨rfl,rfl⟩
    · have fields := reservePageFields s index
      have rest := ih (index+1) (reservePage s index)
      exact ⟨rest.1.trans fields.1,rest.2.trans fields.2⟩

theorem reserveLoopSound (count index : Nat) {s : State} (sound : Sound s) :
    Sound (reserveLoop count index s) := by
  induction count generalizing index s with
  | zero => exact sound
  | succ count ih =>
    simp only [reserveLoop]
    split
    · exact sound
    · exact ih (index+1) (reservePageSound sound index)

/-- The loop stops at the first page index that reaches the number of words, so
exactly the pages of the span below that index are marked. -/
theorem reserveLoopLow (count index : Nat) {s : State} (sound : Sound s) (w b : Nat) (hb : b < 32) :
    low (reserveLoop count index s) w b = true ↔ low s w b = true ∨
      ∃ q, index ≤ q ∧ q < index+count ∧ q < s.allocationTableLength ∧ w = q / 64 % 2^32 ∧ b = q % 32 := by
  induction count generalizing index s with
  | zero =>
    simp only [reserveLoop]
    constructor
    · exact Or.inl
    · rintro (h | ⟨q,h⟩)
      · exact h
      · omega
  | succ count ih =>
    simp only [reserveLoop]
    split
    · rename_i beyond
      constructor
      · exact Or.inl
      · rintro (h | ⟨q,h⟩)
        · exact h
        · omega
    · rename_i inside
      rw [ih (index+1) (reservePageSound sound index),reservePageLow sound (by omega) w b hb,
        (reservePageFields s index).1]
      simp only [Bool.or_eq_true,decide_eq_true_eq]
      constructor
      · rintro ((h | h) | ⟨q,h⟩)
        · exact Or.inl h
        · exact Or.inr ⟨index,by omega,by omega,by omega,h⟩
        · exact Or.inr ⟨q,by omega,by omega,h.2.2⟩
      · rintro (h | ⟨q,h⟩)
        · exact Or.inl (Or.inl h)
        · by_cases first : q = index
          · subst q; exact Or.inl (Or.inr h.2.2.2)
          · exact Or.inr ⟨q,by omega,by omega,h.2.2⟩

theorem initializeSound (contents : Nat → BitVec 64) (used total : Nat) (bound : total ≤ 2^64)
    (words : 1 ≤ total / 4096 / 64) : Sound (memoryPhysicalInitialize contents used total) := by
  refine ⟨words,?_,?_⟩
  · simp only [memoryPhysicalInitialize]; omega
  · intro w hw i h31 h64
    simp only [memoryPhysicalInitialize] at hw ⊢
    simp [hw]

/-! The word search. -/

theorem findWordAt (table : Nat → BitVec 64) (length : Nat) (k spot fuel : Nat) (inside : spot < length)
    (full : ∀ j < k, table ((spot+j) % length) = BitVec.allOnes 64)
    (free : table ((spot+k) % length) ≠ BitVec.allOnes 64) (enough : k < fuel) :
    findWord table length fuel spot = some ((spot+k) % length) := by
  induction k generalizing spot fuel with
  | zero =>
    obtain ⟨fuel,rfl⟩ := Nat.exists_eq_succ_of_ne_zero (show fuel ≠ 0 by omega)
    simp only [Nat.add_zero,Nat.mod_eq_of_lt inside] at free ⊢
    simp only [findWord,if_neg free]
  | succ k ih =>
    obtain ⟨fuel,rfl⟩ := Nat.exists_eq_succ_of_ne_zero (show fuel ≠ 0 by omega)
    have here : table spot = BitVec.allOnes 64 := by
      have h := full 0 (by omega)
      rwa [Nat.add_zero,Nat.mod_eq_of_lt inside] at h
    have turn : ∀ j, ((if length ≤ spot+1 then 0 else spot+1)+j) % length = (spot+(j+1)) % length := by
      intro j
      split
      · have whole : spot+1 = length := by omega
        have : spot+(j+1) = j+length := by omega
        rw [this,Nat.add_mod_right,Nat.zero_add]
      · congr 1; omega
    have rest := ih (if length ≤ spot+1 then 0 else spot+1) fuel (by split <;> omega)
      (fun j hj => by rw [turn j]; exact full (j+1) (by omega)) (by rw [turn k]; exact free) (by omega)
    simp only [findWord,here,if_true,rest,turn k]

theorem findWordFirst (table : Nat → BitVec 64) (length spot w : Nat) (inside : spot < length)
    (hw : w < length) (free : table w ≠ BitVec.allOnes 64) :
    ∃ k < length, (∀ j < k, table ((spot+j) % length) = BitVec.allOnes 64) ∧
      table ((spot+k) % length) ≠ BitVec.allOnes 64 ∧
      ∀ fuel, length ≤ fuel → findWord table length fuel spot = some ((spot+k) % length) := by
  have reach : (spot + (w+length-spot) % length) % length = w := by
    rw [Nat.add_mod_mod]
    have : spot+(w+length-spot) = w+length := by omega
    rw [this,Nat.add_mod_right,Nat.mod_eq_of_lt hw]
  have exists_ : ∃ k, table ((spot+k) % length) ≠ BitVec.allOnes 64 :=
    ⟨(w+length-spot) % length,by rw [reach]; exact free⟩
  classical
  have bound : Nat.find exists_ < length := by
    have h := Nat.find_min' exists_ (m := (w+length-spot) % length) (by rw [reach]; exact free)
    have := Nat.mod_lt (w+length-spot) (show 0 < length by omega)
    omega
  have before : ∀ j < Nat.find exists_, table ((spot+j) % length) = BitVec.allOnes 64 := by
    intro j hj
    by_contra h
    exact Nat.find_min exists_ hj h
  exact ⟨Nat.find exists_,bound,before,Nat.find_spec exists_,fun fuel enough =>
    findWordAt table length _ spot fuel inside before (Nat.find_spec exists_) (by omega)⟩

theorem findWordFree {table : Nat → BitVec 64} {length fuel spot r : Nat} (found : findWord table length fuel spot = some r) :
    table r ≠ BitVec.allOnes 64 := by
  induction fuel generalizing spot with
  | zero => simp [findWord] at found
  | succ fuel ih =>
    simp only [findWord] at found
    split at found
    · exact ih found
    · rename_i here
      exact Option.some.inj found ▸ here

theorem findWordPlace {table : Nat → BitVec 64} {length fuel spot r : Nat} (some_ : 0 < length)
    (found : findWord table length fuel spot = some r) : r < length ∨ r = spot := by
  induction fuel generalizing spot with
  | zero => simp [findWord] at found
  | succ fuel ih =>
    simp only [findWord] at found
    split at found
    · have place := ih found
      split at place <;> omega
    · exact Or.inr (Option.some.inj found).symm

theorem allocateMade {s s' : State} {address : Nat} (call : memoryPhysicalAllocate s = some (address,s')) :
    ∃ spot, findWord s.allocationTable s.allocationTableLength (s.allocationTableLength+1) s.allocationIndex = some spot ∧
      address = (((spot <<< 6) + scanOnes 64 (s.allocationTable spot) 0) <<< 12) % 2^64 ∧
      s' = { s with
        allocationTable := setWord s.allocationTable spot
          (s.allocationTable spot ||| intMask (scanOnes 64 (s.allocationTable spot) 0))
        allocationIndex := spot
        usedPhysicalPages := (s.usedPhysicalPages + 1) % 2^64 } := by
  obtain ⟨spot,found,made⟩ := Option.bind_eq_some_iff.mp call
  obtain ⟨inside,_,_⟩ := scanOnesZero (s.allocationTable spot) (findWordFree found)
  dsimp only at made
  rw [if_neg (by omega)] at made
  obtain ⟨rfl,rfl⟩ := Prod.mk.inj (Option.some.inj made)
  exact ⟨spot,found,rfl,rfl⟩

theorem allocateUsed {s s' : State} {address : Nat} (call : memoryPhysicalAllocate s = some (address,s')) :
    s'.usedPhysicalPages = (s.usedPhysicalPages + 1) % 2^64 := by
  obtain ⟨_,_,_,rfl⟩ := allocateMade call
  rfl

theorem allocateLength {s s' : State} {address : Nat} (call : memoryPhysicalAllocate s = some (address,s')) :
    s'.allocationTableLength = s.allocationTableLength := by
  obtain ⟨_,_,_,rfl⟩ := allocateMade call
  rfl

theorem scanLower {word : BitVec 64} (upper : ∀ i, 31 ≤ i → i < 64 → word.getLsbD i = word.getLsbD 31)
    (free : word ≠ BitVec.allOnes 64) : scanOnes 64 word 0 < 32 := by
  obtain ⟨bound,zero,ones⟩ := scanOnesZero word free
  by_contra high
  have top := ones 31 (by omega)
  have same := upper (scanOnes 64 word 0) (by omega) bound
  rw [zero,top] at same
  contradiction

structure Allocated (s : State) (address : Nat) (s' : State) where
  word : Nat
  bit : Nat
  wordInside : word < s.allocationTableLength
  bitInside : bit < 32
  isAddress : address = pageAddress word bit
  wasClear : low s word bit = false
  lowest : ∀ b < bit, low s word b = true
  marked : ∀ w b, b < 32 → low s' w b = (low s w b || decide (w = word ∧ b = bit))
  length : s'.allocationTableLength = s.allocationTableLength
  index : s'.allocationIndex = word
  sound : Sound s'

theorem allocatedPage {s s' : State} {address : Nat} (done : Allocated s address s') : address/4096 = done.word*64+done.bit := by
  have value := done.isAddress
  unfold pageAddress at value
  omega

theorem allocateAt {s : State} (sound : Sound s) {spot : Nat} (inside : spot < s.allocationTableLength)
    (free : s.allocationTable spot ≠ BitVec.allOnes 64)
    (found : findWord s.allocationTable s.allocationTableLength (s.allocationTableLength+1) s.allocationIndex = some spot) :
    ∃ address s', memoryPhysicalAllocate s = some (address,s') ∧
      ∃ done : Allocated s address s', done.word = spot := by
  have small := sound.small
  have lower := scanLower (sound.upper spot inside) free
  obtain ⟨_,zero,ones⟩ := scanOnesZero (s.allocationTable spot) free
  have fold : scanOnes 64 (s.allocationTable spot) 0 % 32 = scanOnes 64 (s.allocationTable spot) 0 :=
    Nat.mod_eq_of_lt lower
  have address : (((spot <<< 6) + scanOnes 64 (s.allocationTable spot) 0) <<< 12) % 2^64 =
      pageAddress spot (scanOnes 64 (s.allocationTable spot) 0) := by
    simp only [Nat.shiftLeft_eq,pageAddress]; omega
  have call : memoryPhysicalAllocate s = some (pageAddress spot (scanOnes 64 (s.allocationTable spot) 0),
      { s with
        allocationTable := setWord s.allocationTable spot
          (s.allocationTable spot ||| intMask (scanOnes 64 (s.allocationTable spot) 0))
        allocationIndex := spot
        usedPhysicalPages := (s.usedPhysicalPages + 1) % 2^64 }) := by
    simp only [memoryPhysicalAllocate,found,bind,Option.bind,address]
    rw [if_neg (by omega)]
  refine ⟨_,_,call,⟨spot,_,inside,lower,rfl,zero,ones,?_,rfl,rfl,?_⟩,rfl⟩
  · intro w b hb
    simp only [low]
    rw [markLow _ _ _ _ _ hb,fold]
  · exact ⟨inside,small,markUpper _ sound.upper⟩

theorem allocateReturns {s : State} (sound : Sound s)
    (free : ∃ w < s.allocationTableLength, s.allocationTable w ≠ BitVec.allOnes 64) :
    ∃ address s', memoryPhysicalAllocate s = some (address,s') ∧ Nonempty (Allocated s address s') := by
  obtain ⟨w,hw,hfree⟩ := free
  obtain ⟨k,_,_,here,found⟩ := findWordFirst s.allocationTable _ _ w sound.inside hw hfree
  have inside : (s.allocationIndex+k) % s.allocationTableLength < s.allocationTableLength :=
    Nat.mod_lt _ (by omega)
  obtain ⟨address,s',call,done,_⟩ := allocateAt sound inside here (found _ (by omega))
  exact ⟨address,s',call,⟨done⟩⟩

theorem allocateSound {s s' : State} {address : Nat} (sound : Sound s)
    (call : memoryPhysicalAllocate s = some (address,s')) : Nonempty (Allocated s address s') := by
  obtain ⟨spot,found,_,_⟩ := allocateMade call
  have inside := sound.inside
  have here : spot < s.allocationTableLength := by
    rcases findWordPlace (by omega) found with less | same
    · exact less
    · omega
  obtain ⟨_,_,again,done,_⟩ := allocateAt sound here (findWordFree found) found
  obtain ⟨rfl,rfl⟩ := Prod.mk.inj (Option.some.inj (call.symm.trans again))
  exact ⟨done⟩

def clearBelow (s : State) (p : Nat) : Finset Nat :=
  (Finset.range p).filter (fun q => q % 64 < 32 ∧ low s (q/64) (q%64) = false)

theorem allocateClears {s s' : State} {address : Nat} (done : Allocated s address s') (p : Nat)
    (below : done.word*64+done.bit < p) : (clearBelow s' p).card + 1 = (clearBelow s p).card := by
  have bit := done.bitInside
  have word : (done.word*64+done.bit) / 64 = done.word := by omega
  have rest : (done.word*64+done.bit) % 64 = done.bit := by omega
  have member : done.word*64+done.bit ∈ clearBelow s p := by
    simp only [clearBelow,Finset.mem_filter,Finset.mem_range,word,rest]
    exact ⟨below,bit,done.wasClear⟩
  have erased : clearBelow s' p = (clearBelow s p).erase (done.word*64+done.bit) := by
    ext q
    simp only [clearBelow,Finset.mem_erase,Finset.mem_filter,Finset.mem_range]
    constructor
    · rintro ⟨hq,lower,clear⟩
      rw [done.marked _ _ lower,Bool.or_eq_false_iff] at clear
      refine ⟨?_,hq,lower,clear.1⟩
      rintro rfl
      simp [word,rest] at clear
    · rintro ⟨other,hq,lower,clear⟩
      refine ⟨hq,lower,?_⟩
      have away : ¬ (q/64 = done.word ∧ q%64 = done.bit) := by omega
      rw [done.marked _ _ lower,clear]
      simp [away]
  rw [erased,Finset.card_erase_add_one member]

/-! Freeing a page the allocator handed out. -/

theorem maskNotLow (bit b : Nat) (hb : b < 32) : (intMaskNot bit).getLsbD b = decide (b ≠ bit % 32) := by
  rw [intMaskNotBit bit b (by omega),maskLow bit b hb]
  simp

theorem heldMask {s : State} {w b : Nat} (hb : b < 32) (held : low s w b = true) : s.allocationTable w &&& intMask b ≠ 0 := by
  intro zero
  have h := (andZeroIff _ _).mp zero b (by omega) held
  rw [maskLow b b hb,Nat.mod_eq_of_lt hb] at h
  simp at h

theorem freeClears {s : State} {w b : Nat} (narrow : w < 2^32) (hw : w < s.allocationTableLength) (hb : b < 32)
    (held : low s w b = true) : memoryPhysicalFree s (pageAddress w b) = (.cleared,{ s with
      allocationTable := setWord s.allocationTable w (s.allocationTable w &&& intMaskNot b)
      usedPhysicalPages := (s.usedPhysicalPages + (2^64 - 1)) % 2^64 }) := by
  have index : pageAddress w b >>> 12 = w*64+b := by
    simp only [pageAddress,Nat.shiftRight_eq_div_pow]; omega
  have word : ((w*64+b) >>> 6) % 2^32 = w := by rw [Nat.shiftRight_eq_div_pow]; omega
  have bit : (w*64+b) % 64 = b := by omega
  simp only [memoryPhysicalFree,index,word,bit]
  rw [if_neg (by omega),if_pos (heldMask hb held)]

-- Pages 31..63 of a word have one mask, so none of them keeps its bit by itself.
structure Released (s : State) (address : Nat) (s' : State) : Prop where
  clear : pageBit s' address = false
  others : ∀ a, a/4096 ≠ address/4096 →
    (a/4096/64 = address/4096/64 → a/4096 % 64 < 31 ∨ address/4096 % 64 < 31) → pageBit s' a = pageBit s a
  counter : s'.usedPhysicalPages = (s.usedPhysicalPages + (2^64 - 1)) % 2^64
  cursor : s'.allocationIndex = s.allocationIndex
  length : s'.allocationTableLength = s.allocationTableLength

theorem releasedHeld {s : State} {w b : Nat} (narrow : w < 2^32) (hw : w < s.allocationTableLength) (hb : b < 32)
    (held : low s w b = true) : Released s (pageAddress w b) (memoryPhysicalFree s (pageAddress w b)).2 := by
  rw [freeClears narrow hw hb held]
  have page : pageAddress w b / 4096 = w*64+b := by unfold pageAddress; omega
  have word : (w*64+b) / 64 = w := by omega
  have bit : (w*64+b) % 64 = b := by omega
  refine ⟨?_,fun a other alone => ?_,rfl,rfl,rfl⟩
  · rw [pageBitAddress _ _ _ (by omega)]
    simp only [low,setWordSame,BitVec.getLsbD_and]
    rw [maskNotLow b b hb,Nat.mod_eq_of_lt hb]
    simp
  · rw [page,word,bit] at alone
    rw [page] at other
    unfold pageBit
    by_cases same : a/4096/64 = w
    · have small : a/4096 % 64 < 64 := Nat.mod_lt _ (by decide)
      have apart : (intMaskNot b).getLsbD (a/4096 % 64) = true := by
        rw [intMaskNotBit b _ small]
        by_cases upper : 31 ≤ a/4096 % 64
        · have away : b % 32 ≠ 31 := by have := alone same; omega
          rw [maskUpper b _ upper small,decide_eq_false away]
          rfl
        · have away : a/4096 % 64 ≠ b % 32 := by omega
          rw [maskLow b _ (by omega),decide_eq_false away]
          rfl
      simp only [same,setWordSame,BitVec.getLsbD_and,apart,Bool.and_true]
    · simp only [setWordOther _ _ same]

theorem freeHeld {s : State} (sound : Sound s) {w b : Nat} (narrow : w < 2^32)
    (hw : w < s.allocationTableLength) (hb : b < 32) (held : low s w b = true) :
    (memoryPhysicalFree s (pageAddress w b)).1 = .cleared ∧
    (memoryPhysicalFree s (pageAddress w b)).2.allocationTableLength = s.allocationTableLength ∧
    Sound (memoryPhysicalFree s (pageAddress w b)).2 ∧
    (memoryPhysicalFree s (pageAddress w b)).2.usedPhysicalPages = (s.usedPhysicalPages + (2^64 - 1)) % 2^64 ∧
    ∀ v c, c < 32 → low (memoryPhysicalFree s (pageAddress w b)).2 v c =
      (low s v c && !decide (v = w ∧ c = b)) := by
  have fold : b % 32 = b := Nat.mod_eq_of_lt hb
  rw [freeClears narrow hw hb held]
  refine ⟨rfl,rfl,⟨sound.inside,sound.small,?_⟩,rfl,?_⟩
  · intro v hv i h31 h64
    dsimp only at hv ⊢
    by_cases same : v = w
    · subst v
      simp only [setWordSame,BitVec.getLsbD_and,intMaskNotBit b i h64,intMaskNotBit b 31 (by decide),
        maskUpper b i h31 h64,maskUpper b 31 (by decide) (by decide),sound.upper w hv i h31 h64]
    · rw [setWordOther _ _ same]
      exact sound.upper v hv i h31 h64
  · intro v c hc
    simp only [low]
    by_cases same : v = w
    · subst v
      simp [maskNotLow b c hc,fold]
    · rw [setWordOther _ _ same]
      simp [same]

end Kokos.PhysicalMemory

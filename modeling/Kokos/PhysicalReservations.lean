import Kokos.BitTables
import Kokos.PhysicalTotals

/-! What one reservation and one free do to the bitmap, in any state. The mask is 32
bits wide, the loop ends at the number of words and the word index is narrowed, so a
call does what it is for on a part of the pages only. -/
namespace Kokos.PhysicalMemory
open WordBits BitTables

def markedPage (i : Nat) : Nat := i/64 % 2^32 * 64 + i % 32

def Masked (table : Table) (i : Nat) : Prop := table (i/64 % 2^32) &&& intMask (i % 64) ≠ 0

def Plain (s : State) (p : Nat) : Prop := p < s.allocationTableLength ∧ p % 64 < 31 ∧ p < 2^38

def ReservesExactly (s : State) (address bytes : Nat) : Prop :=
  (∀ p, bitAt (memoryPhysicalReserve s address bytes).allocationTable p = true ↔
    bitAt s.allocationTable p = true ∨ p ∈ covered s address bytes) ∧
  (memoryPhysicalReserve s address bytes).usedPhysicalPages % 2^64 = (s.usedPhysicalPages +
    (gained (64*s.allocationTableLength) s.allocationTable (memoryPhysicalReserve s address bytes).allocationTable).card) % 2^64

structure ReservesPlainly (s : State) (address bytes : Nat) : Prop where
  covers : ∀ p ∈ covered s address bytes, Plain s p ∨ bitAt s.allocationTable p = true
  spares : ∀ i, address/4096 ≤ i → i ≤ (address+bytes-1)/4096 → i < s.allocationTableLength →
    Masked s.allocationTable i ∨ address/4096 ≤ markedPage i

def hits (i p : Nat) : Bool := decide (p/64 = i/64 % 2^32) && (intMask (i % 64)).getLsbD (p % 64)

theorem hitsIff {i p : Nat} : hits i p = true ↔ p/64 = i/64 % 2^32 ∧ (p % 64 = i % 32 ∨ (i % 32 = 31 ∧ 31 ≤ p % 64)) := by
  unfold hits
  rw [Bool.and_eq_true,decide_eq_true_eq,intMaskBit _ _ (Nat.mod_lt _ (by decide))]
  refine and_congr_right fun _ => ?_
  split
  · rw [decide_eq_true_eq]
    omega
  · rw [decide_eq_true_eq]
    omega

theorem hitsOwn (i : Nat) : hits i (markedPage i) = true := by
  rw [hitsIff]
  unfold markedPage
  omega

theorem hitsAlone {i p : Nat} (single : i % 32 ≠ 31) (hit : hits i p = true) : p = markedPage i := by
  rw [hitsIff] at hit
  unfold markedPage
  omega

theorem maskedIff {table : Table} {i : Nat} : Masked table i ↔ ∃ p, bitAt table p = true ∧ hits i p = true := by
  unfold Masked hits
  rw [meetsIff]
  constructor
  · rintro ⟨j,inside,set,mask⟩
    refine ⟨64*(i/64 % 2^32)+j,(bitPlace _ inside).trans set,?_⟩
    rw [show (64*(i/64 % 2^32)+j)/64 = i/64 % 2^32 by omega,show (64*(i/64 % 2^32)+j) % 64 = j by omega,mask,decide_eq_true rfl]
    rfl
  · rintro ⟨p,set,hit⟩
    obtain ⟨word,mask⟩ := Bool.and_eq_true_iff.mp hit
    rw [← of_decide_eq_true word]
    exact ⟨p%64,Nat.mod_lt _ (by decide),set,mask⟩

theorem setWordBit (table : Table) (w p : Nat) (value : BitVec 64) :
    bitAt (setWord table w value) p = if p/64 = w then value.getLsbD (p%64) else bitAt table p := by
  unfold bitAt setWord
  split <;> rfl

theorem maskedOfMark {table : Table} {i : Nat} (set : bitAt table (markedPage i) = true) : Masked table i :=
  maskedIff.mpr ⟨_,set,hitsOwn i⟩

theorem markOfMasked {table : Table} {i : Nat} (single : i % 32 ≠ 31) (masked : Masked table i) : bitAt table (markedPage i) = true := by
  obtain ⟨p,set,hit⟩ := maskedIff.mp masked
  rwa [← hitsAlone single hit]

theorem maskedGrown {t u : Table} {i : Nat} (grown : Grown t u) (masked : Masked t i) : Masked u i := by
  obtain ⟨p,set,hit⟩ := maskedIff.mp masked
  exact maskedIff.mpr ⟨p,grown p set,hit⟩

theorem notMasked {table : Table} {i p : Nat} (clear : ¬ Masked table i) (hit : hits i p = true) : bitAt table p = false := by
  cases set : bitAt table p with
  | false => rfl
  | true => exact absurd (maskedIff.mpr ⟨p,set,hit⟩) clear

theorem reservePageDoes (s : State) (i : Nat) :
    (Masked s.allocationTable i ∧ reservePage s i = s) ∨
    (¬ Masked s.allocationTable i ∧
      (reservePage s i).usedPhysicalPages = (s.usedPhysicalPages + 1) % 2^64 ∧
      ∀ p, bitAt (reservePage s i).allocationTable p = (bitAt s.allocationTable p || hits i p)) := by
  have word : (i >>> 6) % 2^32 = i/64 % 2^32 := by rw [Nat.shiftRight_eq_div_pow]
  by_cases masked : Masked s.allocationTable i
  · refine Or.inl ⟨masked,?_⟩
    simp only [reservePage,word]
    exact if_neg masked
  · have clear := not_not.mp masked
    refine Or.inr ⟨masked,?_,fun p => ?_⟩
    · simp only [reservePage,word,if_pos clear]
    · simp only [reservePage,word,if_pos clear]
      unfold hits
      rw [setWordBit]
      split
      · rename_i same
        rw [BitVec.getLsbD_or,decide_eq_true same,Bool.true_and,← same]
        rfl
      · rename_i other
        rw [decide_eq_false other,Bool.false_and,Bool.or_false]

theorem reservePageGrown (s : State) (i : Nat) : Grown s.allocationTable (reservePage s i).allocationTable := by
  rcases reservePageDoes s i with ⟨_,same⟩ | ⟨_,_,bits⟩
  · rw [same]
    exact grownRefl _
  · intro p set
    rw [bits,set]
    rfl

theorem reserveLoopGrown (count index : Nat) (s : State) :
    Grown s.allocationTable (reserveLoop count index s).allocationTable := by
  induction count generalizing index s with
  | zero => exact grownRefl _
  | succ count ih =>
    simp only [reserveLoop]
    split
    · exact grownRefl _
    · exact grownTrans (reservePageGrown s index) (ih (index+1) (reservePage s index))

theorem reservePageMasked (s : State) (i : Nat) : Masked (reservePage s i).allocationTable i := by
  rcases reservePageDoes s i with ⟨masked,same⟩ | ⟨_,_,bits⟩
  · rwa [same]
  · apply maskedOfMark
    rw [bits,hitsOwn]
    exact Bool.or_true _

theorem reservePageGained {s : State} {i p : Nat} (inside : i < s.allocationTableLength) (clear : ¬ Masked s.allocationTable i) :
    p ∈ gained (64*s.allocationTableLength) s.allocationTable (reservePage s i).allocationTable ↔ hits i p = true := by
  rcases reservePageDoes s i with ⟨masked,_⟩ | ⟨_,_,bits⟩
  · exact absurd masked clear
  · rw [gainedMember,bits]
    constructor
    · rintro ⟨_,before,after⟩
      rwa [before,Bool.false_or] at after
    · intro hit
      have word := (hitsIff.mp hit).1
      rw [notMasked clear hit,hit]
      exact ⟨by omega,rfl,rfl⟩

theorem reservePageGains {s : State} {i : Nat} (inside : i < s.allocationTableLength) (clear : ¬ Masked s.allocationTable i) :
    1 ≤ (gained (64*s.allocationTableLength) s.allocationTable (reservePage s i).allocationTable).card ∧
    ((gained (64*s.allocationTableLength) s.allocationTable (reservePage s i).allocationTable).card = 1 → i % 32 ≠ 31) ∧
    (i % 32 ≠ 31 → gained (64*s.allocationTableLength) s.allocationTable (reservePage s i).allocationTable = {markedPage i}) := by
  have own := (reservePageGained inside clear).mpr (hitsOwn i)
  refine ⟨Finset.card_pos.mpr ⟨_,own⟩,?_,?_⟩
  · intro one top
    have upper : hits i (markedPage i + 1) = true := by
      rw [hitsIff]
      unfold markedPage
      omega
    have same := Finset.card_le_one.mp (Nat.le_of_eq one) _ own _ ((reservePageGained inside clear).mpr upper)
    omega
  · intro single
    refine Finset.eq_singleton_iff_unique_mem.mpr ⟨own,fun p member => ?_⟩
    exact hitsAlone single ((reservePageGained inside clear).mp member)

structure LoopMarks (s : State) (count index : Nat) (s' : State) (passes : Nat) : Prop where
  few : passes ≤ count
  counted : s'.usedPhysicalPages % 2^64 = (s.usedPhysicalPages + passes) % 2^64
  enough : passes ≤ (gained (64*s.allocationTableLength) s.allocationTable s'.allocationTable).card
  single : passes = (gained (64*s.allocationTableLength) s.allocationTable s'.allocationTable).card →
    ∀ p ∈ gained (64*s.allocationTableLength) s.allocationTable s'.allocationTable,
      ∃ i, index ≤ i ∧ i < index+count ∧ i < s.allocationTableLength ∧ i % 32 ≠ 31 ∧ p = markedPage i
  masked : ∀ i, index ≤ i → i < index+count → i < s.allocationTableLength → Masked s'.allocationTable i

theorem loopMarks (count index : Nat) (s : State) : ∃ passes, LoopMarks s count index (reserveLoop count index s) passes := by
  induction count generalizing index s with
  | zero =>
    refine ⟨0,Nat.le_refl _,rfl,Nat.zero_le _,fun _ p member => ?_,fun i low high => by omega⟩
    rw [reserveLoop,gainedSelf] at member
    exact absurd member (Finset.notMem_empty p)
  | succ count ih =>
    simp only [reserveLoop]
    split
    · refine ⟨0,Nat.zero_le _,rfl,Nat.zero_le _,fun _ p member => ?_,fun i low high inside => by omega⟩
      rw [gainedSelf] at member
      exact absurd member (Finset.notMem_empty p)
    · rename_i inside
      have inside := Nat.lt_of_not_le inside
      have length := (reservePageFields s index).1
      obtain ⟨passes,rest⟩ := ih (index+1) (reservePage s index)
      have later := reserveLoopGrown count (index+1) (reservePage s index)
      have masked : ∀ i, index ≤ i → i < index+(count+1) → i < s.allocationTableLength →
          Masked (reserveLoop count (index+1) (reservePage s index)).allocationTable i := by
        intro i low high within
        by_cases first : i = index
        · subst first
          exact maskedGrown later (reservePageMasked s i)
        · exact rest.masked i (by omega) (by omega) (by rwa [length])
      obtain ⟨few,counted,enough,single,_⟩ := rest
      rw [length] at enough single
      rcases reservePageDoes s index with ⟨_,same⟩ | ⟨clear,more,_⟩
      · rw [same] at counted enough single masked ⊢
        refine ⟨passes,Nat.le_succ_of_le few,counted,enough,fun equal p member => ?_,masked⟩
        obtain ⟨i,low,high,within,rest⟩ := single equal p member
        exact ⟨i,by omega,by omega,within,rest⟩
      · obtain ⟨one,alone,page⟩ := reservePageGains inside clear
        have both := gainedCard (n := 64*s.allocationTableLength) (reservePageGrown s index) later
        refine ⟨passes+1,by omega,?_,by omega,fun equal p member => ?_,masked⟩
        · rw [counted,more]
          omega
        · have single' := alone (by omega)
          obtain ⟨below,before,after⟩ := gainedMember.mp member
          cases mid : bitAt (reservePage s index).allocationTable p with
          | true =>
            have first := gainedMember.mpr ⟨below,before,mid⟩
            rw [page single',Finset.mem_singleton] at first
            exact ⟨index,Nat.le_refl _,by omega,inside,single',first⟩
          | false =>
            obtain ⟨i,low,high,within,rest⟩ := single (by omega) p (gainedMember.mpr ⟨below,mid,after⟩)
            exact ⟨i,by omega,by omega,within,rest⟩

theorem reservePagePlain {s : State} {i : Nat} (inside : i < s.allocationTableLength)
    (plain : Plain s i ∨ bitAt s.allocationTable i = true) (spares : Masked s.allocationTable i ∨ i ≤ markedPage i) :
    (∀ p, bitAt (reservePage s i).allocationTable p = true ↔ bitAt s.allocationTable p = true ∨ p = i) ∧
    (reservePage s i).usedPhysicalPages % 2^64 = (s.usedPhysicalPages +
      (gained (64*s.allocationTableLength) s.allocationTable (reservePage s i).allocationTable).card) % 2^64 := by
  have own : Plain s i → markedPage i = i ∧ i % 32 ≠ 31 := by
    rintro ⟨_,half,narrow⟩
    unfold markedPage
    omega
  rcases reservePageDoes s i with ⟨masked,same⟩ | ⟨clear,counted,bits⟩
  · have set : bitAt s.allocationTable i = true := by
      rcases plain with plain | set
      · have mark := markOfMasked (own plain).2 masked
        rwa [(own plain).1] at mark
      · exact set
    rw [same,gainedSelf]
    refine ⟨fun p => ⟨Or.inl,?_⟩,rfl⟩
    rintro (old | rfl)
    · exact old
    · exact set
  · have plain : Plain s i := by
      rcases plain with plain | set
      · exact plain
      · -- A marked page whose mask is clear would be read at an earlier page.
        rcases spares with masked | late
        · exact absurd masked clear
        · have this : markedPage i = i := by
            unfold markedPage at late ⊢
            omega
          rw [← this] at set
          exact absurd (maskedOfMark set) clear
    obtain ⟨here,single⟩ := own plain
    have alone : ∀ p, hits i p = true ↔ p = i := by
      intro p
      constructor
      · intro hit
        rw [hitsAlone single hit,here]
      · rintro rfl
        have hit := hitsOwn p
        rwa [here] at hit
    have gain := (reservePageGains inside clear).2.2 single
    refine ⟨fun p => ?_,?_⟩
    · rw [bits,Bool.or_eq_true,alone]
    · rw [counted,gain,Finset.card_singleton]
      omega

theorem reserveLoopPlain (count index : Nat) (s : State)
    (plain : ∀ i, index ≤ i → i < index+count → i < s.allocationTableLength → Plain s i ∨ bitAt s.allocationTable i = true)
    (spares : ∀ i, index ≤ i → i < index+count → i < s.allocationTableLength → Masked s.allocationTable i ∨ index ≤ markedPage i) :
    (∀ p, bitAt (reserveLoop count index s).allocationTable p = true ↔
      bitAt s.allocationTable p = true ∨ (index ≤ p ∧ p < index+count ∧ p < s.allocationTableLength)) ∧
    (reserveLoop count index s).usedPhysicalPages % 2^64 = (s.usedPhysicalPages +
      (gained (64*s.allocationTableLength) s.allocationTable (reserveLoop count index s).allocationTable).card) % 2^64 := by
  induction count generalizing index s with
  | zero =>
    rw [reserveLoop,gainedSelf]
    refine ⟨fun p => ⟨Or.inl,?_⟩,rfl⟩
    rintro (old | range)
    · exact old
    · omega
  | succ count ih =>
    simp only [reserveLoop]
    split
    · rw [gainedSelf]
      refine ⟨fun p => ⟨Or.inl,?_⟩,rfl⟩
      rintro (old | range)
      · exact old
      · omega
    · rename_i inside
      have inside := Nat.lt_of_not_le inside
      have length := (reservePageFields s index).1
      have grown := reservePageGrown s index
      obtain ⟨bits,counted⟩ := reservePagePlain inside (plain index (Nat.le_refl _) (by omega) inside)
        (spares index (Nat.le_refl _) (by omega) inside)
      have plain' : ∀ i, index+1 ≤ i → i < index+1+count → i < (reservePage s index).allocationTableLength →
          Plain (reservePage s index) i ∨ bitAt (reservePage s index).allocationTable i = true := by
        intro i low high within
        rw [length] at within
        rcases plain i (by omega) (by omega) within with flat | set
        · exact Or.inl ⟨length ▸ flat.1,flat.2⟩
        · exact Or.inr (grown i set)
      have spares' : ∀ i, index+1 ≤ i → i < index+1+count → i < (reservePage s index).allocationTableLength →
          Masked (reservePage s index).allocationTable i ∨ index+1 ≤ markedPage i := by
        intro i low high within
        rw [length] at within
        rcases spares i (by omega) (by omega) within with masked | late
        · exact Or.inl (maskedGrown grown masked)
        · by_cases here : markedPage i = index
          · exact Or.inl (maskedOfMark ((bits _).mpr (Or.inr here)))
          · exact Or.inr (by omega)
      obtain ⟨rest,added⟩ := ih (index+1) (reservePage s index) plain' spares'
      rw [length] at rest added
      have both := gainedCard (n := 64*s.allocationTableLength) grown (reserveLoopGrown count (index+1) (reservePage s index))
      refine ⟨fun p => ?_,?_⟩
      · rw [rest,bits,or_assoc]
        refine or_congr_right ?_
        omega
      · rw [both]
        omega

theorem reserveGainBound {s : State} {address bytes : Nat} (fits : address + bytes < 2^64)
    (exact_ : ∀ p, bitAt (memoryPhysicalReserve s address bytes).allocationTable p = true ↔
      bitAt s.allocationTable p = true ∨ p ∈ covered s address bytes) :
    (gained (64*s.allocationTableLength) s.allocationTable (memoryPhysicalReserve s address bytes).allocationTable).card < 2^64 := by
  have inside : gained (64*s.allocationTableLength) s.allocationTable (memoryPhysicalReserve s address bytes).allocationTable ⊆
      Finset.range ((address+bytes-1)/4096+1) := by
    intro p member
    obtain ⟨_,before,after⟩ := gainedMember.mp member
    rcases (exact_ p).mp after with old | range
    · rw [before] at old
      contradiction
    · have last := (Finset.mem_filter.mp range).2.2.2
      exact Finset.mem_range.mpr (by omega)
  have card := Finset.card_le_card inside
  rw [Finset.card_range] at card
  have few : (address+bytes-1)/4096+1 < 2^64 := by omega
  exact Nat.lt_of_le_of_lt card few

theorem sameCount {used n m : Nat} (same : (used + n) % 2^64 = (used + m) % 2^64) (less : n ≤ m) (few : m < 2^64) : n = m := by
  omega

theorem reserveExact (s : State) {address bytes : Nat} (some : 1 ≤ bytes) (fits : address + bytes < 2^64) :
    ReservesExactly s address bytes ↔ ReservesPlainly s address bytes := by
  obtain ⟨start,stop⟩ := reserveSpan some (show address % 4096 + bytes ≤ 2^64 by omega)
  constructor
  · rintro ⟨bits,counted⟩
    obtain ⟨passes,marks⟩ : ∃ passes, LoopMarks s (reserveCount address bytes) (reserveStart address)
        (memoryPhysicalReserve s address bytes) passes := loopMarks _ _ s
    have few := reserveGainBound fits bits
    -- The count says how often the loop marked, so every mark was a single page.
    have equal : passes = (gained (64*s.allocationTableLength) s.allocationTable
        (memoryPhysicalReserve s address bytes).allocationTable).card := by
      exact sameCount (marks.counted.symm.trans counted) marks.enough few
    have single := marks.single equal
    refine ⟨fun p member => ?_,fun i low high inside => ?_⟩
    · cases before : bitAt s.allocationTable p with
      | true => exact Or.inr rfl
      | false =>
        have below := Finset.mem_range.mp (Finset.mem_filter.mp member).1
        obtain ⟨i,_,_,inside,sign,rfl⟩ := single p (gainedMember.mpr ⟨below,before,(bits p).mpr (Or.inr member)⟩)
        refine Or.inl ⟨?_,?_,?_⟩ <;> unfold markedPage <;> omega
    · by_contra astray
      obtain ⟨clear,early⟩ := not_or.mp astray
      obtain ⟨p,set,hit⟩ := maskedIff.mp (marks.masked i (by omega) (by omega) inside)
      have place := hitsIff.mp hit
      have before := notMasked clear hit
      obtain ⟨k,_,_,_,sign,same⟩ := single p (gainedMember.mpr ⟨by omega,before,set⟩)
      rcases (bits p).mp set with old | range
      · rw [before] at old
        contradiction
      · have low := (Finset.mem_filter.mp range).2.2.1
        unfold markedPage at same early
        omega
  · rintro ⟨covers,spares⟩
    have range : ∀ i, reserveStart address ≤ i → i < reserveStart address + reserveCount address bytes →
        i < 64*s.allocationTableLength → i ∈ covered s address bytes := fun i low high inside =>
      Finset.mem_filter.mpr ⟨Finset.mem_range.mpr inside,some,by omega,by omega⟩
    obtain ⟨bits,counted⟩ := reserveLoopPlain (reserveCount address bytes) (reserveStart address) s
      (fun i low high inside => covers i (range i low high (by omega)))
      (fun i low high inside => start ▸ spares i (by omega) (by omega) inside)
    refine ⟨fun p => (bits p).trans ?_,counted⟩
    constructor
    · rintro (old | ⟨low,high,inside⟩)
      · exact Or.inl old
      · exact Or.inr (range p low high (by omega))
    · rintro (old | member)
      · exact Or.inl old
      · rcases covers p member with plain | old
        · obtain ⟨_,_,low,high⟩ := Finset.mem_filter.mp member
          exact Or.inr ⟨by omega,by omega,plain.1⟩
        · exact Or.inl old

theorem reserveExactFirst : ReservesExactly (memoryPhysicalInitialize (fun _ => 0) 0 (2^18)) 0 4096 := by
  refine (reserveExact _ (by decide) (by decide)).mpr ⟨fun p member => ?_,fun i low high inside => Or.inr (Nat.zero_le _)⟩
  have last := (Finset.mem_filter.mp member).2.2.2
  obtain rfl : p = 0 := by omega
  exact Or.inl ⟨by decide,by decide,by decide⟩

theorem reserveMissesSecond : ¬ ReservesExactly (memoryPhysicalInitialize (fun _ => 0) 0 (2^18)) 4096 4096 := by
  rintro ⟨bits,_⟩
  have member : 1 ∈ covered (memoryPhysicalInitialize (fun _ => 0) 0 (2^18)) 4096 4096 := by decide
  have missed : bitAt (memoryPhysicalReserve (memoryPhysicalInitialize (fun _ => 0) 0 (2^18)) 4096 4096).allocationTable 1 = false := rfl
  have set := (bits 1).mpr (Or.inr member)
  rw [missed] at set
  contradiction

/-! Freeing any address. -/

def FreesExactly (s : State) (address : Nat) : Prop :=
  if address/4096 < 64*s.allocationTableLength ∧ bitAt s.allocationTable (address/4096) = true then
    (∀ p, bitAt (memoryPhysicalFree s address).2.allocationTable p = (bitAt s.allocationTable p && decide (p ≠ address/4096))) ∧
    (memoryPhysicalFree s address).2.usedPhysicalPages = (s.usedPhysicalPages + (2^64 - 1)) % 2^64
  else
    (memoryPhysicalFree s address).2.allocationTable = s.allocationTable ∧
    (memoryPhysicalFree s address).2.usedPhysicalPages = s.usedPhysicalPages

def FreesPlainly (s : State) (address : Nat) : Prop :=
  if address/4096 < 64*s.allocationTableLength ∧ bitAt s.allocationTable (address/4096) = true then
    address/4096 < 2^38 ∧ (address/4096 % 64 < 31 ∨ (address/4096 % 32 = 31 ∧
      ∀ j, 31 ≤ j → j < 64 → j ≠ address/4096 % 64 → (s.allocationTable (address/4096/64)).getLsbD j = false))
  else
    s.allocationTableLength ≤ address/4096/64 % 2^32 ∨ ¬ Masked s.allocationTable (address/4096)

theorem freeDoes (s : State) (address : Nat) :
    ((s.allocationTableLength ≤ address/4096/64 % 2^32 ∨ ¬ Masked s.allocationTable (address/4096)) ∧
      (memoryPhysicalFree s address).2 = s) ∨
    ((address/4096/64 % 2^32 < s.allocationTableLength ∧ Masked s.allocationTable (address/4096)) ∧
      (memoryPhysicalFree s address).2.usedPhysicalPages = (s.usedPhysicalPages + (2^64 - 1)) % 2^64 ∧
      ∀ p, bitAt (memoryPhysicalFree s address).2.allocationTable p = (bitAt s.allocationTable p && !hits (address/4096) p)) := by
  have index : address >>> 12 = address/4096 := Nat.shiftRight_eq_div_pow _ _
  have word : (address/4096) >>> 6 = address/4096/64 := Nat.shiftRight_eq_div_pow _ _
  simp only [memoryPhysicalFree,index,word]
  by_cases outside : s.allocationTableLength ≤ address/4096/64 % 2^32
  · rw [if_pos outside]
    exact Or.inl ⟨Or.inl outside,rfl⟩
  · rw [if_neg outside]
    by_cases masked : Masked s.allocationTable (address/4096)
    · rw [if_pos (show _ &&& _ ≠ _ from masked)]
      refine Or.inr ⟨⟨Nat.lt_of_not_le outside,masked⟩,rfl,fun p => ?_⟩
      unfold hits
      dsimp only
      rw [setWordBit]
      split
      · rename_i same
        rw [BitVec.getLsbD_and,intMaskNotBit _ _ (Nat.mod_lt _ (by decide)),decide_eq_true same,Bool.true_and,← same]
        rfl
      · rename_i other
        rw [decide_eq_false other,Bool.false_and,Bool.not_false,Bool.and_true]
    · rw [if_neg (show ¬ (_ &&& _ ≠ _) from masked)]
      exact Or.inl ⟨Or.inr masked,rfl⟩

theorem clearsAlone {table : Table} {i : Nat} (set : bitAt table i = true) :
    (∀ p, (bitAt table p && !hits i p) = (bitAt table p && decide (p ≠ i))) ↔ i < 2^38 ∧ (i % 64 < 31 ∨ (i % 32 = 31 ∧
      ∀ j, 31 ≤ j → j < 64 → j ≠ i % 64 → (table (i/64)).getLsbD j = false)) := by
  have only : (∀ p, (bitAt table p && !hits i p) = (bitAt table p && decide (p ≠ i))) ↔
      ∀ p, bitAt table p = true → (hits i p = true ↔ p = i) := by
    refine forall_congr' fun p => ?_
    cases bitAt table p with
    | false => simp
    | true =>
      rw [Bool.true_and,Bool.true_and,decide_not,Bool.not_inj_iff,Bool.eq_iff_iff,decide_eq_true_eq]
      exact ⟨fun same _ => same,fun same => same rfl⟩
  rw [only]
  constructor
  · intro alone
    have own := hitsIff.mp ((alone i set).mpr rfl)
    refine ⟨by omega,?_⟩
    by_cases sign : i % 32 = 31
    · refine Or.inr ⟨sign,fun j high inside other => ?_⟩
      have hit : hits i (64*(i/64)+j) = true := by
        rw [hitsIff]
        omega
      rw [← bitPlace table inside]
      cases there : bitAt table (64*(i/64)+j) with
      | false => rfl
      | true =>
        have same := (alone _ there).mp hit
        omega
    · exact Or.inl (by omega)
  · rintro ⟨narrow,place⟩ p there
    rw [hitsIff]
    constructor
    · rintro ⟨word,bit⟩
      by_contra other
      rcases place with low | ⟨sign,alone⟩
      · omega
      · have clear := alone (p % 64) (by omega) (Nat.mod_lt _ (by decide)) (by omega)
        rw [← bitPlace table (Nat.mod_lt _ (by decide)),show 64*(i/64) + p % 64 = p by omega,there] at clear
        contradiction
    · rintro rfl
      omega

theorem freeExact (s : State) (address : Nat) : FreesExactly s address ↔ FreesPlainly s address := by
  unfold FreesExactly FreesPlainly
  split
  · rename_i marked
    obtain ⟨managed,set⟩ := marked
    rw [← clearsAlone set]
    rcases freeDoes s address with ⟨idle,same⟩ | ⟨_,counted,bits⟩
    · -- The call does nothing although the page is marked.
      rw [same]
      constructor
      · rintro ⟨cleared,_⟩
        have this := cleared (address/4096)
        rw [set,decide_eq_false (not_not.mpr rfl)] at this
        contradiction
      · intro alone
        have narrow := ((clearsAlone set).mp alone).1
        have hit := alone (address/4096)
        rw [set,decide_eq_false (not_not.mpr rfl),Bool.true_and,Bool.true_and,Bool.not_eq_false'] at hit
        rcases idle with outside | clear
        · omega
        · exact absurd (maskedIff.mpr ⟨_,set,hit⟩) clear
    · constructor
      · rintro ⟨cleared,_⟩ p
        rw [← bits,cleared]
      · intro alone
        refine ⟨fun p => ?_,counted⟩
        rw [bits,alone]
  · rcases freeDoes s address with ⟨idle,same⟩ | ⟨⟨inside,masked⟩,counted,bits⟩
    · rw [same]
      exact ⟨fun _ => idle,fun _ => ⟨rfl,rfl⟩⟩
    · constructor
      · rintro ⟨same,_⟩
        obtain ⟨p,set,hit⟩ := maskedIff.mp masked
        have there := bits p
        rw [same,set,hit] at there
        contradiction
      · rintro (outside | clear)
        · omega
        · exact absurd masked clear

theorem freeClearsOther : ¬ FreesExactly (memoryPhysicalReserve (memoryPhysicalInitialize (fun _ => 0) 0 (2^18)) 0 4096) (32*4096) := by
  have clear : bitAt (memoryPhysicalReserve (memoryPhysicalInitialize (fun _ => 0) 0 (2^18)) 0 4096).allocationTable (32*4096/4096) = false := rfl
  have used : (memoryPhysicalFree (memoryPhysicalReserve (memoryPhysicalInitialize (fun _ => 0) 0 (2^18)) 0 4096) (32*4096)).2.usedPhysicalPages = 0 := rfl
  have before : (memoryPhysicalReserve (memoryPhysicalInitialize (fun _ => 0) 0 (2^18)) 0 4096).usedPhysicalPages = 1 := rfl
  unfold FreesExactly
  rw [if_neg (by rw [clear]; simp),used,before]
  exact fun both => absurd both.2 (by decide)

end Kokos.PhysicalMemory

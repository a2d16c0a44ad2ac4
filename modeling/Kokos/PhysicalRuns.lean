import Kokos.PhysicalBitmap

/-! Runs of the page allocator after boot: the reservations first, then any mix
of allocate and of free given pages that allocate returned and that are still held. -/
namespace Kokos.PhysicalMemory

inductive Reserved (contents : Nat → BitVec 64) (used total : Nat) : State → Prop where
  | fresh : Reserved contents used total (memoryPhysicalInitialize contents used total)
  | reserve {s} (before : Reserved contents used total s) (address bytes : Nat) :
      Reserved contents used total (memoryPhysicalReserve s address bytes)

inductive Holding (start : State) : State → Finset Nat → Prop where
  | start : Holding start start ∅
  | allocate {s held address s'} (before : Holding start s held)
      (room : ∃ w < s.allocationTableLength, s.allocationTable w ≠ BitVec.allOnes 64)
      (call : memoryPhysicalAllocate s = some (address,s')) : Holding start s' (insert address held)
  | free {s held address} (before : Holding start s held) (member : address ∈ held) :
      Holding start (memoryPhysicalFree s address).2 (held.erase address)

theorem reservedSound {contents used total s} (bound : total ≤ 2^50) (words : 1 ≤ total / 4096 / 64)
    (reserved : Reserved contents used total s) : Sound s := by
  induction reserved with
  | fresh => exact initializeSound contents used total (by omega) words
  | reserve before address bytes ih => exact reserveLoopSound _ _ ih

theorem reservedLength {contents used total s} (reserved : Reserved contents used total s) :
    s.allocationTableLength = total / 4096 / 64 := by
  induction reserved with
  | fresh => rfl
  | reserve before address bytes ih => exact (reserveLoopFields _ _ _).1.trans ih

structure Custody (start s : State) (held : Finset Nat) : Prop where
  sound : Sound s
  words : s.allocationTableLength ≤ 2^32
  page : ∀ address ∈ held, ∃ w < s.allocationTableLength, ∃ b < 32,
    address = pageAddress w b ∧ low s w b = true ∧ low start w b = false
  kept : ∀ w b, b < 32 → low start w b = true → low s w b = true

theorem custodyAllocate {start s s' : State} {held : Finset Nat} {address : Nat}
    (custody : Custody start s held) (done : Allocated s address s') :
    Custody start s' (insert address held) := by
  refine ⟨done.sound,done.length ▸ custody.words,?_,?_⟩
  · intro a member
    rw [done.length]
    rcases Finset.mem_insert.mp member with rfl | old
    · refine ⟨done.word,done.wordInside,done.bit,done.bitInside,done.isAddress,?_,?_⟩
      · rw [done.marked _ _ done.bitInside]; simp
      · cases before : low start done.word done.bit with
        | false => rfl
        | true =>
          have still := custody.kept _ _ done.bitInside before
          rw [done.wasClear] at still
          contradiction
    · obtain ⟨w,hw,b,hb,same,set,clear⟩ := custody.page a old
      exact ⟨w,hw,b,hb,same,by rw [done.marked w b hb,set]; rfl,clear⟩
  · intro w b hb set
    rw [done.marked w b hb,custody.kept w b hb set]
    rfl

theorem custodyFree {start s : State} {held : Finset Nat} {address : Nat}
    (custody : Custody start s held) (member : address ∈ held) :
    (memoryPhysicalFree s address).1 = .cleared ∧
    Custody start (memoryPhysicalFree s address).2 (held.erase address) := by
  obtain ⟨w,hw,b,hb,rfl,set,clear⟩ := custody.page address member
  have words := custody.words
  obtain ⟨branch,length,sound,_,bits⟩ := freeHeld custody.sound (by omega) hw hb set
  refine ⟨branch,sound,length ▸ custody.words,?_,?_⟩
  · intro a old
    obtain ⟨other,inside⟩ := Finset.mem_erase.mp old
    obtain ⟨v,hv,c,hc,rfl,set',clear'⟩ := custody.page a inside
    have different : ¬ (v = w ∧ c = b) := by
      rintro ⟨rfl,rfl⟩
      exact other rfl
    rw [length]
    exact ⟨v,hv,c,hc,rfl,by rw [bits v c hc,set']; simp [different],clear'⟩
  · intro v c hc marked
    have different : ¬ (v = w ∧ c = b) := by
      rintro ⟨rfl,rfl⟩
      rw [clear] at marked
      contradiction
    rw [bits v c hc,custody.kept v c hc marked]
    simp [different]

theorem holdingCustody {start s held} (sound : Sound start) (words : start.allocationTableLength ≤ 2^32) (run : Holding start s held) :
    Custody start s held := by
  induction run with
  | start => exact ⟨sound,words,by simp,fun _ _ _ set => set⟩
  | allocate before room call ih =>
    obtain ⟨done⟩ := allocateSound ih.sound call
    exact custodyAllocate ih done
  | free before member ih => exact (custodyFree ih member).2

theorem freshOfCustody {start s s' : State} {held : Finset Nat} {address : Nat}
    (custody : Custody start s held) (done : Allocated s address s') :
    address ∉ held ∧ pageBit start address = false := by
  have inside := done.bitInside
  constructor
  · intro member
    obtain ⟨w,_,b,hb,same,set,_⟩ := custody.page address member
    obtain ⟨rfl,rfl⟩ := pageAddressInjective (by omega) (by omega) (done.isAddress.symm.trans same)
    rw [done.wasClear] at set
    contradiction
  · rw [done.isAddress,pageBitAddress start _ _ (by omega)]
    cases before : low start done.word done.bit with
    | false => rfl
    | true =>
      have still := custody.kept _ _ inside before
      rw [done.wasClear] at still
      contradiction

theorem custodyReleased {start s : State} {held : Finset Nat} {address : Nat} (custody : Custody start s held) (member : address ∈ held) :
    Released s address (memoryPhysicalFree s address).2 := by
  obtain ⟨w,hw,b,hb,rfl,set,_⟩ := custody.page address member
  have words := custody.words
  exact releasedHeld (by omega) hw hb set

theorem heldPagesExclusive {contents used total start s held} (bound : total ≤ 2^50)
    (words : 1 ≤ total / 4096 / 64) (reserved : Reserved contents used total start)
    (run : Holding start s held) :
    ((∃ w < s.allocationTableLength, s.allocationTable w ≠ BitVec.allOnes 64) →
      ∃ address s', memoryPhysicalAllocate s = some (address,s') ∧ address ∉ held ∧
        pageBit start address = false) ∧
    ∀ address ∈ held, (memoryPhysicalFree s address).1 = .cleared ∧ Released s address (memoryPhysicalFree s address).2 := by
  have few : start.allocationTableLength ≤ 2^32 := by rw [reservedLength reserved]; omega
  have custody := holdingCustody (reservedSound bound words reserved) few run
  constructor
  · intro room
    obtain ⟨address,s',call,⟨done⟩⟩ := allocateReturns custody.sound room
    exact ⟨address,s',call,freshOfCustody custody done⟩
  · exact fun address member => ⟨(custodyFree custody member).1,custodyReleased custody member⟩

theorem heldPagesExclusiveOneWord :
    ∃ s, Holding (memoryPhysicalReserve (memoryPhysicalInitialize (fun _ => 0) 0 (2^18)) 0 4096) s {4096} ∧
      (memoryPhysicalFree s 4096).1 = .cleared ∧ Released s 4096 (memoryPhysicalFree s 4096).2 := by
  have reserved : Reserved (fun _ => 0) 0 (2^18)
      (memoryPhysicalReserve (memoryPhysicalInitialize (fun _ => 0) 0 (2^18)) 0 4096) :=
    .reserve .fresh 0 4096
  have call : ∃ s, memoryPhysicalAllocate
      (memoryPhysicalReserve (memoryPhysicalInitialize (fun _ => 0) 0 (2^18)) 0 4096) = some (4096,s) := ⟨_,rfl⟩
  obtain ⟨s,call⟩ := call
  have run := Holding.allocate .start ⟨0,by decide,by decide⟩ call
  exact ⟨s,run,(heldPagesExclusive (by decide) (by decide) reserved run).2 4096 (by simp)⟩

end Kokos.PhysicalMemory

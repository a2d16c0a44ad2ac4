import Kokos.PhysicalBitmap

/-! What the paging code relies on from memory_physical_allocate, and the bitmap
as one allocator that provides it once page 0 is reserved. -/
namespace Kokos

class PageAllocator (σ : Type) where
  allocate : σ → Option (Nat × σ)
  /-- The page at this address is reserved, held, or not managed at all. -/
  Taken : σ → Nat → Prop
  available : σ → Nat
  isPage {s p s'} : allocate s = some (p,s') → p % 4096 = 0 ∧ 0 < p ∧ p < 2^52
  fresh {s p s'} : allocate s = some (p,s') → ¬ Taken s p ∧ Taken s' p
  keeps {s p s'} : allocate s = some (p,s') → ∀ q, Taken s q → Taken s' q
  spends {s p s'} : allocate s = some (p,s') → available s ≤ available s' + 1
  empty {s} : allocate s = none → available s = 0

namespace PhysicalMemory

/-- A table the kernel runs with: sound, page 0 reserved, and small enough that
page addresses stay below 2^52. -/
structure Bitmap where
  state : State
  sound : Sound state
  nullTaken : low state 0 0 = true
  words : state.allocationTableLength ≤ 2^34

namespace Bitmap

def Free (s : State) (address : Nat) : Prop :=
  ∃ w < s.allocationTableLength, ∃ b < 32, address = pageAddress w b ∧ low s w b = false

def after (b : Bitmap) {p : Nat} {s' : State} (call : memoryPhysicalAllocate b.state = some (p,s')) : Bitmap where
  state := s'
  sound := (allocateSound b.sound call).elim fun done => done.sound
  nullTaken := (allocateSound b.sound call).elim fun done => by
    rw [done.marked 0 0 (by decide),b.nullTaken]; rfl
  words := (allocateSound b.sound call).elim fun done => by rw [done.length]; exact b.words

def allocate (b : Bitmap) : Option (Nat × Bitmap) :=
  match call : memoryPhysicalAllocate b.state with
  | none => none
  | some (p,_) => some (p,b.after call)

theorem allocateSome {b b' : Bitmap} {p : Nat} (h : b.allocate = some (p,b')) :
    memoryPhysicalAllocate b.state = some (p,b'.state) := by
  unfold allocate at h
  split at h
  · contradiction
  · rename_i q s' call
    cases Option.some.inj h
    exact call

theorem allocated {b b' : Bitmap} {p : Nat} (h : b.allocate = some (p,b')) :
    Nonempty (Allocated b.state p b'.state) := allocateSound b.sound (allocateSome h)

theorem allocateNone {b : Bitmap} (h : b.allocate = none) : memoryPhysicalAllocate b.state = none := by
  unfold allocate at h
  split at h
  · assumption
  · contradiction

def available (b : Bitmap) : Nat := (clearBelow b.state (64 * b.state.allocationTableLength)).card

theorem allocatePage {b b' : Bitmap} {p : Nat} (h : b.allocate = some (p,b')) : p % 4096 = 0 ∧ 0 < p ∧ p < 2^52 := by
  obtain ⟨done⟩ := allocated h
  have words := b.words
  have inside := done.wordInside
  have bit := done.bitInside
  have address := done.isAddress
  have positive : 0 < done.word*64+done.bit := by
    by_contra zero
    have word : done.word = 0 := by omega
    have low0 : done.bit = 0 := by omega
    have clear := done.wasClear
    rw [word,low0,b.nullTaken] at clear
    contradiction
  unfold pageAddress at address
  omega

theorem allocateFresh {b b' : Bitmap} {p : Nat} (h : b.allocate = some (p,b')) :
    ¬ ¬ Free b.state p ∧ ¬ Free b'.state p := by
  obtain ⟨done⟩ := allocated h
  refine ⟨fun taken => taken ⟨done.word,done.wordInside,done.bit,done.bitInside,done.isAddress,done.wasClear⟩,?_⟩
  rintro ⟨w,_,c,hc,same,clear⟩
  have bit := done.bitInside
  obtain ⟨rfl,rfl⟩ := pageAddressInjective (by omega) (by omega) (done.isAddress.symm.trans same)
  rw [done.marked _ _ done.bitInside] at clear
  simp at clear

theorem allocateKeeps {b b' : Bitmap} {p : Nat} (h : b.allocate = some (p,b')) (q : Nat) (taken : ¬ Free b.state q) :
    ¬ Free b'.state q := by
  obtain ⟨done⟩ := allocated h
  rintro ⟨w,hw,c,hc,same,clear⟩
  rw [done.length] at hw
  rw [done.marked _ _ hc,Bool.or_eq_false_iff] at clear
  exact taken ⟨w,hw,c,hc,same,clear.1⟩

theorem allocateSpends {b b' : Bitmap} {p : Nat} (h : b.allocate = some (p,b')) : b.available ≤ b'.available + 1 := by
  obtain ⟨done⟩ := allocated h
  have inside := done.wordInside
  have bit := done.bitInside
  have one := allocateClears done (64 * b.state.allocationTableLength) (by omega)
  unfold available
  rw [done.length]
  omega

theorem allocateEmpty {b : Bitmap} (h : b.allocate = none) : b.available = 0 := by
  unfold available
  rw [Finset.card_eq_zero,Finset.eq_empty_iff_forall_notMem]
  intro q member
  simp only [clearBelow,Finset.mem_filter,Finset.mem_range] at member
  have free : ∃ w < b.state.allocationTableLength, b.state.allocationTable w ≠ BitVec.allOnes 64 := by
    refine ⟨q/64,by omega,?_⟩
    intro full
    have clear := member.2.2
    simp only [low,full,BitVec.getLsbD_allOnes,decide_eq_false_iff_not] at clear
    omega
  obtain ⟨_,_,call,_⟩ := allocateReturns b.sound free
  rw [allocateNone h] at call
  contradiction

instance : PageAllocator Bitmap where
  allocate := allocate
  Taken b p := ¬ Free b.state p
  available := available
  isPage := allocatePage
  fresh := allocateFresh
  keeps := allocateKeeps
  spends := allocateSpends
  empty := allocateEmpty

end Bitmap
end PhysicalMemory
end Kokos

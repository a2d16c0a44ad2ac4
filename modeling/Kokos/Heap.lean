import Kokos.ByteMemory
import Kokos.CountedLoops
import Kokos.TransitionRuns

/-! The heap: memory_allocate, memory_free and memory_resize over byte memory that holds
the chunk headers and the blocks. Addresses are numbers that do not wrap; what is
stored in a header is cut to its width. -/
namespace Kokos.Heap
open ByteMemory CountedLoops TransitionRuns

/-! Offsets in struct memory_chunk, and its size. -/
def chunkNext : Nat := 0
def chunkPrevious : Nat := 8
def chunkSize : Nat := 16
def chunkBytes : Nat := 24

def nextOf (m : Memory) (chk : Nat) : Nat := readWord m (chk + chunkNext)
def previousOf (m : Memory) (chk : Nat) : Nat := readWord m (chk + chunkPrevious)
def sizeOf (m : Memory) (chk : Nat) : Int := readInt m (chk + chunkSize)

/-- ALIGN_TO_NEXT(bytes, sizeof(void *)) as an int. -/
def alignToNext (bytes : Int) : Int :=
  ((((BitVec.ofInt 64 (bytes-1)) &&& -8#64) + 8#64).setWidth 32).toInt

def memoryCopy (m : Memory) (source target : Nat) (size : Int) : Memory :=
  countUp size.toNat (fun i m => Function.update m (target+i) (m (source+i))) m

def insertChunk (m : Memory) (chk : Nat) (bytes : Int) : Memory × Nat :=
  let newChunk := (chk + chunkBytes + sizeOf m chk).toNat
  let m := writeInt m (newChunk + chunkSize) bytes
  let m := writeWord m (newChunk + chunkNext) (nextOf m chk)
  let m := writeWord m (newChunk + chunkPrevious) chk
  let m := if nextOf m chk ≠ 0 then writeWord m (nextOf m chk + chunkPrevious) newChunk else m
  let m := writeWord m (chk + chunkNext) newChunk
  (m,newChunk + chunkBytes)

/-- The gap to the next chunk is large enough, in unsigned arithmetic. -/
def Fits (m : Memory) (chk : Nat) (bytes : Int) : Prop :=
  nextOf m chk = 0 ∨ ((bytes + chunkBytes*2) % 2^64).toNat < ((nextOf m chk - (chk + sizeOf m chk)) % 2^64).toNat

instance (m chk bytes) : Decidable (Fits m chk bytes) := by unfold Fits; infer_instance

def allocateFrom : Nat → Memory → Nat → Int → Option (Memory × Nat)
  | 0, _, _, _ => none
  | fuel+1, m, chk, bytes =>
    if chk = 0 then some (m,0)
    else if Fits m chk bytes then some (insertChunk m chk bytes)
    else allocateFrom fuel m (nextOf m chk) bytes

def memoryAllocate (fuel memoryChunk : Nat) (m : Memory) (bytes : Int) : Option (Memory × Nat) :=
  allocateFrom fuel m memoryChunk (alignToNext bytes)

def memoryFree (m : Memory) (pointer : Nat) : Memory :=
  let header := pointer - chunkBytes
  let m := if previousOf m header ≠ 0 then writeWord m (previousOf m header + chunkNext) (nextOf m header) else m
  if nextOf m header ≠ 0 then writeWord m (nextOf m header + chunkPrevious) (previousOf m header) else m

def memoryResize (fuel memoryChunk : Nat) (m : Memory) (pointer : Nat) (bytes : Int) : Option (Memory × Nat) := do
  let bytes := alignToNext bytes
  let header := pointer - chunkBytes
  if nextOf m header = 0 ∨ (nextOf m header : Int) ≤ header + sizeOf m header then
    some (writeInt m (header + chunkSize) bytes,pointer)
  else
    let (m,newPointer) ← memoryAllocate fuel memoryChunk m bytes
    some (memoryFree (memoryCopy m pointer newPointer bytes) pointer,newPointer)

structure State where
  memory : Memory
  live : Nat → Option Nat

inductive Event where
  | allocate (bytes : Int) (pointer : Nat)
  | free (pointer : Nat)
  | resize (pointer : Nat) (bytes : Int) (newPointer : Nat)
  | write (memory : Memory)

def InBlock (s : State) (x : Nat) : Prop := ∃ p n, s.live p = some n ∧ p ≤ x ∧ x < p+n

def Request (bytes : Int) : Prop := 0 ≤ bytes ∧ bytes ≤ 2^31-1 - 7

/-- `pointer` is what the call returned; its block ends within the address space. A client
writes inside live blocks. -/
def step (memoryChunk : Nat) (s : State) : Event → State → Prop
  | .allocate bytes pointer, s' => Request bytes ∧ ∃ fuel memory, memoryAllocate fuel memoryChunk s.memory bytes = some (memory,pointer) ∧
      pointer + alignToNext bytes ≤ 2^64 ∧
      s' = { memory := memory, live := Function.update s.live pointer (some (alignToNext bytes).toNat) }
  | .free pointer, s' => s.live pointer ≠ none ∧
      s' = { memory := memoryFree s.memory pointer, live := Function.update s.live pointer none }
  | .resize pointer bytes newPointer, s' => s.live pointer ≠ none ∧ Request bytes ∧
      ∃ fuel memory, memoryResize fuel memoryChunk s.memory pointer bytes = some (memory,newPointer) ∧
      newPointer + alignToNext bytes ≤ 2^64 ∧
      s' = { memory := memory
             live := Function.update (Function.update s.live pointer none) newPointer (some (alignToNext bytes).toNat) }
  | .write memory, s' => (∀ x, ¬ InBlock s x → memory x = s.memory x) ∧ s' = { s with memory := memory }

structure Started (memoryChunk : Nat) (s : State) : Prop where
  place : 0 < memoryChunk ∧ memoryChunk + chunkBytes ≤ 2^64
  next : nextOf s.memory memoryChunk = 0
  previous : previousOf s.memory memoryChunk = 0
  size : sizeOf s.memory memoryChunk = 0
  live : ∀ p, s.live p = none

def system (memoryChunk : Nat) : System State Event := ⟨Started memoryChunk,step memoryChunk⟩

end Kokos.Heap

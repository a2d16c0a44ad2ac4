import Kokos.WordBits

/-! The page bitmap of memory_physical.c. The table is the run of 64-bit words
from `allocation_table` on; words past its length hold whatever memory holds.
`none` is a call that keeps spinning in its search loop and never returns.
The lock is taken and released inside every call and leaves no trace here. -/
namespace Kokos.PhysicalMemory
open WordBits

structure State where
  allocationTable : Nat → BitVec 64
  allocationIndex : Nat
  allocationTableLength : Nat
  usedPhysicalPages : Nat

def setWord (table : Nat → BitVec 64) (word : Nat) (value : BitVec 64) : Nat → BitVec 64 :=
  fun i => if i = word then value else table i

/-- `contents` is what lies at the table location. `used_physical_pages` is a
static counter that initialize does not touch. -/
def memoryPhysicalInitialize (contents : Nat → BitVec 64) (used totalMemory : Nat) : State :=
  let length := totalMemory / 4096 / 64
  ⟨fun i => if i < length then 0 else contents i,0,length,used⟩

def reserveStart (address : Nat) : Nat := address >>> 12
def reserveCount (address bytes : Nat) : Nat :=
  let bytes := (bytes + address % 4096) % 2^64
  (((bytes + (2^64 - 1)) % 2^64) >>> 12) + 1

def reservePage (s : State) (index : Nat) : State :=
  let byte := (index >>> 6) % 2^32
  let bit := index % 64
  if s.allocationTable byte &&& intMask bit = 0 then
    { s with
      allocationTable := setWord s.allocationTable byte (s.allocationTable byte ||| intMask bit)
      usedPhysicalPages := (s.usedPhysicalPages + 1) % 2^64 }
  else s

def reserveLoop : Nat → Nat → State → State
  | 0, _, s => s
  | count+1, index, s =>
    -- The page index is compared with the number of table words, as the source has it.
    if s.allocationTableLength ≤ index then s
    else reserveLoop count (index+1) (reservePage s index)

def memoryPhysicalReserve (s : State) (address bytes : Nat) : State :=
  reserveLoop (reserveCount address bytes) (reserveStart address) s

inductive FreeOutcome where | invalidAddress | cleared | alreadyFreed
  deriving DecidableEq, Repr

def memoryPhysicalFree (s : State) (address : Nat) : FreeOutcome × State :=
  let index := address >>> 12
  let byte := (index >>> 6) % 2^32
  let bit := index % 64
  if s.allocationTableLength ≤ byte then (.invalidAddress,s)
  else if s.allocationTable byte &&& intMask bit ≠ 0 then
    (.cleared,{ s with
      allocationTable := setWord s.allocationTable byte (s.allocationTable byte &&& intMaskNot bit)
      usedPhysicalPages := (s.usedPhysicalPages + (2^64 - 1)) % 2^64 })
  else (.alreadyFreed,s)

def findWord (table : Nat → BitVec 64) (length : Nat) : Nat → Nat → Option Nat
  | 0, _ => none
  | fuel+1, spot =>
    if table spot = BitVec.allOnes 64 then
      findWord table length fuel (if length ≤ spot+1 then 0 else spot+1)
    else some spot

/-- The search visits at most one word outside the table and then the table's
own words in turn, so a search longer than this never ends. -/
def memoryPhysicalAllocate (s : State) : Option (Nat × State) := do
  let spot ← findWord s.allocationTable s.allocationTableLength (s.allocationTableLength+1) s.allocationIndex
  let bit := scanOnes 64 (s.allocationTable spot) 0
  if 64 ≤ bit then some (0,s)
  else
    some ((((spot <<< 6) + bit) <<< 12) % 2^64,
      { s with
        allocationTable := setWord s.allocationTable spot (s.allocationTable spot ||| intMask bit)
        allocationIndex := spot
        usedPhysicalPages := (s.usedPhysicalPages + 1) % 2^64 })

/-- The search of allocate_consecutive: `chunkCount` empty words in a row. The row is
counted in an unsigned int and starts again where the table does. -/
def findEmptyWords (table : Nat → BitVec 64) (length chunkCount : Nat) : Nat → Nat → Nat → Option Nat
  | 0, _, _ => none
  | fuel+1, spot, consecutive =>
    let row := if table spot = 0 then (consecutive+1) % 2^32 else 0
    if table spot = 0 ∧ chunkCount ≤ row then some ((spot + 2^64 - (row + 2^32 - 1) % 2^32) % 2^64)
    else if length ≤ spot+1 then findEmptyWords table length chunkCount fuel 0 0
    else findEmptyWords table length chunkCount fuel (spot+1) row

def memoryPhysicalAllocateConsecutive (fuel : Nat) (s : State) (pages : Nat) : Option (Nat × State) := do
  let chunkCount := pages >>> 6
  let spot ← findEmptyWords s.allocationTable s.allocationTableLength chunkCount fuel s.allocationIndex 0
  some (((spot <<< 6) <<< 12) % 2^64,
    { s with
      allocationTable := fun i => if spot ≤ i ∧ i < spot+chunkCount then BitVec.allOnes 64 else s.allocationTable i
      allocationIndex := spot + chunkCount })

def memoryPhysicalAllocated (s : State) (address : Nat) : Nat :=
  let index := address >>> 12
  if s.allocationTableLength ≤ index then 1
  else
    let bit := index % 64
    -- The word is the one at the page index, not at `byte`.
    ((s.allocationTable index >>> bit) &&& 1).toNat

def memoryPhysicalUsedPages (s : State) : Nat := s.usedPhysicalPages

def pageBit (s : State) (address : Nat) : Bool :=
  (s.allocationTable (address / 4096 / 64)).getLsbD (address / 4096 % 64)

end Kokos.PhysicalMemory

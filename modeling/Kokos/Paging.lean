import Kokos.ByteMemory
import Kokos.BudgetedCalls
import Kokos.PageAllocator

/-! paging.c. Tables are read and written through physical addresses, as the kernel
does under its identity map; a table pointer may be any 64-bit value, null and
unaligned ones included. A call that asks for a page when none is left, or that
searches a full table for a free entry, never returns. Console output is left out. -/
namespace Kokos.Paging
open ByteMemory BudgetedCalls

/-- Everything paging.c reads or writes. The last three fields are ghost state: the
pages obtained as tables, the pages obtained to be mapped, and the (address, length)
of every access made through a table pointer. -/
structure World (σ : Type) where
  memory : Memory
  allocator : σ
  hugepagesSupported : Bool
  usedVirtualPages : Nat
  tables : List Nat
  frames : List Nat
  accesses : List (Nat × Nat)

structure PagingContext where
  level4Table : Nat
  level3Table : Nat
  level2Table : Nat
  level1Table : Nat
  level4Index : Nat
  level3Index : Nat
  level2Index : Nat
  level1Index : Nat
  deriving DecidableEq, Repr

/- Depth 0 is level 4, the root, and depth 3 is level 1. -/
def PagingContext.table (c : PagingContext) : Nat → Nat
  | 0 => c.level4Table
  | 1 => c.level3Table
  | 2 => c.level2Table
  | _ => c.level1Table

def PagingContext.index (c : PagingContext) : Nat → Nat
  | 0 => c.level4Index
  | 1 => c.level3Index
  | 2 => c.level2Index
  | _ => c.level1Index

def PagingContext.setIndex (c : PagingContext) : Nat → Nat → PagingContext
  | 0, i => { c with level4Index := i }
  | 1, i => { c with level3Index := i }
  | 2, i => { c with level2Index := i }
  | _, i => { c with level1Index := i }

def PagingContext.setTable (c : PagingContext) : Nat → Nat → PagingContext
  | 0, t => { c with level4Table := t }
  | 1, t => { c with level3Table := t }
  | 2, t => { c with level2Table := t }
  | _, t => { c with level1Table := t }

def nullContext (level4Table : Nat) : PagingContext := ⟨level4Table,0,0,0,0,0,0,0⟩

def addressMask : Nat := 0x7FFFFFFFFFFFF000
def entryPresent : Nat := 0b000000001
def entryWritable : Nat := 0b000000010
def entryEveryoneAccess : Nat := 0b000000100
def entrySize : Nat := 0b010000000

def flagRead : Nat := 0b1
def flagWrite : Nat := 0b10
def flagUser : Nat := 0b1000
def flag1GB : Nat := 0b10000
def flag2MB : Nat := 0b100000
def flagReplace : Nat := 0b1000000

def has (flags flag : Nat) : Bool := flags &&& flag ≠ 0

section
variable {σ : Type} [PageAllocator σ]

abbrev Kernel (σ α : Type) := Call (World σ) α

def load (table index : Nat) : Kernel σ Nat := fun w =>
  .ok (readWord w.memory (table+8*index),{ w with accesses := (table+8*index,8) :: w.accesses })

def store (table index value : Nat) : Kernel σ Unit := fun w =>
  .ok ((),{ w with memory := writeWord w.memory (table+8*index) value
                   accesses := (table+8*index,8) :: w.accesses })

def memoryZero (address size : Nat) : Kernel σ Unit := fun w =>
  .ok ((),{ w with memory := zeroBytes w.memory address size, accesses := (address,size) :: w.accesses })

def memoryPhysicalAllocate : Kernel σ Nat := fun w =>
  match PageAllocator.allocate w.allocator with
  | none => .error .exhausted
  | some (page,allocator) => .ok (page,{ w with allocator := allocator })

def recordTable (table : Nat) : Kernel σ Unit := fun w => .ok ((),{ w with tables := table :: w.tables })

def recordFrame (frame : Nat) : Kernel σ Unit := fun w => .ok ((),{ w with frames := frame :: w.frames })

def hugepagesSupported : Kernel σ Bool := fun w => .ok (w.hugepagesSupported,w)

def addUsedPages (pages : Nat) : Kernel σ Unit := fun w =>
  .ok ((),{ w with usedVirtualPages := (w.usedVirtualPages + pages) % 2^64 })

def subUsedPages (pages : Nat) : Kernel σ Unit := fun w =>
  .ok ((),{ w with usedVirtualPages := (w.usedVirtualPages + (2^64 - pages % 2^64)) % 2^64 })

def newTable (parent index : Nat) : Kernel σ Nat := do
  let table ← memoryPhysicalAllocate
  recordTable table
  memoryZero table 4096
  store parent index (table ||| entryWritable ||| entryPresent)
  return table

def enterTable (parent index : Nat) : Kernel σ Nat := do
  let entry ← load parent index
  if entry &&& addressMask = 0 then newTable parent index else return entry &&& addressMask

inductive Mode where | search | map | unmap
  deriving DecidableEq, Repr

def enter (mode : Mode) (parent index : Nat) : Kernel σ (Option Nat) :=
  if mode = .unmap then do
    let entry ← load parent index
    return if entry &&& addressMask = 0 then none else some (entry &&& addressMask)
  else do
    let table ← enterTable parent index
    return some table

/-- The nested increments of the search, map and unmap loops. Past level-4 slot 511
the search goes on at slot 0; the other loops report failure. -/
def next (mode : Mode) : Nat → PagingContext → Kernel σ (Bool × PagingContext)
  | 0, c =>
    if c.level4Index+1 < 512 then pure (true,{ c with level4Index := c.level4Index+1 })
    else if mode = .search then pure (true,{ c with level4Index := 0 })
    else pure (false,{ c with level4Index := c.level4Index+1 })
  | d+1, c =>
    if c.index (d+1) + 1 < 512 then pure (true,c.setIndex (d+1) (c.index (d+1) + 1))
    else do
      let (ok,c) ← next mode d (c.setIndex (d+1) (c.index (d+1) + 1))
      if ok then
        let entered ← enter mode (c.table d) (c.index d)
        match entered with
        | some table => pure (true,(c.setIndex (d+1) 0).setTable (d+1) table)
        | none => pure (false,c.setIndex (d+1) 0)
      else pure (false,c)

/-- The carry of the 1 GiB map loop, which takes the level-4 entry as the level-3
table without masking off its flags. -/
def nextUnmasked (c : PagingContext) : Kernel σ (Bool × PagingContext) :=
  if c.level3Index+1 < 512 then pure (true,{ c with level3Index := c.level3Index+1 })
  else if c.level4Index+1 < 512 then do
    let entry ← load c.level4Table (c.level4Index+1)
    let table ← if entry = 0 then newTable c.level4Table (c.level4Index+1) else pure entry
    pure (true,{ c with level4Index := c.level4Index+1, level3Index := 0, level3Table := table })
  else pure (false,{ c with level4Index := c.level4Index+1, level3Index := c.level3Index+1 })

def findEmpty (depth : Nat) : Nat → PagingContext → Kernel σ PagingContext
  | 0, _ => throw .spinning
  | fuel+1, c => do
    let entry ← load (c.table depth) (c.index depth)
    if entry = 0 then return c
    else
      let (_,c) ← next .search depth c
      findEmpty depth fuel c

def openTable (depth : Nat) (c : PagingContext) : Kernel σ PagingContext := do
  let table ← newTable (c.table depth) (c.index depth)
  return (c.setIndex (depth+1) 0).setTable (depth+1) table

/-- Number of units of `2^shift` bytes: `((bytes - 1) >> shift) + 1`. -/
def units (bytes shift : Nat) : Nat := (((bytes + (2^64 - 1)) % 2^64) >>> shift) + 1

def openLevel1 (c : PagingContext) (flags : Nat) : Kernel σ PagingContext :=
  if has flags flag2MB then pure c else openTable 2 c

def openLevel2 (c : PagingContext) (flags : Nat) : Kernel σ PagingContext :=
  if has flags flag1GB then pure c
  else do
    let c ← openTable 1 c
    openLevel1 c flags

def pagingIndexFindSpot (fuel : Nat) (c : PagingContext) (bytes flags : Nat) : Kernel σ (Bool × PagingContext) :=
  if bytes = 0 then pure (false,c)
  else if bytes ≤ 512*4096 ∧ c.level2Table ≠ 0 ∧ has flags flag1GB = false then
    if c.level1Index + units bytes 12 > 512 ∨ c.level1Table = 0 then do
      let c ← findEmpty 2 fuel c
      let c ← openLevel1 c flags
      return (true,c)
    else pure (true,c)
  else if bytes ≤ 512*512*4096 ∧ c.level3Table ≠ 0 then
    if c.level2Index + units bytes 21 > 512 ∨ c.level2Table = 0 then do
      let c ← findEmpty 1 fuel c
      let c ← openLevel2 c flags
      return (true,c)
    else pure (true,c)
  else if bytes ≤ 512*512*512*4096 then
    if c.level3Index + units bytes 30 > 512 ∨ c.level3Table = 0 then do
      let c ← findEmpty 0 fuel c
      let c ← openTable 0 c
      let c ← openLevel2 c flags
      return (true,c)
    else pure (true,c)
  else if c.level4Index + units bytes 39 > 512 then pure (false,c)
  else pure (true,c)

def pagingConvertFlags (flags : Nat) : Nat :=
  entryPresent ||| (if has flags flagWrite then entryWritable ||| entryPresent else 0) |||
    (if has flags flagUser then entryEveryoneAccess else 0)

def mapLoop (put : Nat → PagingContext → Kernel σ Unit)
    (step : PagingContext → Kernel σ (Bool × PagingContext)) :
    Nat → Nat → PagingContext → Kernel σ (Bool × PagingContext)
  | 0, _, c => pure (true,c)
  | pages+1, i, c => do
    put i c
    let (ok,c) ← step c
    if ok then mapLoop put step pages (i+1) c else pure (false,c)

def countedLoop (put : Nat → PagingContext → Kernel σ Unit)
    (step : PagingContext → Kernel σ (Bool × PagingContext)) (pages weight : Nat) (c : PagingContext) :
    Kernel σ (Bool × PagingContext) := do
  let (ok,c) ← mapLoop put step pages 0 c
  if ok then
    addUsedPages (pages*weight)
    return (true,c)
  else return (false,c)

def physicalEntry (depth physical entryFlags i : Nat) : Nat :=
  ((physical + 4096*512^(3-depth)*i) % 2^64 &&& addressMask) ||| entryFlags |||
    (if depth < 3 then entrySize else 0)

def putPhysical (depth physical entryFlags i : Nat) (c : PagingContext) : Kernel σ Unit :=
  store (c.table depth) (c.index depth) (physicalEntry depth physical entryFlags i)

def putAllocated (entryFlags : Nat) (_i : Nat) (c : PagingContext) : Kernel σ Unit := do
  let page ← memoryPhysicalAllocate
  store c.level1Table c.level1Index ((page &&& addressMask) ||| entryFlags)
  recordFrame page

def pagingMapIndexPhysical (physical : Nat) (c : PagingContext) (bytes flags : Nat) :
    Kernel σ (Bool × PagingContext) :=
  -- The parameter is an unsigned short.
  let flags := flags % 2^16
  let entryFlags := pagingConvertFlags flags
  if bytes = 0 then pure (false,c)
  else do
    let entry3 ← load c.level3Table c.level3Index
    if has entry3 entrySize ∨ has flags flag1GB then
      let huge ← hugepagesSupported
      if huge = false then return (false,c)
      else if physical &&& 0x3FFFFFFF ≠ 0 then return (false,c)
      else
        let entry ← load c.level3Table c.level3Index
        if entry ≠ 0 ∧ has flags flagReplace = false then return (false,c)
        else countedLoop (putPhysical 1 physical entryFlags) nextUnmasked (units bytes 30) (512*512) c
    else
      let entry2 ← load c.level2Table c.level2Index
      if has entry2 entrySize ∨ has flags flag2MB then
        if physical &&& 0x1FFFFF ≠ 0 then return (false,c)
        else
          let entry ← load c.level2Table c.level2Index
          if entry ≠ 0 ∧ has flags flagReplace = false then return (false,c)
          else countedLoop (putPhysical 2 physical entryFlags) (next .map 2) (units bytes 21) 512 c
      else
        let entry ← load c.level1Table c.level1Index
        if entry ≠ 0 then return (false,c)
        else if physical &&& 0xFFF ≠ 0 then return (false,c)
        else countedLoop (putPhysical 3 physical entryFlags) (next .map 3) (units bytes 12) 1 c

/-- The two huge-page loops are not implemented
in the source and report failure in their first pass. -/
def pagingMapIndexCurrent (c : PagingContext) (bytes flags : Nat) : Kernel σ (Bool × PagingContext) :=
  let flags := flags % 2^16
  let entryFlags := pagingConvertFlags flags
  if bytes = 0 then pure (false,c)
  else do
    let entry3 ← load c.level3Table c.level3Index
    if has entry3 entrySize ∨ has flags flag1GB then
      let huge ← hugepagesSupported
      if huge = false then return (false,c)
      else
        let _ ← load c.level3Table c.level3Index
        return (false,c)
    else
      let entry2 ← load c.level2Table c.level2Index
      if has entry2 entrySize ∨ has flags flag2MB then
        let _ ← load c.level2Table c.level2Index
        return (false,c)
      else
        let entry ← load c.level1Table c.level1Index
        if entry ≠ 0 then return (false,c)
        else countedLoop (putAllocated entryFlags) (next .map 3) (units bytes 12) 1 c

def digit (address shift : Nat) : Nat := (address >>> shift) &&& 0b111111111

/-- As enterTable, except that a new level-1 table is linked at the level-3 index,
as the source has it. -/
def enterLevel1 (parent index level3Index : Nat) : Kernel σ Nat := do
  let entry ← load parent index
  if entry &&& addressMask = 0 then newTable parent level3Index else return entry &&& addressMask

/-- The walk to the tables of an address. Fields the source leaves unset start at
zero here; none of them is read before it is set. -/
def pagingVirtualAddressToIndex (level4Table address flags : Nat) : Kernel σ (Bool × PagingContext) := do
  let c := { nullContext level4Table with level4Index := digit address 39 }
  let table3 ← enterTable level4Table (digit address 39)
  let c := { c with level3Table := table3, level3Index := digit address 30 }
  if has flags flag1GB then return (decide (address &&& 0x3FFFFFFF = 0),c)
  else
    let table2 ← enterTable table3 (digit address 30)
    let c := { c with level2Table := table2, level2Index := digit address 21 }
    if has flags flag2MB then return (decide (address &&& 0x1FFFFF = 0),c)
    else
      let table1 ← enterLevel1 table2 (digit address 21) (digit address 30)
      return (decide (address &&& 0xFFF = 0),{ c with level1Table := table1, level1Index := digit address 12 })

def PagingContext.address (c : PagingContext) : Nat :=
  (c.level1Index <<< 12) ||| (c.level2Index <<< 21) ||| (c.level3Index <<< 30) ||| (c.level4Index <<< 39)

def mapAtSpot (map : PagingContext → Kernel σ (Bool × PagingContext)) (fuel : Nat) (c : PagingContext)
    (bytes flags : Nat) : Kernel σ (Nat × PagingContext) := do
  let (found,c) ← pagingIndexFindSpot fuel c bytes flags
  if found then
    let address := c.address
    let (ok,c) ← map c
    return (if ok then address else 0,c)
  else return (0,c)

def pagingMapPhysical (fuel : Nat) (c : PagingContext) (physical bytes flags : Nat) :
    Kernel σ (Nat × PagingContext) :=
  mapAtSpot (fun c => pagingMapIndexPhysical physical c bytes flags) fuel c bytes flags

def pagingMap (fuel : Nat) (c : PagingContext) (bytes flags : Nat) : Kernel σ (Nat × PagingContext) :=
  mapAtSpot (fun c => pagingMapIndexCurrent c bytes flags) fuel c bytes flags

def mapAtAddress (map : PagingContext → Kernel σ (Bool × PagingContext)) (c : PagingContext)
    (address flags : Nat) : Kernel σ Nat := do
  let (found,index) ← pagingVirtualAddressToIndex c.level4Table address flags
  if found then
    let (ok,_) ← map index
    return if ok then address else 0
  else return 0

def pagingMapPhysicalAt (c : PagingContext) (physical address bytes flags : Nat) : Kernel σ Nat :=
  mapAtAddress (fun index => pagingMapIndexPhysical physical index bytes flags) c address flags

def pagingMapAt (c : PagingContext) (address bytes flags : Nat) : Kernel σ Nat :=
  mapAtAddress (fun index => pagingMapIndexCurrent index bytes flags) c address flags

def unmapLoop (depth pages weight : Nat) (c : PagingContext) : Kernel σ Bool := do
  let (ok,_) ← mapLoop (fun _ c => store (c.table depth) (c.index depth) 0) (next .unmap depth) pages 0 c
  if ok then
    subUsedPages (pages*weight)
    return true
  else return false

def pagingUnmap (c : PagingContext) (address bytes : Nat) : Kernel σ Bool := do
  let c := { nullContext c.level4Table with level4Index := digit address 39 }
  let entry4 ← load c.level4Table c.level4Index
  if entry4 = 0 then return false
  else
    let c := { c with level3Table := entry4 &&& addressMask, level3Index := digit address 30 }
    let entry3 ← load c.level3Table c.level3Index
    if entry3 = 0 then return false
    else if has entry3 entrySize then
      if address &&& 0x3FFFFFFF ≠ 0 then return false
      else unmapLoop 1 (units bytes 30) (512*512) c
    else
      let c := { c with level2Table := entry3 &&& addressMask, level2Index := digit address 21 }
      let entry2 ← load c.level2Table c.level2Index
      if entry2 = 0 then return false
      else if has entry2 entrySize then
        if address &&& 0x1FFFFF ≠ 0 then return false
        else unmapLoop 2 (units bytes 21) 512 c
      else
        let c := { c with level1Table := entry2 &&& addressMask, level1Index := digit address 12 }
        let entry1 ← load c.level1Table c.level1Index
        if entry1 = 0 then return false
        else if address &&& 0xFFF ≠ 0 then return false
        else unmapLoop 3 (units bytes 12) 1 c

end

def pagingGetPhysicalAddress (m : Memory) (level4Table address : Nat) : Nat :=
  let entry4 := readWord m (level4Table + 8*digit address 39)
  if entry4 = 0 then 0
  else
    let entry3 := readWord m ((entry4 &&& addressMask) + 8*digit address 30)
    if entry3 = 0 then 0
    else if has entry3 entrySize then (entry3 &&& 0xFFFFFFFFFF000) + (address &&& 0x3FFFFFFF)
    else
      let entry2 := readWord m ((entry3 &&& addressMask) + 8*digit address 21)
      if entry2 = 0 then 0
      else if has entry2 entrySize then (entry2 &&& 0xFFFFFFFFFF000) + (address &&& 0x1FFFFF)
      else
        let entry1 := readWord m ((entry2 &&& addressMask) + 8*digit address 12)
        if entry1 = 0 then 0 else (entry1 &&& 0xFFFFFFFFFF000) + (address &&& 0b111111111111)

end Kokos.Paging

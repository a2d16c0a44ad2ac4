import Kokos.PhysicalBitmap

/-! kernel_main from the memory map to the last reservation. Entries are taken as
read; sums of 64-bit fields wrap as the source computes them. -/
namespace Kokos.BootMemory
open PhysicalMemory

structure Entry where
  address : BitVec 64
  length : BitVec 64
  type : BitVec 32
  deriving DecidableEq, Repr

def kernelBaseAddress : Nat := 0x100000
def kernelSize : Nat := 0x100000

def Entry.stop (e : Entry) : Nat := (e.address.toNat + e.length.toNat) % 2^64

def maxMemoryAddress (entries : List Entry) : Nat :=
  entries.foldl (fun max e => if e.type = 1 then (if max < e.stop then e.stop else max) else max) 0

def allocationTableSize (entries : List Entry) : Nat := maxMemoryAddress entries / 4096 / 8

def noSpot : Nat := 0xFFFFFFFF

def placeTable (size : Nat) : List Entry → Nat
  | [] => noSpot
  | e::rest =>
    if e.type = 1 ∧ size ≤ e.length.toNat ∧ 0x00100000 ≤ e.address.toNat then
      if kernelBaseAddress ≤ (e.address.toNat + size) % 2^64 ∧ e.address.toNat < kernelBaseAddress + kernelSize then
        if e.stop ≤ kernelBaseAddress + kernelSize then placeTable size rest
        else kernelBaseAddress + kernelSize
      else e.address.toNat
    else placeTable size rest

def allocationTableStart (entries : List Entry) : Nat := placeTable (allocationTableSize entries) entries

/-- The memory part of `kernel_main`; `none` is the fatal branch. `contents` is
what the words at the chosen table location hold before they are cleared. -/
def kernelMainMemory (contents : Nat → BitVec 64) (entries : List Entry) : Option State :=
  let start := allocationTableStart entries
  if start = noSpot then none
  else
    let s := memoryPhysicalInitialize contents 0 (maxMemoryAddress entries)
    let s := memoryPhysicalReserve s start (allocationTableSize entries)
    let s := memoryPhysicalReserve s 0 0x000FFFFF
    let s := memoryPhysicalReserve s kernelBaseAddress kernelSize
    some (entries.foldl (fun s e =>
      if e.type ≠ 1 then memoryPhysicalReserve s e.address.toNat e.length.toNat else s) s)

def reservations (entries : List Entry) : List (Nat × Nat) :=
  (allocationTableStart entries,allocationTableSize entries) :: (0,0x000FFFFF) ::
    (kernelBaseAddress,kernelSize) ::
    (entries.filter (fun e => e.type ≠ 1)).map (fun e => (e.address.toNat,e.length.toNat))

def tableWords (entries : List Entry) : Nat := maxMemoryAddress entries / 4096 / 64

def Overlaps (p start bytes : Nat) : Prop := 0 < bytes ∧ start < (p+1)*4096 ∧ p*4096 < start+bytes

def InsideUsable (entries : List Entry) (p : Nat) : Prop :=
  ∃ e ∈ entries, e.type = 1 ∧ e.address.toNat ≤ p*4096 ∧ (p+1)*4096 ≤ e.address.toNat + e.length.toNat

def ClearOfReserved (entries : List Entry) (p : Nat) : Prop :=
  ¬ Overlaps p (allocationTableStart entries) (allocationTableSize entries) ∧
  ∀ e ∈ entries, e.type ≠ 1 → ¬ Overlaps p e.address.toNat e.length.toNat

def Usable (entries : List Entry) (p : Nat) : Prop :=
  InsideUsable entries p ∧ 0x100000 ≤ p*4096 ∧ ¬ Overlaps p kernelBaseAddress kernelSize ∧
  ClearOfReserved entries p

inductive Allocations (start : State) : State → List Nat → Prop where
  | start : Allocations start start []
  | allocate {s pages address s'} (before : Allocations start s pages)
      (call : memoryPhysicalAllocate s = some (address,s')) :
      Allocations start s' (address / 4096 :: pages)

def Marked (entries : List Entry) (p : Nat) : Prop :=
  ∃ r ∈ reservations entries, ∃ q, reserveStart r.1 ≤ q ∧ q < reserveStart r.1 + reserveCount r.1 r.2 ∧
    q < tableWords entries ∧ p / 64 = q / 64 % 2^32 ∧ p % 64 = q % 32

/-- The maps on which the allocator hands out usable pages only. The reservations
reach the page indices below the number of table words, not below the number of
pages; so the words must reach past the kernel image, everything above them must
be usable already, and a hole below them must be reached by some reservation. -/
structure MapSupported (entries : List Entry) : Prop where
  words : 480 ≤ tableWords entries
  above : ∀ p, tableWords entries ≤ p → p < 64 * tableWords entries → p % 64 < 32 →
    InsideUsable entries p ∧ ClearOfReserved entries p
  below : ∀ p, 512 ≤ p → p < tableWords entries → p % 64 < 32 → ¬ Marked entries p →
    InsideUsable entries p ∧ ClearOfReserved entries p

/-! The bitmap after the reservations. -/

theorem reserveAllLow {s : State} (sound : Sound s) (ranges : List (Nat × Nat)) (w b : Nat) (hb : b < 32) :
    Sound (ranges.foldl (fun s r => memoryPhysicalReserve s r.1 r.2) s) ∧
    (ranges.foldl (fun s r => memoryPhysicalReserve s r.1 r.2) s).allocationTableLength = s.allocationTableLength ∧
    (ranges.foldl (fun s r => memoryPhysicalReserve s r.1 r.2) s).allocationIndex = s.allocationIndex ∧
    (low (ranges.foldl (fun s r => memoryPhysicalReserve s r.1 r.2) s) w b = true ↔ low s w b = true ∨
      ∃ r ∈ ranges, ∃ q, reserveStart r.1 ≤ q ∧ q < reserveStart r.1 + reserveCount r.1 r.2 ∧
        q < s.allocationTableLength ∧ w = q / 64 % 2^32 ∧ b = q % 32) := by
  induction ranges generalizing s with
  | nil => exact ⟨sound,rfl,rfl,by simp⟩
  | cons r rest ih =>
    have fields := reserveLoopFields (reserveCount r.1 r.2) (reserveStart r.1) s
    have step := reserveLoopLow (reserveCount r.1 r.2) (reserveStart r.1) sound w b hb
    obtain ⟨hs,hl,hi,hm⟩ := ih (reserveLoopSound (reserveCount r.1 r.2) (reserveStart r.1) sound)
    refine ⟨hs,hl.trans fields.1,hi.trans fields.2,hm.trans ?_⟩
    rw [step,fields.1]
    simp only [List.mem_cons,exists_eq_or_imp,or_assoc]

theorem reserveEntries (entries : List Entry) (s : State) :
    entries.foldl (fun s e => if e.type ≠ 1 then memoryPhysicalReserve s e.address.toNat e.length.toNat else s) s =
    ((entries.filter (fun e => e.type ≠ 1)).map (fun e => (e.address.toNat,e.length.toNat))).foldl
      (fun s r => memoryPhysicalReserve s r.1 r.2) s := by
  induction entries generalizing s with
  | nil => rfl
  | cons e rest ih =>
    by_cases usable : e.type = 1
    · simp only [List.foldl_cons,usable,ne_eq,not_true_eq_false,if_false,ih,List.filter_cons,
        decide_false,Bool.false_eq_true]
    · simp only [List.foldl_cons,ne_eq,usable,not_false_eq_true,if_true,ih,List.filter_cons,
        decide_true,List.map_cons]

theorem bootFold {contents entries s} (boot : kernelMainMemory contents entries = some s) :
    s = (reservations entries).foldl (fun s r => memoryPhysicalReserve s r.1 r.2)
      (memoryPhysicalInitialize contents 0 (maxMemoryAddress entries)) := by
  simp only [kernelMainMemory] at boot
  split at boot <;> try contradiction
  rw [← Option.some.inj boot,reserveEntries]
  simp only [reservations,List.foldl_cons]

theorem maxMemoryAddressBound (entries : List Entry) : maxMemoryAddress entries < 2^64 := by
  have general : ∀ (xs : List Entry) (m : Nat), m < 2^64 →
      xs.foldl (fun max e => if e.type = 1 then (if max < e.stop then e.stop else max) else max) m < 2^64 := by
    intro xs
    induction xs with
    | nil => exact fun m hm => hm
    | cons e rest ih =>
      intro m hm
      apply ih
      have : e.stop < 2^64 := Nat.mod_lt _ (by decide)
      dsimp only
      split
      · split <;> assumption
      · exact hm
  exact general entries 0 (by decide)

theorem bootState {contents entries s} (boot : kernelMainMemory contents entries = some s)
    (words : 1 ≤ tableWords entries) :
    Sound s ∧ s.allocationTableLength = tableWords entries ∧ s.allocationIndex = 0 ∧
    ∀ w b, w < tableWords entries → b < 32 → (low s w b = true ↔ Marked entries (w*64+b)) := by
  have bound := maxMemoryAddressBound entries
  have sound := initializeSound contents 0 (maxMemoryAddress entries) (by omega) words
  have fold := bootFold boot
  have any := reserveAllLow sound (reservations entries) 0 0 (by decide)
  refine ⟨fold ▸ any.1,fold ▸ any.2.1,fold ▸ any.2.2.1,?_⟩
  intro w b hw hb
  have bits := (reserveAllLow sound (reservations entries) w b hb).2.2.2
  rw [← fold] at bits
  have clear : low (memoryPhysicalInitialize contents 0 (maxMemoryAddress entries)) w b = false := by
    have inside : w < maxMemoryAddress entries / 4096 / 64 := hw
    simp [low,memoryPhysicalInitialize,inside]
  have word : (w*64+b) / 64 = w := by omega
  have bit : (w*64+b) % 64 = b := by omega
  simp only [bits,clear,Marked,word,bit,Bool.false_eq_true,false_or]
  rfl

/-! Which pages a run of allocate calls reaches. -/

def Front (s : State) : Prop := ∀ w < s.allocationIndex, ∀ b < 32, low s w b = true

theorem allocateLowest {s : State} (sound : Sound s) (front : Front s) {w b : Nat}
    (hw : w < s.allocationTableLength) (hb : b < 32) (clear : low s w b = false) :
    ∃ address s', memoryPhysicalAllocate s = some (address,s') ∧ ∃ done : Allocated s address s',
      done.word*64+done.bit ≤ w*64+b ∧ Front s' := by
  have free : s.allocationTable w ≠ BitVec.allOnes 64 := by
    intro full
    simp only [low,full,BitVec.getLsbD_allOnes,decide_eq_false_iff_not] at clear
    omega
  have ahead : s.allocationIndex ≤ w := by
    by_contra behind
    have set := front w (by omega) b hb
    rw [clear] at set
    contradiction
  obtain ⟨k,hk,full,here,found⟩ := findWordFirst s.allocationTable _ _ w sound.inside hw free
  have near : s.allocationIndex+k ≤ w := by
    by_contra far
    have h := full (w-s.allocationIndex) (by omega)
    rw [Nat.add_sub_cancel' ahead,Nat.mod_eq_of_lt hw] at h
    exact free h
  have straight : (s.allocationIndex+k) % s.allocationTableLength = s.allocationIndex+k :=
    Nat.mod_eq_of_lt (by omega)
  rw [straight] at here found
  obtain ⟨address,s',call,done,word⟩ := allocateAt sound (by omega) here (found _ (by omega))
  refine ⟨address,s',call,done,?_,?_⟩
  · have inside := done.bitInside
    by_cases last : done.word = w
    · have least : done.bit ≤ b := by
        by_contra above
        have set := done.lowest b (by omega)
        rw [last,clear] at set
        contradiction
      omega
    · omega
  · intro v hv c hc
    rw [done.index] at hv
    rw [done.marked v c hc]
    have before : low s v c = true := by
      by_cases old : v < s.allocationIndex
      · exact front v old c hc
      · have h := full (v-s.allocationIndex) (by omega)
        rw [Nat.add_sub_cancel' (by omega),Nat.mod_eq_of_lt (by omega)] at h
        simp only [low,h,BitVec.getLsbD_allOnes,decide_eq_true_eq]
        omega
    simp [before]

theorem reaches (start : State) (n : Nat) : ∀ (s : State) (pages : List Nat), Allocations start s pages →
    Sound s → Front s → ∀ p, p / 64 < s.allocationTableLength → p % 64 < 32 →
    low s (p/64) (p%64) = false → (clearBelow s p).card = n →
    ∃ s' pages', Allocations start s' pages' ∧ p ∈ pages' := by
  induction n using Nat.strong_induction_on with
  | _ n ih =>
    intro s pages run sound front p inside lower clear count
    obtain ⟨address,s',call,done,least,front'⟩ := allocateLowest sound front inside lower clear
    have page : address / 4096 = done.word*64+done.bit := by
      have h := done.isAddress
      unfold pageAddress at h
      omega
    have next := Allocations.allocate run call
    by_cases same : done.word*64+done.bit = p
    · exact ⟨s',_,next,by rw [page,same]; exact List.mem_cons_self⟩
    · have bit := done.bitInside
      have other : ¬ (p / 64 = done.word ∧ p % 64 = done.bit) := by omega
      have fewer : (clearBelow s' p).card < n := by
        have one := allocateClears done p (by omega)
        omega
      exact ih _ fewer s' _ next done.sound front' p (by rw [done.length]; exact inside) lower
        (by rw [done.marked _ _ lower,clear]; simp [other]) rfl

theorem returnedWasClear {start s : State} {pages : List Nat} (sound : Sound start)
    (run : Allocations start s pages) : Sound s ∧ s.allocationTableLength = start.allocationTableLength ∧
    (∀ w b, b < 32 → low start w b = true → low s w b = true) ∧
    ∀ p ∈ pages, p / 64 < start.allocationTableLength ∧ p % 64 < 32 ∧ low start (p/64) (p%64) = false := by
  induction run with
  | start => exact ⟨sound,rfl,fun _ _ _ h => h,by simp⟩
  | @allocate t earlier address t' before call ih =>
    obtain ⟨hs,hl,kept,old⟩ := ih
    obtain ⟨done⟩ := allocateSound hs call
    refine ⟨done.sound,done.length.trans hl,?_,?_⟩
    · intro w b hb set
      rw [done.marked w b hb,kept w b hb set]
      rfl
    · intro p member
      rcases List.mem_cons.mp member with rfl | before
      · have bit := done.bitInside
        have h := done.isAddress
        have word := done.wordInside
        unfold pageAddress at h
        have hw : address / 4096 / 64 = done.word := by omega
        have hb : address / 4096 % 64 = done.bit := by omega
        rw [hw,hb,← hl]
        refine ⟨word,bit,?_⟩
        cases set : low start done.word done.bit with
        | false => rfl
        | true =>
          have still := kept _ _ bit set
          rw [done.wasClear] at still
          contradiction
      · exact old p before

/-! The boot-time guarantee. -/

theorem markedBelow {entries : List Entry} {p : Nat} (lower : p % 64 < 32) (marked : Marked entries p) :
    p < tableWords entries := by
  obtain ⟨r,_,q,_,_,inside,word,bit⟩ := marked
  omega

theorem spanMarks {entries : List Entry} {p : Nat} {r : Nat × Nat} (member : r ∈ reservations entries)
    (lower : p % 64 < 32) (first : reserveStart r.1 ≤ p) (last : p < reserveStart r.1 + reserveCount r.1 r.2)
    (inside : p < tableWords entries) (small : p < 2^38) : Marked entries p :=
  ⟨r,member,p,first,last,inside,by omega,by omega⟩

theorem lowPagesMarked {entries : List Entry} (words : 480 ≤ tableWords entries) {p : Nat} (small : p < 512)
    (lower : p % 64 < 32) : Marked entries p := by
  have megabyte : reserveStart 0 = 0 ∧ reserveCount 0 0x000FFFFF = 256 := by decide
  have kernel : reserveStart kernelBaseAddress = 256 ∧ reserveCount kernelBaseAddress kernelSize = 256 := by decide
  by_cases first : p < 256
  · exact spanMarks (r := (0,0x000FFFFF)) (by simp [reservations]) lower
      (by simp only [megabyte]; omega) (by simp only [megabyte]; omega) (by omega) (by omega)
  · exact spanMarks (r := (kernelBaseAddress,kernelSize)) (by simp [reservations]) lower
      (by simp only [kernel]; omega) (by simp only [kernel]; omega) (by omega) (by omega)

theorem unmarkedUsable {entries : List Entry} (supported : MapSupported entries) {p : Nat}
    (inside : p < 64 * tableWords entries) (lower : p % 64 < 32) (unmarked : ¬ Marked entries p) :
    Usable entries p := by
  have high : 512 ≤ p := by
    by_contra small
    exact unmarked (lowPagesMarked supported.words (by omega) lower)
  have rest : InsideUsable entries p ∧ ClearOfReserved entries p := by
    by_cases above : tableWords entries ≤ p
    · exact supported.above p above inside lower
    · exact supported.below p high (by omega) lower unmarked
  refine ⟨rest.1,by omega,?_,rest.2⟩
  rintro ⟨_,_,h⟩
  unfold kernelBaseAddress kernelSize at h
  omega

theorem usableHigh {entries : List Entry} {p : Nat} (usable : Usable entries p) : 512 ≤ p := by
  obtain ⟨_,megabyte,kernel,_⟩ := usable
  by_contra small
  exact kernel ⟨by decide,by unfold kernelBaseAddress; omega,by unfold kernelBaseAddress kernelSize; omega⟩

/-- If every unmarked page is usable then the words reach past the kernel image:
otherwise one of its pages lies above them and is never reserved. -/
theorem wordsReachKernel {entries : List Entry} (words : 1 ≤ tableWords entries)
    (all : ∀ p, p < 64 * tableWords entries → p % 64 < 32 → ¬ Marked entries p → Usable entries p) :
    480 ≤ tableWords entries := by
  by_contra few
  by_cases lower : tableWords entries % 64 < 32
  · have high := usableHigh (all (tableWords entries) (by omega) lower
      (fun marked => by have := markedBelow lower marked; omega))
    omega
  · have aligned : (tableWords entries / 64 + 1) * 64 % 64 < 32 := by omega
    have high := usableHigh (all ((tableWords entries / 64 + 1) * 64) (by omega) aligned
      (fun marked => by have := markedBelow aligned marked; omega))
    omega

theorem unmarkedReturned {contents entries s} (boot : kernelMainMemory contents entries = some s)
    (words : 1 ≤ tableWords entries) {p : Nat} (inside : p < 64 * tableWords entries) (lower : p % 64 < 32)
    (unmarked : ¬ Marked entries p) : ∃ s' pages, Allocations s s' pages ∧ p ∈ pages := by
  obtain ⟨sound,length,index,bits⟩ := bootState boot words
  have clear : low s (p/64) (p%64) = false := by
    cases set : low s (p/64) (p%64) with
    | false => rfl
    | true =>
      have marked := (bits (p/64) (p%64) (by omega) lower).mp set
      rw [Nat.div_add_mod' p 64] at marked
      exact absurd marked unmarked
  exact reaches s _ s [] .start sound (by intro w hw; omega) p (by rw [length]; omega) lower clear rfl

theorem bootSome {entries : List Entry} (placed : allocationTableStart entries ≠ noSpot)
    (contents : Nat → BitVec 64) : ∃ s, kernelMainMemory contents entries = some s := by
  simp only [kernelMainMemory,if_neg placed]
  exact ⟨_,rfl⟩

theorem emptyTableReturnsZero {entries s} (boot : kernelMainMemory (fun _ => 0) entries = some s)
    (none : tableWords entries = 0) : ∃ s', Allocations s s' [0] := by
  have length : ∀ ranges : List (Nat × Nat), ∀ t : State, t.allocationTableLength = 0 →
      ranges.foldl (fun s r => memoryPhysicalReserve s r.1 r.2) t = t := by
    intro ranges
    induction ranges with
    | nil => exact fun _ _ => rfl
    | cons r rest ih =>
      intro t zero
      have same : memoryPhysicalReserve t r.1 r.2 = t := by
        unfold memoryPhysicalReserve
        cases reserveCount r.1 r.2 with
        | zero => rfl
        | succ n => simp [reserveLoop,zero]
      rw [List.foldl_cons,same]
      exact ih t zero
  have words : maxMemoryAddress entries / 4096 / 64 = 0 := none
  have fold := bootFold boot
  rw [length (reservations entries) _ words] at fold
  have call : ∃ s', memoryPhysicalAllocate s = some (0,s') := by
    rw [fold]
    simp only [memoryPhysicalInitialize,words]
    exact ⟨_,rfl⟩
  obtain ⟨s',call⟩ := call
  exact ⟨s',.allocate .start call⟩

theorem bootPagesUsable {entries : List Entry} (placed : allocationTableStart entries ≠ noSpot) :
    (∀ contents s, kernelMainMemory contents entries = some s → ∀ s' pages, Allocations s s' pages →
      ∀ p ∈ pages, Usable entries p) ↔ MapSupported entries := by
  constructor
  · intro all
    have words : 1 ≤ tableWords entries := by
      by_contra none
      obtain ⟨s,boot⟩ := bootSome placed (fun _ => 0)
      obtain ⟨s',run⟩ := emptyTableReturnsZero boot (by omega)
      have high := usableHigh (all _ s boot s' [0] run 0 (by simp))
      omega
    have unmarked : ∀ p, p < 64 * tableWords entries → p % 64 < 32 → ¬ Marked entries p → Usable entries p := by
      intro p inside lower free
      obtain ⟨s,boot⟩ := bootSome placed (fun _ => 0)
      obtain ⟨s',pages,run,member⟩ := unmarkedReturned boot words inside lower free
      exact all _ s boot s' pages run p member
    refine ⟨wordsReachKernel words unmarked,?_,?_⟩
    · intro p above inside lower
      have usable := unmarked p inside lower (fun marked => by have := markedBelow lower marked; omega)
      exact ⟨usable.1,usable.2.2.2⟩
    · intro p high below lower free
      have usable := unmarked p (by omega) lower free
      exact ⟨usable.1,usable.2.2.2⟩
  · intro supported contents s boot s' pages run p member
    obtain ⟨sound,length,_,bits⟩ := bootState boot (by have := supported.words; omega)
    obtain ⟨word,bit,clear⟩ := (returnedWasClear sound run).2.2.2 p member
    rw [length] at word
    refine unmarkedUsable supported (by omega) bit ?_
    intro marked
    rw [← Nat.div_add_mod' p 64] at marked
    have set := (bits (p/64) (p%64) word bit).mpr marked
    rw [clear] at set
    contradiction

def map256 : List Entry :=
  [⟨0,0x9FC00,1⟩,⟨0x9FC00,0x400,2⟩,⟨0xF0000,0x10000,2⟩,⟨0x100000,0xFEE0000,1⟩,⟨0xFFE0000,0x20000,2⟩,
    ⟨0xFFFC0000,0x40000,2⟩]

theorem map256Facts : tableWords map256 = 1023 ∧ allocationTableStart map256 = 0x200000 ∧
    allocationTableSize map256 = 8188 := by decide

theorem map256Range {p : Nat} (high : 514 ≤ p) (inside : p < 65472) :
    InsideUsable map256 p ∧ ClearOfReserved map256 p := by
  refine ⟨⟨⟨0x100000,0xFEE0000,1⟩,by simp [map256],rfl,?_,?_⟩,?_,?_⟩
  · show 0x100000 ≤ p*4096; omega
  · show (p+1)*4096 ≤ 0x100000+0xFEE0000; omega
  · rw [map256Facts.2.1,map256Facts.2.2]
    rintro ⟨_,_,h⟩
    omega
  · intro e member other
    simp only [map256,List.mem_cons,List.not_mem_nil,or_false] at member
    rintro ⟨_,first,last⟩
    rcases member with rfl | rfl | rfl | rfl | rfl | rfl <;>
      first
      | exact other rfl
      | (simp at first last; omega)

theorem map256Supported : MapSupported map256 := by
  obtain ⟨words,start,size⟩ := map256Facts
  refine ⟨by omega,fun p above inside lower => map256Range (by omega) (by omega),?_⟩
  intro p high below lower unmarked
  refine map256Range ?_ (by omega)
  by_contra table
  apply unmarked
  have span : reserveStart 0x200000 = 512 ∧ reserveCount 0x200000 8188 = 2 := by decide
  exact spanMarks (r := (0x200000,8188)) (by rw [reservations,start,size]; exact List.mem_cons_self) lower
    (by simp only [span]; omega) (by simp only [span]; omega) below (by omega)

theorem bootPagesUsable256 : allocationTableStart map256 ≠ noSpot ∧
    ∀ contents s, kernelMainMemory contents map256 = some s → ∀ s' pages, Allocations s s' pages →
      ∀ p ∈ pages, Usable map256 p := by
  have placed : allocationTableStart map256 ≠ noSpot := by decide
  exact ⟨placed,(bootPagesUsable placed).mpr map256Supported⟩

def map128 : List Entry :=
  [⟨0,0x9FC00,1⟩,⟨0x9FC00,0x400,2⟩,⟨0xF0000,0x10000,2⟩,⟨0x100000,0x7EE0000,1⟩,⟨0x7FE0000,0x20000,2⟩,
    ⟨0xFFFC0000,0x40000,2⟩]

theorem bootHandsOutItsTable :
    ¬ ∀ contents s, kernelMainMemory contents map128 = some s → ∀ s' pages, Allocations s s' pages →
      ∀ p ∈ pages, Usable map128 p := by
  intro all
  have facts : tableWords map128 = 511 ∧ allocationTableStart map128 = 0x200000 ∧
    allocationTableSize map128 = 4092 := by decide
  obtain ⟨words,start,size⟩ := facts
  obtain ⟨s,boot⟩ := @bootSome map128 (by decide) (fun _ => 0)
  obtain ⟨s',pages,run,member⟩ := unmarkedReturned boot (by omega) (p := 512) (by omega) (by decide)
    (fun marked => by have := markedBelow (by decide) marked; omega)
  have usable := all _ s boot s' pages run 512 member
  apply usable.2.2.2.1
  rw [start,size]
  exact ⟨by decide,by decide,by decide⟩

/-! Where the table is placed. -/

def kernelEnd : Nat := kernelBaseAddress + kernelSize

def InsideFree (entries : List Entry) (start size : Nat) : Prop :=
  ∃ e ∈ entries, e.type = 1 ∧ e.address.toNat ≤ start ∧ start + size ≤ e.address.toNat + e.length.toNat

structure TablePlaced (entries : List Entry) : Prop where
  inside : InsideFree entries (allocationTableStart entries) (allocationTableSize entries)
  high : 0x100000 ≤ allocationTableStart entries
  apart : ∀ a, allocationTableStart entries ≤ a → a < allocationTableStart entries + allocationTableSize entries →
    ¬ (kernelBaseAddress ≤ a ∧ a < kernelBaseAddress + kernelSize)
  words : ∀ contents used,
    8 * (memoryPhysicalInitialize contents used (maxMemoryAddress entries)).allocationTableLength ≤ allocationTableSize entries

def Settles (size : Nat) (e : Entry) : Prop :=
  e.type = 1 ∧ size ≤ e.length.toNat ∧ 0x100000 ≤ e.address.toNat ∧
    (kernelEnd ≤ e.address.toNat ∨ kernelEnd < e.address.toNat + e.length.toNat)
instance (size e) : Decidable (Settles size e) := by unfold Settles; infer_instance

theorem placeTableStep {size : Nat} {e : Entry} (rest : List Entry) (whole : e.address.toNat + e.length.toNat < 2^64) :
    placeTable size (e::rest) = if Settles size e then max kernelEnd e.address.toNat else placeTable size rest := by
  have stop : e.stop = e.address.toNat + e.length.toNat := Nat.mod_eq_of_lt whole
  have kernel : kernelEnd = kernelBaseAddress + kernelSize := rfl
  rw [placeTable,stop]
  by_cases long : e.type = 1 ∧ size ≤ e.length.toNat ∧ 0x00100000 ≤ e.address.toNat
  · obtain ⟨free,fits,high⟩ := id long
    have sum : (e.address.toNat + size) % 2^64 = e.address.toNat + size := Nat.mod_eq_of_lt (by omega)
    have settles : Settles size e ↔ kernelEnd ≤ e.address.toNat ∨ kernelEnd < e.address.toNat + e.length.toNat := by
      simp only [Settles,free,fits,high,true_and]
    rw [if_pos long,sum,← kernel]
    by_cases moved : e.address.toNat < kernelEnd
    · rw [if_pos ⟨by unfold kernelBaseAddress; omega,moved⟩]
      by_cases short : e.address.toNat + e.length.toNat ≤ kernelEnd
      · rw [if_pos short,if_neg (fun yes => by have := settles.mp yes; omega)]
      · rw [if_neg short,if_pos (settles.mpr (by omega))]
        omega
    · rw [if_neg (fun both => moved both.2),if_pos (settles.mpr (by omega))]
      omega
  · rw [if_neg long,if_neg fun settles => long ⟨settles.1,settles.2.1,settles.2.2.1⟩]

theorem placeTableFirst {size : Nat} {entries : List Entry} (whole : ∀ e ∈ entries, e.address.toNat + e.length.toNat < 2^64) :
    placeTable size entries = (entries.find? (Settles size)).elim noSpot fun e => max kernelEnd e.address.toNat := by
  induction entries with
  | nil => rfl
  | cons e rest ih =>
    rw [placeTableStep rest (whole e List.mem_cons_self),ih fun x member => whole x (List.mem_cons_of_mem _ member)]
    by_cases settles : Settles size e
    · simp [settles]
    · simp [settles]

theorem tablePlacedIff {entries : List Entry} (whole : ∀ e ∈ entries, e.address.toNat + e.length.toNat < 2^64)
    (placed : allocationTableStart entries ≠ noSpot) : TablePlaced entries ↔
      (∃ e, entries.find? (Settles (allocationTableSize entries)) = some e ∧ kernelEnd ≤ e.address.toNat) ∨
        InsideFree entries kernelEnd (allocationTableSize entries) := by
  have first : placeTable (allocationTableSize entries) entries = _ := placeTableFirst whole
  cases found : entries.find? (Settles (allocationTableSize entries)) with
  | none =>
    rw [found] at first
    exact absurd first placed
  | some e =>
    have start : allocationTableStart entries = max kernelEnd e.address.toNat := by
      unfold allocationTableStart
      rw [first,found]
      rfl
    obtain ⟨free,fits,_,_⟩ : Settles (allocationTableSize entries) e := by simpa using List.find?_some found
    have member := List.mem_of_find?_eq_some found
    have kernel : kernelEnd = 0x200000 := rfl
    constructor
    · intro good
      by_cases above : kernelEnd ≤ e.address.toNat
      · exact Or.inl ⟨e,rfl,above⟩
      · have inside := good.inside
        rw [start,max_eq_left (by omega)] at inside
        exact Or.inr inside
    · intro condition
      refine ⟨?_,by omega,?_,fun contents used => ?_⟩
      · rw [start]
        by_cases above : kernelEnd ≤ e.address.toNat
        · rw [max_eq_right above]
          exact ⟨e,member,free,Nat.le_refl _,by omega⟩
        · rw [max_eq_left (by omega)]
          rcases condition with ⟨e',same,high⟩ | inside
          · exact absurd (Option.some.inj same ▸ high) above
          · exact inside
      · rintro a low _ ⟨_,high⟩
        unfold kernelEnd at start
        omega
      · simp only [memoryPhysicalInitialize,allocationTableSize]
        omega

def shortEntry : List Entry := [⟨0x100000,0x101000,1⟩,⟨0x10000000,0x10000000,1⟩]

theorem shortEntryOverrun : (∀ e ∈ shortEntry, e.address.toNat + e.length.toNat < 2^64) ∧
    allocationTableStart shortEntry ≠ noSpot ∧ ¬ TablePlaced shortEntry := by
  refine ⟨by decide,by decide,fun placed => ?_⟩
  obtain ⟨e,member,_,low,high⟩ := placed.inside
  have start : allocationTableStart shortEntry = 0x200000 := by decide
  have size : allocationTableSize shortEntry = 16384 := by decide
  rw [start] at low high
  rw [size] at high
  simp only [shortEntry,List.mem_cons,List.not_mem_nil,or_false] at member
  rcases member with rfl | rfl <;> simp at low high

theorem map256Placed : TablePlaced map256 :=
  (tablePlacedIff (by decide) (by decide)).mpr (Or.inr ⟨⟨0x100000,0xFEE0000,1⟩,by decide,rfl,by decide,by decide⟩)

end Kokos.BootMemory

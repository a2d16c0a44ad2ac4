import Kokos.BootMemory
import Kokos.Multiboot

/-! The three loops of kernel_main over the memory map tag, down to the bytes they read.
Nothing writes to the tag while they run. A counter that would overflow `int` is one of a
loop that does not end here either: from 2^29 on the products repeat. -/
namespace Kokos.MemoryMap
open ByteMemory WhileLoops PhysicalMemory BootMemory Multiboot

def entriesOffset : Nat := 16
def sizeofEntry : Nat := 24
def entrySize (m : Memory) (tag : Nat) : Nat := readUnsigned m (tag+8)

def entryAddress (tag i : Nat) : Nat := tag + entriesOffset + sizeofEntry*i

def readEntry (m : Memory) (entry : Nat) : Entry :=
  ⟨loadWord m entry,loadWord m (entry+8),BitVec.ofNat 32 (readUnsigned m (entry+16))⟩

structure Looping (σ : Type) where
  i : Nat
  value : σ
  visited : List Nat
  reads : List (Nat × Nat)
  deriving DecidableEq, Repr

variable {σ : Type}

abbrev Pass (σ : Type) := Memory → Nat → σ → List (Nat × Nat) × (σ ⊕ σ)

/-- The head that the three loops share: `int i` times `entry_size` is taken in `unsigned int`. -/
def mapBody (pass : Pass σ) (m : Memory) (tag : Nat) (s : Looping σ) : Looping σ ⊕ Looping σ :=
  let reads := s.reads ++ [(tag+8,4),(tag+4,4)]
  if s.i * entrySize m tag % 2^32 < tagSize m tag then
    let entry := entryAddress tag s.i
    match pass m entry s.value with
    | (fields,.inl value) => .inl ⟨s.i+1,value,s.visited ++ [entry],reads ++ fields⟩
    | (fields,.inr value) => .inr ⟨s.i,value,s.visited ++ [entry],reads ++ fields⟩
  else .inr ⟨s.i,s.value,s.visited,reads⟩

def mapLoop (pass : Pass σ) (fuel : Nat) (m : Memory) (tag : Nat) (value : σ) : Option (Looping σ) :=
  loop (mapBody pass m tag) fuel ⟨0,value,[],[]⟩

structure Totals where
  usableMemory : Nat
  maxMemoryAddress : Nat
  deriving DecidableEq, Repr

def findTotals : Pass Totals := fun m entry s =>
  let e := readEntry m entry
  ([(entry+16,4),(entry,8),(entry+8,8)],
    .inl (if e.type = 1 then ⟨(s.usableMemory + e.length.toNat) % 2^64,
      if s.maxMemoryAddress < e.stop then e.stop else s.maxMemoryAddress⟩ else s))

def findSpot (size : Nat) : Pass Nat := fun m entry start =>
  let e := readEntry m entry
  -- `&&` reads the length of type 1 only, and the address only where the length is enough
  let fields := (entry+16,4) :: if e.type = 1 then
    (entry+8,8) :: if size ≤ e.length.toNat then [(entry,8)] else [] else []
  (fields,
    if e.type = 1 ∧ size ≤ e.length.toNat ∧ 0x00100000 ≤ e.address.toNat then
      if kernelBaseAddress ≤ (e.address.toNat + size) % 2^64 ∧ e.address.toNat < kernelBaseAddress + kernelSize then
        if e.stop ≤ kernelBaseAddress + kernelSize then .inl start else .inr (kernelBaseAddress + kernelSize)
      else .inr e.address.toNat
    else .inl start)

def reserveUnusable : Pass State := fun m entry s =>
  let e := readEntry m entry
  if e.type ≠ 1 then ([(entry+16,4),(entry,8),(entry+8,8)],.inl (memoryPhysicalReserve s e.address.toNat e.length.toNat))
  else ([(entry+16,4)],.inl s)

/-- kernel_main from the boot information to the last reservation: `none` is out of fuel,
`some none` a fatal branch. -/
def kernelMainMap (fuel : Nat) (m : Memory) (info : Nat) (contents : Nat → BitVec 64) : Option (Option State) :=
  if ¬ multiboot2InfoAvailable m info then some none
  else do
    let tag ← multiboot2InfoGet fuel m info tagTypeMemoryMap
    if tag.address = 0 then some none
    else
      let totals ← mapLoop findTotals fuel m tag.address ⟨0,0⟩
      let max := totals.value.maxMemoryAddress
      let size := max / 4096 / 8
      let spot ← mapLoop (findSpot size) fuel m tag.address noSpot
      if spot.value = noSpot then some none
      else
        let s := memoryPhysicalInitialize contents 0 max
        let s := memoryPhysicalReserve s spot.value size
        let s := memoryPhysicalReserve s 0 0x000FFFFF
        let s := memoryPhysicalReserve s kernelBaseAddress kernelSize
        let done ← mapLoop reserveUnusable fuel m tag.address s
        some (some done.value)

/-! What the loops should process, and what they do. -/

structure WellFormed (m : Memory) (tag n : Nat) : Prop where
  size : tagSize m tag = entriesOffset + n * entrySize m tag
  aligned : entrySize m tag % 8 = 0
  stride : sizeofEntry ≤ entrySize m tag

def laidOut (m : Memory) (tag k : Nat) : List Nat :=
  (List.range k).map fun i => tag + entriesOffset + i * entrySize m tag

def ReadsInside (m : Memory) (tag : Nat) (reads : List (Nat × Nat)) : Prop :=
  ∀ r ∈ reads, r.1 + r.2 ≤ tag + tagSize m tag

def Walks (pass : Pass σ) (m : Memory) (tag n : Nat) (value : σ) : Prop :=
  ∃ fuel s, mapLoop pass fuel m tag value = some s ∧ s.visited = laidOut m tag n ∧ ReadsInside m tag s.reads

def WalksUpTo (pass : Pass σ) (m : Memory) (tag n : Nat) (value : σ) : Prop :=
  ∃ fuel s k, mapLoop pass fuel m tag value = some s ∧ k ≤ n ∧ s.visited = laidOut m tag k ∧ ReadsInside m tag s.reads

structure LoopsExact (m : Memory) (tag n size : Nat) (s : State) : Prop where
  totals : Walks findTotals m tag n ⟨0,0⟩
  spot : WalksUpTo (findSpot size) m tag n noSpot
  reserved : Walks reserveUnusable m tag n s

def Straight (pass : Pass σ) : Prop := ∀ m entry value, ∃ fields value', pass m entry value = (fields,.inl value')

theorem totalsStraight : Straight findTotals := fun _ _ _ => ⟨_,_,rfl⟩

theorem reserveStraight : Straight reserveUnusable := by
  intro m entry s
  unfold reserveUnusable
  by_cases usable : (readEntry m entry).type = 1
  · exact ⟨_,_,if_neg (not_not.mpr usable)⟩
  · exact ⟨_,_,if_pos usable⟩

theorem leavesPast {pass : Pass σ} (straight : Straight pass) {m tag} {s r : Looping σ} (leaves : mapBody pass m tag s = .inr r) :
    tagSize m tag ≤ s.i * entrySize m tag % 2^32 ∧ r.visited = s.visited := by
  obtain ⟨fields,value,step⟩ := straight m (entryAddress tag s.i) s.value
  simp only [mapBody,step] at leaves
  split at leaves
  · cases leaves
  · rename_i past
    exact ⟨by omega,(Sum.inr.inj leaves) ▸ rfl⟩

theorem goesOnVisiting {pass : Pass σ} {m tag} {s s' : Looping σ} (goesOn : mapBody pass m tag s = .inl s') :
    s'.i = s.i+1 ∧ s'.visited = s.visited ++ [entryAddress tag s.i] := by
  simp only [mapBody] at goesOn
  split at goesOn <;> try contradiction
  split at goesOn <;> try contradiction
  rw [← Sum.inl.inj goesOn]
  exact ⟨rfl,rfl⟩

/-- A loop that never breaks does not stop before it has processed entry `n`, which is none
of the tag's: `n * entry_size` is still below a size that counts the header. -/
theorem neverWalks {pass : Pass σ} (straight : Straight pass) {m tag n} (formed : WellFormed m tag n) (value : σ) :
    ¬ Walks pass m tag n value := by
  rintro ⟨fuel,r,returned,visited,_⟩
  have counts : ∀ s s' : Looping σ, s.visited.length = s.i → mapBody pass m tag s = .inl s' → s'.visited.length = s'.i := by
    intro s s' count goesOn
    obtain ⟨next,more⟩ := goesOnVisiting goesOn
    rw [more,next,List.length_append,count,List.length_singleton]
  obtain ⟨s,count,leaves⟩ := endsKept counts rfl (endsOfLoop returned)
  obtain ⟨past,same⟩ := leavesPast straight leaves
  have all : s.i = n := by rw [← count,← same,visited,laidOut,List.length_map,List.length_range]
  have bound := readUnsignedBound m (tag+4)
  have size := formed.size
  rw [all] at past
  unfold entriesOffset at size
  unfold tagSize at size past
  rw [Nat.mod_eq_of_lt (by omega)] at past
  omega

theorem straightLoopsMiss {m tag n} (formed : WellFormed m tag n) (totals : Totals) (s : State) :
    ¬ Walks findTotals m tag n totals ∧ ¬ Walks reserveUnusable m tag n s :=
  ⟨neverWalks totalsStraight formed totals,neverWalks reserveStraight formed s⟩

theorem loopsNeverExact {m tag n size s} (formed : WellFormed m tag n) : ¬ LoopsExact m tag n size s :=
  fun exact => (straightLoopsMiss formed _ s).1 exact.totals

def oneEntry : Memory := fun a => if a = 0x1000 then 6 else if a = 0x1004 then 40 else if a = 0x1008 then 24 else 0

theorem oneEntryFormed : WellFormed oneEntry 0x1000 1 := ⟨by decide,by decide,by decide⟩

theorem oneEntryNotExact : ¬ LoopsExact oneEntry 0x1000 1 0 ⟨fun _ => 0,0,0,0⟩ := loopsNeverExact oneEntryFormed

theorem oneEntryReadsTwo : WellFormed oneEntry 0x1000 1 ∧ (¬ ∀ size s, LoopsExact oneEntry 0x1000 1 size s) ∧
    (mapLoop findTotals 3 oneEntry 0x1000 ⟨0,0⟩).map Looping.visited = some [0x1010,0x1028] := by
  refine ⟨oneEntryFormed,fun all => ?_,by decide⟩
  exact neverWalks totalsStraight oneEntryFormed _ (all 0 ⟨fun _ => 0,0,0,0⟩).totals

/-! The loops over bytes against those over a list of entries, one more than the tag has. -/

def mapEntries (m : Memory) (tag k : Nat) : List Entry := (List.range k).map fun i => readEntry m (entryAddress tag i)

def through (pass : Pass σ) (m : Memory) : List Nat → σ → σ
  | [], value => value
  | entry::rest, value => match (pass m entry value).2 with
    | .inl value => through pass m rest value
    | .inr value => value

theorem boundMet {m tag n} (formed : WellFormed m tag n) (bound : (n+1) * entrySize m tag < 2^32) {i : Nat} (inside : i ≤ n+1) :
    i * entrySize m tag % 2^32 < tagSize m tag ↔ i ≤ n := by
  have size := formed.size
  have stride := formed.stride
  have below := Nat.mul_le_mul_right (entrySize m tag) inside
  rw [size,Nat.mod_eq_of_lt (by omega)]
  unfold entriesOffset
  unfold sizeofEntry at stride
  constructor
  · intro less
    by_contra last
    rw [show i = n+1 by omega,Nat.succ_mul] at less
    omega
  · intro low
    have := Nat.mul_le_mul_right (entrySize m tag) low
    omega

theorem mapRuns {pass : Pass σ} {m tag n} (formed : WellFormed m tag n) (bound : (n+1) * entrySize m tag < 2^32)
    (left : Nat) : ∀ s : Looping σ, s.i + left = n+1 → ∃ r, Ends (mapBody pass m tag) s r ∧
      r.value = through pass m ((List.range' s.i left).map (entryAddress tag)) s.value := by
  induction left with
  | zero =>
    intro s done
    have past : ¬ s.i * entrySize m tag % 2^32 < tagSize m tag := fun less => by
      have := (boundMet formed bound (by omega)).mp less
      omega
    have leaves : mapBody pass m tag s = .inr ⟨s.i,s.value,s.visited,s.reads ++ [(tag+8,4),(tag+4,4)]⟩ := by
      simp only [mapBody,past,if_false]
    exact ⟨_,.leave leaves,rfl⟩
  | succ left ih =>
    intro s more
    have inside := (boundMet formed bound (i := s.i) (by omega)).mpr (by omega)
    rw [List.range'_succ,List.map_cons]
    rcases step : pass m (entryAddress tag s.i) s.value with ⟨fields,value | value⟩
    · obtain ⟨s',goesOn,count,kept⟩ : ∃ s', mapBody pass m tag s = .inl s' ∧ s'.i = s.i+1 ∧ s'.value = value :=
        ⟨_,by simp only [mapBody,inside,if_true,step]; rfl,rfl,rfl⟩
      obtain ⟨r,ends,same⟩ := ih s' (by omega)
      rw [count,kept] at same
      exact ⟨r,.goOn goesOn ends,by simp only [through,step]; exact same⟩
    · have breaks : mapBody pass m tag s = .inr ⟨s.i,value,s.visited ++ [entryAddress tag s.i],
          s.reads ++ [(tag+8,4),(tag+4,4)] ++ fields⟩ := by simp only [mapBody,inside,if_true,step]
      exact ⟨_,.leave breaks,by simp only [through,step]⟩

theorem throughTotals (m : Memory) (addresses : List Nat) (s : Totals) : (through findTotals m addresses s).maxMemoryAddress =
    (addresses.map (readEntry m)).foldl
      (fun max e => if e.type = 1 then (if max < e.stop then e.stop else max) else max) s.maxMemoryAddress := by
  induction addresses generalizing s with
  | nil => rfl
  | cons a rest ih =>
    simp only [through,findTotals,List.map_cons,List.foldl_cons]
    rw [ih]
    split <;> rfl

theorem throughSpot (m : Memory) (size : Nat) (addresses : List Nat) :
    through (findSpot size) m addresses noSpot = placeTable size (addresses.map (readEntry m)) := by
  induction addresses with
  | nil => rfl
  | cons a rest ih =>
    simp only [through,findSpot,List.map_cons,placeTable]
    by_cases fits : (readEntry m a).type = 1 ∧ size ≤ (readEntry m a).length.toNat ∧ 0x00100000 ≤ (readEntry m a).address.toNat
    · by_cases meets : kernelBaseAddress ≤ ((readEntry m a).address.toNat + size) % 2^64 ∧
          (readEntry m a).address.toNat < kernelBaseAddress + kernelSize
      · by_cases short : (readEntry m a).stop ≤ kernelBaseAddress + kernelSize
        · rw [if_pos fits,if_pos meets,if_pos short,if_pos fits,if_pos meets,if_pos short]
          exact ih
        · rw [if_pos fits,if_pos meets,if_neg short,if_pos fits,if_pos meets,if_neg short]
      · rw [if_pos fits,if_neg meets,if_pos fits,if_neg meets]
    · rw [if_neg fits,if_neg fits]
      exact ih

theorem throughReserved (m : Memory) (addresses : List Nat) (s : State) : through reserveUnusable m addresses s =
    (addresses.map (readEntry m)).foldl
      (fun s e => if e.type ≠ 1 then memoryPhysicalReserve s e.address.toNat e.length.toNat else s) s := by
  induction addresses generalizing s with
  | nil => rfl
  | cons a rest ih =>
    simp only [through,reserveUnusable,List.map_cons,List.foldl_cons]
    by_cases usable : (readEntry m a).type = 1
    · rw [if_neg (not_not.mpr usable),if_neg (not_not.mpr usable)]
      exact ih s
    · rw [if_pos usable,if_pos usable]
      exact ih _

theorem entriesMapped (m : Memory) (tag k : Nat) :
    ((List.range k).map (entryAddress tag)).map (readEntry m) = mapEntries m tag k := by
  rw [List.map_map]
  rfl

section Loops
variable {m : Memory} {tag n : Nat} (formed : WellFormed m tag n) (bound : (n+1) * entrySize m tag < 2^32)
include formed bound

theorem mapLoopRuns (pass : Pass σ) (value : σ) : ∃ least r, (∀ fuel, least ≤ fuel → mapLoop pass fuel m tag value = some r) ∧
    r.value = through pass m ((List.range (n+1)).map (entryAddress tag)) value := by
  obtain ⟨r,ends,same⟩ := @mapRuns _ pass _ _ _ formed bound (n+1) ⟨0,value,[],[]⟩ (by simp)
  obtain ⟨least,returns⟩ := loopOfEnds ends
  exact ⟨least,r,returns,by rw [same,List.range_eq_range']⟩

theorem totalsRun : ∃ least r, (∀ fuel, least ≤ fuel → mapLoop findTotals fuel m tag ⟨0,0⟩ = some r) ∧
    r.value.maxMemoryAddress = maxMemoryAddress (mapEntries m tag (n+1)) := by
  obtain ⟨least,r,returns,same⟩ := mapLoopRuns formed bound findTotals ⟨0,0⟩
  exact ⟨least,r,returns,by rw [same,throughTotals,entriesMapped]; rfl⟩

theorem spotRun (size : Nat) : ∃ least r, (∀ fuel, least ≤ fuel → mapLoop (findSpot size) fuel m tag noSpot = some r) ∧
    r.value = placeTable size (mapEntries m tag (n+1)) := by
  obtain ⟨least,r,returns,same⟩ := mapLoopRuns formed bound (findSpot size) noSpot
  exact ⟨least,r,returns,by rw [same,throughSpot,entriesMapped]⟩

theorem reservedRun (s : State) : ∃ least r, (∀ fuel, least ≤ fuel → mapLoop reserveUnusable fuel m tag s = some r) ∧
    r.value = (mapEntries m tag (n+1)).foldl
      (fun s e => if e.type ≠ 1 then memoryPhysicalReserve s e.address.toNat e.length.toNat else s) s := by
  obtain ⟨least,r,returns,same⟩ := mapLoopRuns formed bound reserveUnusable s
  exact ⟨least,r,returns,by rw [same,throughReserved,entriesMapped]⟩

end Loops

theorem acceptedBound {m info tag n} (available : multiboot2InfoAvailable m info = true) (formed : WellFormed m tag n)
    (inside : tagSize m tag ≤ totalSize m info) : (n+1) * entrySize m tag < 2^32 := by
  have size := formed.size
  have word : entrySize m tag < 2^32 := readUnsignedBound m (tag+8)
  simp only [multiboot2InfoAvailable,decide_eq_true_eq] at available
  rw [Nat.succ_mul]
  cases n with
  | zero => omega
  | succ n =>
    rw [Nat.succ_mul] at size ⊢
    omega

theorem kernelMainMaps {m info tags tag n} (contents : Nat → BitVec 64) (available : multiboot2InfoAvailable m info = true)
    (block : TaggedBlock m info tags) (found : tags.find? (tagType m · = tagTypeMemoryMap) = some tag)
    (formed : WellFormed m tag n) : ∃ least, ∀ fuel, least ≤ fuel →
      kernelMainMap fuel m info contents = some (kernelMainMemory contents (mapEntries m tag (n+1))) := by
  obtain ⟨low,high⟩ := tagsInside block tag (List.mem_of_find?_eq_some found)
  have notNull : tag ≠ 0 := by unfold sizeofMultibootInfo at low; omega
  have bound : (n+1) * entrySize m tag < 2^32 := acceptedBound available formed (by omega)
  obtain ⟨reads,_,gets⟩ := walkBlock block (show tagTypeMemoryMap ≠ tagTypeEnd by decide)
  rw [found,Option.getD_some] at gets
  obtain ⟨l0,got⟩ : ∃ least, ∀ fuel, least ≤ fuel → multiboot2InfoGet fuel m info tagTypeMemoryMap = some ⟨tag,reads⟩ :=
    loopOfEnds gets
  obtain ⟨l1,r1,totals,highest⟩ := totalsRun formed bound
  obtain ⟨l2,r2,spot,start⟩ := spotRun formed bound (maxMemoryAddress (mapEntries m tag (n+1)) / 4096 / 8)
  have spotStart : r2.value = allocationTableStart (mapEntries m tag (n+1)) := start
  by_cases fatal : allocationTableStart (mapEntries m tag (n+1)) = noSpot
  · refine ⟨max l0 (max l1 l2),fun fuel enough => ?_⟩
    simp only [kernelMainMap,available,not_true_eq_false,if_false,got fuel (by omega),bind,Option.bind,notNull,
      totals fuel (by omega),highest,spot fuel (by omega),spotStart,fatal,if_true,kernelMainMemory]
  · obtain ⟨l3,r3,reserved,last⟩ := reservedRun formed bound (memoryPhysicalReserve (memoryPhysicalReserve (memoryPhysicalReserve
      (memoryPhysicalInitialize contents 0 (maxMemoryAddress (mapEntries m tag (n+1)))) r2.value
      (maxMemoryAddress (mapEntries m tag (n+1)) / 4096 / 8)) 0 0x000FFFFF) kernelBaseAddress kernelSize)
    refine ⟨max (max l0 l1) (max l2 l3),fun fuel enough => ?_⟩
    rw [spotStart] at reserved last
    simp only [kernelMainMap,available,not_true_eq_false,if_false,got fuel (by omega),bind,Option.bind,notNull,
      totals fuel (by omega),highest,spot fuel (by omega),spotStart,fatal,reserved fuel (by omega),last,kernelMainMemory]
    rfl

end Kokos.MemoryMap

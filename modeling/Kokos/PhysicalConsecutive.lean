import Kokos.PhysicalQueries

/-! The search of memory_physical_allocate_consecutive: it goes up from the hint, counts
the empty words in a row, and starts again at word 0 with a row of none. What it finds is
the first empty run from the hint on, or else the first one of the table. -/
namespace Kokos.PhysicalMemory
open WordBits BitTables TransitionRuns

def EmptyRun (table : Table) (length count r : Nat) : Prop := r+count ≤ length ∧ ∀ i, r ≤ i → i < r+count → table i = 0

def wanted (chunkCount : Nat) : Nat := max chunkCount 1

structure Scan (table : Table) (count a spot row : Nat) : Prop where
  reach : a+row ≤ spot
  short : row < count
  empty : ∀ i, spot-row ≤ i → i < spot → table i = 0
  longest : spot-row = a ∨ (a < spot-row ∧ table (spot-row-1) ≠ 0)
  none : ∀ q, a ≤ q → q+count ≤ spot → ∃ i, q ≤ i ∧ i < q+count ∧ table i ≠ 0

variable {table : Table} {length count a spot row r chunkCount fuel : Nat}

theorem scanStart (table : Table) {count : Nat} (some : 0 < count) (a : Nat) : Scan table count a a 0 := by
  refine ⟨Nat.le_refl _,some,fun i low high => by omega,Or.inl rfl,fun q low high => by omega⟩

theorem scanFound (scan : Scan table count a spot row) (inside : spot < length) (here : table spot = 0) (enough : count ≤ row+1) :
    a ≤ spot-row ∧ EmptyRun table length count (spot-row) ∧ ∀ q, a ≤ q → q < spot-row → ¬ EmptyRun table length count q := by
  have reach := scan.reach
  have short := scan.short
  refine ⟨by omega,⟨by omega,fun i low high => ?_⟩,fun q low high run => ?_⟩
  · by_cases last : i = spot
    · rw [last]
      exact here
    · exact scan.empty i low (by omega)
  · obtain ⟨i,from_,below,other⟩ := scan.none q low (by omega)
    exact other (run.2 i from_ below)

theorem scanEmpty (scan : Scan table count a spot row) (here : table spot = 0) (few : row+1 < count) :
    Scan table count a (spot+1) (row+1) := by
  have reach := scan.reach
  have first : spot+1-(row+1) = spot-row := by omega
  refine ⟨by omega,few,fun i low high => ?_,first ▸ scan.longest,fun q low high => ?_⟩
  · by_cases last : i = spot
    · rw [last]
      exact here
    · exact scan.empty i (by omega) (by omega)
  · by_cases before : q+count ≤ spot
    · exact scan.none q low before
    · -- A run that ends here is longer than the row, so it holds the word before the row.
      rcases scan.longest with whole | ⟨later,other⟩
      · omega
      · exact ⟨spot-row-1,by omega,by omega,other⟩

theorem scanTaken (scan : Scan table count a spot row) (here : table spot ≠ 0) : Scan table count a (spot+1) 0 := by
  have reach := scan.reach
  have short := scan.short
  refine ⟨by omega,by omega,fun i low high => by omega,Or.inr ⟨by omega,here⟩,fun q low high => ?_⟩
  by_cases before : q+count ≤ spot
  · exact scan.none q low before
  · exact ⟨spot,by omega,by omega,here⟩

theorem scanOnward (scan : Scan table count a spot row) (stop : ¬ (table spot = 0 ∧ count ≤ row+1)) :
    Scan table count a (spot+1) (if table spot = 0 then row+1 else 0) := by
  split
  · rename_i here
    exact scanEmpty scan here (Nat.lt_of_not_le fun enough => stop ⟨here,enough⟩)
  · rename_i here
    exact scanTaken scan here

theorem scanOver (scan : Scan table count a spot row) (past : length ≤ spot) : ∀ q, a ≤ q → ¬ EmptyRun table length count q := by
  intro q low run
  obtain ⟨i,from_,below,other⟩ := scan.none q low (by have := run.1; omega)
  exact other (run.2 i from_ below)

theorem wantedPositive (chunkCount : Nat) : 0 < wanted chunkCount := Nat.lt_of_lt_of_le Nat.one_pos (Nat.le_max_right _ _)

theorem wantedSame (some_ : 1 ≤ chunkCount) : wanted chunkCount = chunkCount := Nat.max_eq_left some_

theorem wantedNarrow (narrow : chunkCount < 2^32) : wanted chunkCount < 2^32 := Nat.max_lt.mpr ⟨narrow,by decide⟩

theorem wantedMet {row : Nat} : chunkCount ≤ row+1 ↔ wanted chunkCount ≤ row+1 := by
  unfold wanted
  omega

theorem findEmptyStep (table : Table) (length chunkCount fuel spot row : Nat) (narrow : row+1 < 2^32) (inside : spot < 2^64) (reach : row ≤ spot) :
    findEmptyWords table length chunkCount (fuel+1) spot row =
      if table spot = 0 ∧ wanted chunkCount ≤ row+1 then some (spot-row)
      else if length ≤ spot+1 then findEmptyWords table length chunkCount fuel 0 0
      else findEmptyWords table length chunkCount fuel (spot+1) (if table spot = 0 then row+1 else 0) := by
  have whole : (row+1) % 2^32 = row+1 := Nat.mod_eq_of_lt narrow
  have back : (spot + 2^64 - (row+1 + 2^32 - 1) % 2^32) % 2^64 = spot-row := by
    rw [show (row+1 + 2^32 - 1) % 2^32 = row by omega]
    omega
  simp only [findEmptyWords,whole]
  by_cases here : table spot = 0
  · simp only [here,if_true,true_and,back]
    exact if_congr wantedMet rfl rfl
  · simp only [here,if_false,false_and]

theorem findEmptyNarrow (found : findEmptyWords table length chunkCount fuel spot row = some r) : chunkCount < 2^32 := by
  induction fuel generalizing spot row with
  | zero => simp [findEmptyWords] at found
  | succ fuel ih =>
    rw [findEmptyWords] at found
    by_cases stop : table spot = 0 ∧ chunkCount ≤ if table spot = 0 then (row+1) % 2^32 else 0
    · have enough := stop.2
      rw [if_pos stop.1] at enough
      omega
    · rw [if_neg stop] at found
      split at found
      · exact ih found
      · exact ih found

theorem findEmptyFirst (scan : Scan table (wanted chunkCount) a spot row) (narrow : chunkCount < 2^32) (inside : spot < length) (small : length < 2^64)
    (found : findEmptyWords table length chunkCount fuel spot row = some r) :
    (a ≤ r ∧ EmptyRun table length (wanted chunkCount) r ∧ ∀ q, a ≤ q → q < r → ¬ EmptyRun table length (wanted chunkCount) q) ∨
    ((∀ q, a ≤ q → ¬ EmptyRun table length (wanted chunkCount) q) ∧
      EmptyRun table length (wanted chunkCount) r ∧ ∀ q < r, ¬ EmptyRun table length (wanted chunkCount) q) := by
  have some_ := wantedPositive chunkCount
  induction fuel generalizing a spot row with
  | zero => simp [findEmptyWords] at found
  | succ fuel ih =>
    have reach := scan.reach
    have short := scan.short
    have fits := wantedNarrow narrow
    rw [findEmptyStep table length chunkCount fuel spot row (by omega) (by omega) (by omega)] at found
    by_cases stop : table spot = 0 ∧ wanted chunkCount ≤ row+1
    · rw [if_pos stop] at found
      cases Option.some.inj found
      exact Or.inl (scanFound scan inside stop.1 stop.2)
    · rw [if_neg stop] at found
      have onward := scanOnward scan stop
      split at found
      · rename_i past
        rcases ih (scanStart table some_ 0) (by omega) found with ⟨_,run,first⟩ | ⟨none,run,_⟩
        · exact Or.inr ⟨scanOver onward past,run,fun q less => first q (Nat.zero_le _) less⟩
        · exact absurd run (none r (Nat.zero_le _))
      · rename_i more
        exact ih onward (by omega) found

theorem findEmptyRun (inside : spot < length) (small : length < 2^64) (found : findEmptyWords table length chunkCount fuel spot 0 = some r) :
    EmptyRun table length (wanted chunkCount) r := by
  rcases findEmptyFirst (scanStart table (wantedPositive chunkCount) spot) (findEmptyNarrow found) inside small found with
    ⟨_,run,_⟩ | ⟨_,run,_⟩
  · exact run
  · exact run

theorem findEmptyPass (scan : Scan table (wanted chunkCount) a spot row) (narrow : chunkCount < 2^32) (small : length < 2^64)
    (n : Nat) (left : spot+n+1 = length) :
    (∃ r, findEmptyWords table length chunkCount (n+1) spot row = some r) ∨
    ((∀ q, a ≤ q → ¬ EmptyRun table length (wanted chunkCount) q) ∧
      ∀ fuel, findEmptyWords table length chunkCount (fuel+(n+1)) spot row = findEmptyWords table length chunkCount fuel 0 0) := by
  have fits := wantedNarrow narrow
  induction n generalizing spot row with
  | zero =>
    have reach := scan.reach
    have short := scan.short
    have pass := fun fuel => findEmptyStep table length chunkCount fuel spot row (by omega) (by omega) (by omega)
    by_cases stop : table spot = 0 ∧ wanted chunkCount ≤ row+1
    · exact Or.inl ⟨_,(pass 0).trans (if_pos stop)⟩
    · refine Or.inr ⟨scanOver (scanOnward scan stop) (by omega),fun fuel => ?_⟩
      rw [pass,if_neg stop,if_pos (by omega)]
  | succ n ih =>
    have reach := scan.reach
    have short := scan.short
    have pass := fun fuel => findEmptyStep table length chunkCount fuel spot row (by omega) (by omega) (by omega)
    by_cases stop : table spot = 0 ∧ wanted chunkCount ≤ row+1
    · exact Or.inl ⟨_,(pass (n+1)).trans (if_pos stop)⟩
    · rcases ih (scanOnward scan stop) (by omega) with ⟨r,found⟩ | ⟨none,again⟩
      · refine Or.inl ⟨r,?_⟩
        rw [pass,if_neg stop,if_neg (by omega)]
        exact found
      · refine Or.inr ⟨none,fun fuel => ?_⟩
        rw [show fuel+(n+1+1) = fuel+(n+1)+1 by omega,pass,if_neg stop,if_neg (by omega)]
        exact again fuel

theorem findEmptyEnds (narrow : chunkCount < 2^32) (inside : spot < length) (small : length < 2^64)
    (run : EmptyRun table length (wanted chunkCount) r) :
    ∃ fuel r, findEmptyWords table length chunkCount fuel spot 0 = some r := by
  have some_ := wantedPositive chunkCount
  rcases findEmptyPass (scanStart table some_ spot) narrow small (length-spot-1) (by omega) with ⟨r,found⟩ | ⟨_,again⟩
  · exact ⟨_,r,found⟩
  · rcases findEmptyPass (scanStart table some_ 0) narrow small (length-1) (by omega) with ⟨r,found⟩ | ⟨none,_⟩
    · exact ⟨_,r,(again _).trans found⟩
    · exact absurd run (none r (Nat.zero_le _))

/-! One call. -/

structure Taken (s : State) (pages address : Nat) (s' : State) where
  word : Nat
  narrow : pages/64 < 2^32
  found : (s.allocationIndex ≤ word ∧ EmptyRun s.allocationTable s.allocationTableLength (wanted (pages/64)) word ∧
      ∀ q, s.allocationIndex ≤ q → q < word → ¬ EmptyRun s.allocationTable s.allocationTableLength (wanted (pages/64)) q) ∨
    ((∀ q, s.allocationIndex ≤ q → ¬ EmptyRun s.allocationTable s.allocationTableLength (wanted (pages/64)) q) ∧
      EmptyRun s.allocationTable s.allocationTableLength (wanted (pages/64)) word ∧
      ∀ q < word, ¬ EmptyRun s.allocationTable s.allocationTableLength (wanted (pages/64)) q)
  isAddress : address = word*64*4096
  table : ∀ i, s'.allocationTable i = if word ≤ i ∧ i < word+pages/64 then BitVec.allOnes 64 else s.allocationTable i
  index : s'.allocationIndex = word + pages/64
  length : s'.allocationTableLength = s.allocationTableLength

theorem takenEmpty {s s' : State} {pages address : Nat} (taken : Taken s pages address s') :
    EmptyRun s.allocationTable s.allocationTableLength (wanted (pages/64)) taken.word := by
  rcases taken.found with ⟨_,run,_⟩ | ⟨_,run,_⟩
  · exact run
  · exact run

theorem consecutiveTaken {s s' : State} {fuel pages address : Nat} (inside : s.allocationIndex < s.allocationTableLength)
    (small : s.allocationTableLength < 2^46) (call : memoryPhysicalAllocateConsecutive fuel s pages = some (address,s')) :
    Nonempty (Taken s pages address s') := by
  have chunks : pages >>> 6 = pages/64 := Nat.shiftRight_eq_div_pow _ _
  obtain ⟨word,found,made⟩ := Option.bind_eq_some_iff.mp call
  rw [chunks] at found
  have narrow := findEmptyNarrow found
  have first := findEmptyFirst (scanStart s.allocationTable (wantedPositive _) s.allocationIndex) narrow inside (by omega) found
  have fits := (findEmptyRun inside (by omega) found).1
  have address' : ((word <<< 6) <<< 12) % 2^64 = word*64*4096 := by
    simp only [Nat.shiftLeft_eq]
    omega
  obtain ⟨rfl,rfl⟩ := Prod.mk.inj (Option.some.inj made)
  exact ⟨⟨word,narrow,first,address',fun i => by rw [chunks],by rw [chunks],rfl⟩⟩

theorem consecutiveReturns {s : State} {pages r : Nat} (inside : s.allocationIndex < s.allocationTableLength)
    (small : s.allocationTableLength < 2^46) (narrow : pages/64 < 2^32)
    (run : EmptyRun s.allocationTable s.allocationTableLength (wanted (pages/64)) r) :
    ∃ fuel address s', memoryPhysicalAllocateConsecutive fuel s pages = some (address,s') := by
  have chunks : pages >>> 6 = pages/64 := Nat.shiftRight_eq_div_pow _ _
  obtain ⟨fuel,word,found⟩ := findEmptyEnds narrow inside (by omega) run
  rw [← chunks] at found
  exact ⟨fuel,_,_,Option.bind_eq_some_iff.mpr ⟨word,found,rfl⟩⟩

/-! Calls in a row, without the books. -/

def State.step (s : State) : Call → State → Prop
  | .reserve address bytes, s' => s' = memoryPhysicalReserve s address bytes
  | .allocate, s' => ∃ address, memoryPhysicalAllocate s = some (address,s')
  | .allocateConsecutive fuel pages, s' => ∃ address, memoryPhysicalAllocateConsecutive fuel s pages = some (address,s')
  | .free address, s' => s' = (memoryPhysicalFree s address).2

def callsFrom (s : State) : System State Call where
  start t := t = s
  step := State.step

def Hands (s : State) : Call → Nat → Prop
  | .allocate, p => ∃ address s', memoryPhysicalAllocate s = some (address,s') ∧ p = address/4096
  | .allocateConsecutive fuel pages, p => ∃ address s', memoryPhysicalAllocateConsecutive fuel s pages = some (address,s') ∧
      (p = address/4096 ∨ (address/4096 ≤ p ∧ p < address/4096 + 64*(pages/64)))
  | _, _ => False

def Unfreed (s : State) : Call → Prop
  | .allocateConsecutive _ _ => s.allocationIndex < s.allocationTableLength
  | .free _ => False
  | _ => True

def TakesBlock (s : State) (pages : Nat) : Prop := ∃ fuel address s',
  memoryPhysicalAllocateConsecutive fuel s pages = some (address,s') ∧ address % 4096 = 0 ∧
  (∀ k < pages, address/4096+k < 64*s.allocationTableLength ∧ bitAt s.allocationTable (address/4096+k) = false ∧
    bitAt s'.allocationTable (address/4096+k) = true) ∧
  (∀ p, bitAt s'.allocationTable p ≠ bitAt s.allocationTable p → ∃ k < pages, p/64 = (address/4096+k)/64) ∧
  ∀ calls t, ((callsFrom s').restrict Unfreed).Run calls t → ∀ call p, Unfreed t call → Hands t call p →
    ∀ k < pages, p ≠ address/4096+k

structure Full (words word chunks : Nat) (t : State) : Prop where
  length : t.allocationTableLength = words
  index : t.allocationIndex ≤ words
  full : ∀ i, word ≤ i → i < word+chunks → t.allocationTable i = BitVec.allOnes 64

theorem allocateOne {s s' : State} {address : Nat} (some_ : 0 < s.allocationTableLength) (call : memoryPhysicalAllocate s = some (address,s')) :
    ∃ spot bit, bit < 64 ∧ (spot < s.allocationTableLength ∨ spot = s.allocationIndex) ∧
      s.allocationTable spot ≠ BitVec.allOnes 64 ∧ address = (spot*64+bit)*4096 % 2^64 ∧
      s'.allocationTable = setWord s.allocationTable spot (s.allocationTable spot ||| intMask bit) ∧
      s'.allocationIndex = spot ∧ s'.allocationTableLength = s.allocationTableLength := by
  obtain ⟨spot,found,value,made⟩ := allocateMade call
  have free := findWordFree found
  obtain ⟨inside,_,_⟩ := scanOnesZero (s.allocationTable spot) free
  have place : address = (spot*64 + scanOnes 64 (s.allocationTable spot) 0)*4096 % 2^64 := by
    rw [value]
    simp only [Nat.shiftLeft_eq]
  rw [made]
  exact ⟨spot,_,inside,findWordPlace some_ found,free,place,rfl,rfl,rfl⟩

theorem fullWord {t u : Table} {i : Nat} (grown : Grown t u) (full : t i = BitVec.allOnes 64) : u i = BitVec.allOnes 64 := by
  apply allOnesOfBits
  intro j inside
  rw [← bitPlace u inside]
  apply grown
  rw [bitPlace t inside,full,BitVec.getLsbD_allOnes]
  exact decide_eq_true inside

theorem fullKeeps {words word chunks : Nat} {t t' : State} {call : Call} (some_ : 0 < words) (small : words < 2^46) (full : Full words word chunks t)
    (unfreed : Unfreed t call) (move : State.step t call t') : Full words word chunks t' := by
  cases call with
  | reserve address bytes =>
    have made : t' = memoryPhysicalReserve t address bytes := move
    obtain ⟨length,index⟩ := reserveFields t address bytes
    rw [← made] at length index
    refine ⟨length.trans full.length,index ▸ full.index,fun i low high => ?_⟩
    have grown := reserveLoopGrown (reserveCount address bytes) (reserveStart address) t
    rw [← memoryPhysicalReserve,← made] at grown
    exact fullWord grown (full.full i low high)
  | allocate =>
    obtain ⟨address,call⟩ := move
    have end_ := full.index
    have same := full.length
    obtain ⟨spot,bit,_,place,free,_,table,index,length⟩ := allocateOne (by omega) call
    refine ⟨length.trans same,by omega,fun i low high => ?_⟩
    have here := full.full i low high
    have other : i ≠ spot := by
      rintro rfl
      exact free here
    rw [table,setWordOther _ _ other]
    exact here
  | allocateConsecutive fuel pages =>
    obtain ⟨address,call⟩ := move
    have same := full.length
    obtain ⟨taken⟩ := consecutiveTaken unfreed (by omega) call
    have run := (takenEmpty taken).1
    have end_ : taken.word + pages/64 ≤ words := by
      unfold wanted at run
      omega
    refine ⟨taken.length.trans same,taken.index ▸ end_,fun i low high => ?_⟩
    rw [taken.table i]
    split
    · rfl
    · exact full.full i low high
  | free address => exact unfreed.elim

theorem fullApart {words word chunks p : Nat} {t : State} {call : Call} (some_ : 0 < words) (small : words < 2^46) (full : Full words word chunks t)
    (unfreed : Unfreed t call) (hands : Hands t call p) : p < word*64 ∨ (word+chunks)*64 ≤ p := by
  have index := full.index
  have same := full.length
  by_contra inside
  have ones := full.full (p/64) (by omega) (by omega)
  cases call with
  | reserve address bytes => exact hands.elim
  | allocate =>
    obtain ⟨address,t',call,rfl⟩ := hands
    obtain ⟨spot,bit,below,place,free,value,_⟩ := allocateOne (by omega) call
    have page : address/4096/64 = spot := by omega
    rw [page] at ones
    exact free ones
  | allocateConsecutive fuel pages =>
    obtain ⟨address,t',call,page⟩ := hands
    obtain ⟨taken⟩ := consecutiveTaken unfreed (by omega) call
    have value := taken.isAddress
    have enough : pages/64 ≤ wanted (pages/64) ∧ 1 ≤ wanted (pages/64) := by
      unfold wanted
      omega
    have empty := (takenEmpty taken).2 (p/64) (by omega) (by omega)
    rw [ones] at empty
    exact absurd empty (by decide)
  | free address => exact hands.elim

theorem bitOfWord {t u : Table} {p : Nat} (same : u (p/64) = t (p/64)) : bitAt u p = bitAt t p := by
  unfold bitAt
  rw [same]

theorem takesBlockWhole {s : State} {pages : Nat} (inside : s.allocationIndex < s.allocationTableLength)
    (small : s.allocationTableLength < 2^46) (some_ : 1 ≤ pages) (takes : TakesBlock s pages) :
    pages % 64 = 0 ∧ pages/64 < 2^32 ∧ ∃ r, EmptyRun s.allocationTable s.allocationTableLength (pages/64) r := by
  obtain ⟨fuel,address,s',call,_,block,_⟩ := takes
  obtain ⟨taken⟩ := consecutiveTaken inside small call
  have value := taken.isAddress
  have whole : pages % 64 = 0 := by
    by_contra part
    obtain ⟨_,free,marked⟩ := block (pages-1) (by omega)
    have word := taken.table ((address/4096+(pages-1))/64)
    rw [if_neg (by omega)] at word
    rw [bitOfWord word,free] at marked
    contradiction
  have count := wantedSame (show 1 ≤ pages/64 by omega)
  exact ⟨whole,taken.narrow,taken.word,count ▸ takenEmpty taken⟩

theorem takesBlockExact {s : State} {pages : Nat} (inside : s.allocationIndex < s.allocationTableLength)
    (small : s.allocationTableLength < 2^46) (some_ : 1 ≤ pages) :
    TakesBlock s pages ↔ pages % 64 = 0 ∧ pages/64 < 2^32 ∧
      ∃ r, EmptyRun s.allocationTable s.allocationTableLength (pages/64) r := by
  constructor
  · exact takesBlockWhole inside small some_
  · rintro ⟨whole,narrow,r,run⟩
    have count := wantedSame (show 1 ≤ pages/64 by omega)
    obtain ⟨fuel,address,s',call⟩ := consecutiveReturns inside small narrow (count.symm ▸ run)
    obtain ⟨taken⟩ := consecutiveTaken inside small call
    have value := taken.isAddress
    have empty := takenEmpty taken
    rw [count] at empty
    have fits := empty.1
    refine ⟨fuel,address,s',call,by omega,fun k less => ⟨by omega,?_,?_⟩,fun p changed => ?_,?_⟩
    · unfold bitAt
      rw [empty.2 _ (by omega) (by omega)]
      exact BitVec.getLsbD_zero
    · unfold bitAt
      rw [taken.table,if_pos (by omega),BitVec.getLsbD_allOnes]
      exact decide_eq_true (Nat.mod_lt _ (by decide))
    · have word := taken.table (p/64)
      split at word
      · exact ⟨p-address/4096,by omega,by omega⟩
      · exact absurd (bitOfWord word) changed
    · intro calls t later call' p unfreed hands k less
      have full : Full s.allocationTableLength taken.word (pages/64) t := by
        refine invariant (I := Full s.allocationTableLength taken.word (pages/64)) ?_ ?_ later
        · rintro t rfl
          refine ⟨taken.length,taken.index ▸ fits,fun i low high => ?_⟩
          rw [taken.table i,if_pos ⟨low,high⟩]
        · intro t call t' full move
          exact fullKeeps (by omega) small full move.1 move.2
      have apart := fullApart (by omega) small full unfreed hands
      omega

theorem takesBlockWord : TakesBlock (memoryPhysicalInitialize (fun _ => 0) 0 (2^18)) 64 := by
  refine (takesBlockExact (by decide) (by decide) (by decide)).mpr ⟨by decide,by decide,0,by decide,fun i _ less => ?_⟩
  obtain rfl : i = 0 := by omega
  rfl

theorem takesBlockNotPage : (0 + 1 ≤ 64*(memoryPhysicalInitialize (fun _ => 0) 0 (2^18)).allocationTableLength ∧
    bitAt (memoryPhysicalInitialize (fun _ => 0) 0 (2^18)).allocationTable 0 = false) ∧
    ¬ TakesBlock (memoryPhysicalInitialize (fun _ => 0) 0 (2^18)) 1 := by
  refine ⟨⟨by decide,rfl⟩,fun takes => ?_⟩
  have whole := (takesBlockWhole (by decide) (by decide) (by decide) takes).1
  omega

/-! The hint of the search. -/

def EndsBefore (s : State) : Call → Prop
  | .allocateConsecutive _ pages => 0 < pages ∧ pages % 64 = 0 ∧
      ((∃ r, s.allocationIndex ≤ r ∧ EmptyRun s.allocationTable s.allocationTableLength (pages/64) r ∧
          r+pages/64 < s.allocationTableLength) ∨
        ((∀ r, s.allocationIndex ≤ r → ¬ EmptyRun s.allocationTable s.allocationTableLength (pages/64) r) ∧
          ∃ r, EmptyRun s.allocationTable s.allocationTableLength (pages/64) r ∧ r+pages/64 < s.allocationTableLength))
  | _ => True

def Whole : Call → Prop
  | .allocateConsecutive _ pages => 0 < pages ∧ pages % 64 = 0
  | _ => True

def StaysInside (s : State) : Prop := s.allocationIndex < s.allocationTableLength ∧
  (∀ table : Table, (∀ w < s.allocationTableLength, table w = s.allocationTable w) → ∀ fuel,
    findWord table s.allocationTableLength fuel s.allocationIndex =
      findWord s.allocationTable s.allocationTableLength fuel s.allocationIndex ∧
    ∀ chunkCount, findEmptyWords table s.allocationTableLength chunkCount fuel s.allocationIndex 0 =
      findEmptyWords s.allocationTable s.allocationTableLength chunkCount fuel s.allocationIndex 0) ∧
  ∀ call p, Whole call → Hands s call p → p < 64*s.allocationTableLength

theorem findWordLocal {table u : Table} {length : Nat} (same : ∀ w < length, u w = table w) (fuel : Nat) {spot : Nat} (inside : spot < length) :
    findWord u length fuel spot = findWord table length fuel spot := by
  induction fuel generalizing spot with
  | zero => rfl
  | succ fuel ih =>
    simp only [findWord,same spot inside]
    rw [ih (by split <;> omega)]

theorem findEmptyLocal {table u : Table} {length : Nat} (same : ∀ w < length, u w = table w) (chunkCount fuel : Nat) {spot row : Nat}
    (inside : spot < length) : findEmptyWords u length chunkCount fuel spot row = findEmptyWords table length chunkCount fuel spot row := by
  induction fuel generalizing spot row with
  | zero => rfl
  | succ fuel ih =>
    rw [findEmptyWords,findEmptyWords,same spot inside,ih (by omega)]
    by_cases past : length ≤ spot+1
    · rw [if_pos past,if_pos past]
    · rw [if_neg past,if_neg past,ih (by omega)]

theorem takenEnds {s s' : State} {fuel pages address : Nat} (taken : Taken s pages address s')
    (ends : EndsBefore s (.allocateConsecutive fuel pages)) : taken.word + pages/64 < s.allocationTableLength := by
  obtain ⟨some_,whole,early⟩ := ends
  have count := wantedSame (show 1 ≤ pages/64 by omega)
  have found := taken.found
  rw [count] at found
  have least : ∀ r, EmptyRun s.allocationTable s.allocationTableLength (pages/64) r →
      (taken.word ≤ r ∨ (r < s.allocationIndex ∧ s.allocationIndex ≤ taken.word)) := by
    intro r run
    rcases found with ⟨after,_,first⟩ | ⟨_,_,first⟩
    · by_cases low : s.allocationIndex ≤ r
      · exact Or.inl (Nat.le_of_not_lt fun less => first r low less run)
      · exact Or.inr ⟨by omega,after⟩
    · exact Or.inl (Nat.le_of_not_lt fun less => first r less run)
  rcases early with ⟨r,low,run,inside⟩ | ⟨none,r,run,inside⟩
  · rcases least r run with less | ⟨below,_⟩ <;> omega
  · rcases least r run with less | ⟨_,after⟩
    · omega
    · rcases found with ⟨_,here,_⟩ | ⟨_,here,_⟩
      · exact absurd here (none _ after)
      · exact absurd here (none _ after)

theorem staysInside {s : State} (inside : s.allocationIndex < s.allocationTableLength) (small : s.allocationTableLength < 2^46) : StaysInside s := by
  refine ⟨inside,fun table same fuel => ⟨findWordLocal same fuel inside,fun chunkCount => findEmptyLocal same chunkCount fuel inside⟩,?_⟩
  intro call p whole hands
  cases call with
  | reserve address bytes => exact hands.elim
  | allocate =>
    obtain ⟨address,t,call,rfl⟩ := hands
    obtain ⟨spot,bit,below,place,_,value,_⟩ := allocateOne (by omega) call
    omega
  | allocateConsecutive fuel pages =>
    obtain ⟨address,t,call,page⟩ := hands
    obtain ⟨taken⟩ := consecutiveTaken inside small call
    obtain ⟨some_,whole⟩ := whole
    have value := taken.isAddress
    have run := (takenEmpty taken).1
    unfold wanted at run
    omega
  | free address => exact hands.elim

theorem indexStep {s s' : State} {call : Call} (inside : s.allocationIndex < s.allocationTableLength) (small : s.allocationTableLength < 2^46)
    (ends : EndsBefore s call) (move : State.step s call s') :
    s'.allocationIndex < s'.allocationTableLength ∧ s'.allocationTableLength < 2^46 := by
  cases call with
  | reserve address bytes =>
    have made : s' = memoryPhysicalReserve s address bytes := move
    obtain ⟨length,index⟩ := reserveFields s address bytes
    rw [made,length,index]
    exact ⟨inside,small⟩
  | allocate =>
    obtain ⟨address,call⟩ := move
    obtain ⟨spot,_,_,place,_,_,_,index,length⟩ := allocateOne (by omega) call
    rw [index,length]
    exact ⟨by omega,small⟩
  | allocateConsecutive fuel pages =>
    obtain ⟨address,call⟩ := move
    obtain ⟨taken⟩ := consecutiveTaken inside small call
    rw [taken.index,taken.length]
    exact ⟨takenEnds taken ends,small⟩
  | free address =>
    have made : s' = (memoryPhysicalFree s address).2 := move
    obtain ⟨length,index⟩ := freeFields s address
    rw [made,length,index]
    exact ⟨inside,small⟩

theorem searchStaysInside {contents : Nat → BitVec 64} {used total : Nat} {calls : List Call} {s : State} (bound : total < 2^64)
    (words : 1 ≤ total/4096/64)
    (run : ((callsFrom (memoryPhysicalInitialize contents used total)).restrict EndsBefore).Run calls s) : StaysInside s := by
  have both : s.allocationIndex < s.allocationTableLength ∧ s.allocationTableLength < 2^46 := by
    refine invariant (I := fun s => s.allocationIndex < s.allocationTableLength ∧ s.allocationTableLength < 2^46) ?_ ?_ run
    · rintro s rfl
      exact ⟨words,show total/4096/64 < 2^46 by omega⟩
    · intro s call s' both move
      exact indexStep both.1 both.2 move.1 move.2
  exact staysInside both.1 both.2

theorem searchStaysInsideTwo : ∃ s, ((callsFrom (memoryPhysicalInitialize (fun _ => 0) 0 (2^19))).restrict EndsBefore).Run
    [.allocateConsecutive 1 64] s ∧ StaysInside s := by
  obtain ⟨s,call⟩ : ∃ s, memoryPhysicalAllocateConsecutive 1 (memoryPhysicalInitialize (fun _ => 0) 0 (2^19)) 64 = some (0,s) := ⟨_,rfl⟩
  have empty : EmptyRun (memoryPhysicalInitialize (fun _ => 0) 0 (2^19)).allocationTable 2 1 0 := by
    refine ⟨by decide,fun i _ less => ?_⟩
    obtain rfl : i = 0 := by omega
    rfl
  have ends : EndsBefore (memoryPhysicalInitialize (fun _ => 0) 0 (2^19)) (.allocateConsecutive 1 64) :=
    ⟨by decide,by decide,Or.inl ⟨0,Nat.zero_le _,empty,by decide⟩⟩
  have move : State.step (memoryPhysicalInitialize (fun _ => 0) 0 (2^19)) (.allocateConsecutive 1 64) s := ⟨0,call⟩
  have run := (System.Run.start (S := (callsFrom (memoryPhysicalInitialize (fun _ => 0) 0 (2^19))).restrict EndsBefore) rfl).step ⟨ends,move⟩
  exact ⟨s,run,searchStaysInside (by decide) (by decide) run⟩

theorem searchLeaves : ∃ s, ((callsFrom (memoryPhysicalInitialize (fun _ => 0) 0 (2^18))).restrict fun _ call => Whole call).Run
    [.allocateConsecutive 1 64] s ∧ ¬ StaysInside s := by
  obtain ⟨s,call,past⟩ : ∃ s, memoryPhysicalAllocateConsecutive 1 (memoryPhysicalInitialize (fun _ => 0) 0 (2^18)) 64 = some (0,s) ∧
      ¬ s.allocationIndex < s.allocationTableLength := ⟨_,rfl,by decide⟩
  have whole : Whole (.allocateConsecutive 1 64) := ⟨by decide,by decide⟩
  have move : State.step (memoryPhysicalInitialize (fun _ => 0) 0 (2^18)) (.allocateConsecutive 1 64) s := ⟨0,call⟩
  have run := (System.Run.start (S := (callsFrom (memoryPhysicalInitialize (fun _ => 0) 0 (2^18))).restrict fun _ call => Whole call) rfl).step
    ⟨whole,move⟩
  exact ⟨s,run,fun stays => past stays.1⟩

end Kokos.PhysicalMemory

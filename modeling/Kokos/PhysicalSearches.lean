import Kokos.PhysicalConsecutive

/-! Both searches of memory_physical.c over any table at all: that they end, and where. -/
namespace Kokos.PhysicalMemory
open WordBits

def wordAfter (s : State) (k : Nat) : Nat := (s.allocationIndex+k) % s.allocationTableLength

structure WordSearch (s : State) (k : Nat) : Prop where
  steps : k < s.allocationTableLength
  passed : ∀ j < k, s.allocationTable (wordAfter s j) = BitVec.allOnes 64
  free : s.allocationTable (wordAfter s k) ≠ BitVec.allOnes 64
  ends : ∀ fuel, k < fuel → findWord s.allocationTable s.allocationTableLength fuel s.allocationIndex = some (wordAfter s k)
  scan : ∃ bit < 64, (∀ fuel, 64 ≤ fuel → scanOnes fuel (s.allocationTable (wordAfter s k)) 0 = bit) ∧
    (s.allocationTable (wordAfter s k)).getLsbD bit = false ∧
    (∀ i < bit, (s.allocationTable (wordAfter s k)).getLsbD i = true) ∧
    ∃ address s', memoryPhysicalAllocate s = some (address,s') ∧
      s'.allocationTable = setWord s.allocationTable (wordAfter s k) (s.allocationTable (wordAfter s k) ||| intMask bit)

def FindsRun (s : State) (c : Nat) : Prop := ∃ fuel spot,
  findEmptyWords s.allocationTable s.allocationTableLength ((64*c) >>> 6) fuel s.allocationIndex 0 = some spot ∧
  EmptyRun s.allocationTable s.allocationTableLength c spot

variable {s : State} {c r w : Nat}

theorem wordSearched (inside : s.allocationIndex < s.allocationTableLength) (less : w < s.allocationTableLength)
    (free : s.allocationTable w ≠ BitVec.allOnes 64) : ∃ k, WordSearch s k := by
  obtain ⟨k,steps,passed,here,found⟩ := findWordFirst s.allocationTable _ _ w inside less free
  obtain ⟨bound,clear,ones⟩ := scanOnesZero _ here
  have marks : memoryPhysicalAllocate s = _ := Option.bind_eq_some_iff.mpr ⟨_,found _ (Nat.le_succ _),if_neg (Nat.not_le_of_lt bound)⟩
  refine ⟨k,steps,passed,here,fun fuel enough => ?_,_,bound,fun fuel enough => scanOnesEnds _ here enough,clear,ones,_,_,marks,rfl⟩
  exact findWordAt s.allocationTable _ k _ fuel inside passed here enough

theorem chunksAsked (c : Nat) : (64*c) >>> 6 = c := by
  rw [Nat.shiftRight_eq_div_pow]
  omega

theorem findsRunIff (inside : s.allocationIndex < s.allocationTableLength) (small : s.allocationTableLength < 2^64) (some_ : 1 ≤ c)
    (run : EmptyRun s.allocationTable s.allocationTableLength c r) : FindsRun s c ↔ c < 2^32 := by
  have asked := wantedSame some_
  unfold FindsRun
  rw [chunksAsked]
  constructor
  · rintro ⟨fuel,spot,found,_⟩
    exact findEmptyNarrow found
  · intro narrow
    obtain ⟨fuel,spot,found⟩ := findEmptyEnds narrow inside small (asked.symm ▸ run)
    have empty := findEmptyRun inside small found
    rw [asked] at empty
    exact ⟨fuel,spot,found,empty⟩

/-- The row is counted in 32 bits, so the search for 2^32 words or more never ends. -/
theorem searchesEndIff (inside : s.allocationIndex < s.allocationTableLength) (small : s.allocationTableLength < 2^64) :
    ((∃ w < s.allocationTableLength, s.allocationTable w ≠ BitVec.allOnes 64) → ∃ k, WordSearch s k) ∧
    ∀ c r, 1 ≤ c → 64*c < 2^64 → EmptyRun s.allocationTable s.allocationTableLength c r → (FindsRun s c ↔ c < 2^32) := by
  refine ⟨?_,fun c r some_ _ run => findsRunIff inside small some_ run⟩
  rintro ⟨w,less,free⟩
  exact wordSearched inside less free

def wrapping : State := ⟨fun i => if i = 0 then 0 else BitVec.allOnes 64,1,2,64⟩

theorem wrappingRun : EmptyRun wrapping.allocationTable wrapping.allocationTableLength 1 0 := by
  refine ⟨by decide,fun i low high => if_pos ?_⟩
  omega

theorem searchesEndWrapping : (∃ k, WordSearch wrapping k) ∧ (FindsRun wrapping 1 ↔ 1 < 2^32) :=
  ⟨(searchesEndIff (by decide) (by decide)).1 ⟨0,by decide,by decide⟩,
    (searchesEndIff (by decide) (by decide)).2 1 0 (by decide) (by decide) wrappingRun⟩

theorem searchSpins : ¬ ∀ s : State, s.allocationIndex < s.allocationTableLength → s.allocationTableLength < 2^64 →
    ∀ c r, 1 ≤ c → 64*c < 2^64 → EmptyRun s.allocationTable s.allocationTableLength c r → FindsRun s c := by
  intro finds
  let s := memoryPhysicalInitialize (fun _ => 0) 0 (2^50)
  have words : s.allocationTableLength = 2^32 := rfl
  have empty : EmptyRun s.allocationTable s.allocationTableLength (2^32) 0 :=
    ⟨by omega,fun i _ inside => if_pos (show i < s.allocationTableLength by omega)⟩
  have index : s.allocationIndex = 0 := rfl
  obtain ⟨fuel,spot,found,_⟩ := finds s (by omega) (by omega) (2^32) 0 (by decide) (by decide) empty
  rw [chunksAsked] at found
  exact Nat.lt_irrefl _ (findEmptyNarrow found)

end Kokos.PhysicalMemory

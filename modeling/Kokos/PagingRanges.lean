import Kokos.PagingFrontier
import Kokos.PagingRuns

/-! What a mapping call with a given address does to every address: its range reaches
the memory it was given, or the pages it took, and nothing outside the range moves. -/
namespace Kokos.Paging
open BudgetedCalls RadixTables

section
variable {σ : Type}

def KeepsBeside (root : Nat) (s s' : Machine σ) (d target bytes : Nat) : Prop :=
  ∀ a, a % 2^48 < target ∨ target + blocks d bytes * span d ≤ a % 2^48 →
    pagingGetPhysicalAddress s'.world.memory root a = pagingGetPhysicalAddress s.world.memory root a

def MapsOnto (root : Nat) (s s' : Machine σ) (d target given bytes : Nat) : Prop :=
  (∀ k < bytes, pagingGetPhysicalAddress s'.world.memory root (target+k) = given+k) ∧ KeepsBeside root s s' d target bytes

variable [PageAllocator σ]

def MapsFrames (root : Nat) (s s' : Machine σ) (target bytes : Nat) : Prop := ∃ frame : Nat → Nat,
  (∀ i < blocks 3 bytes, IsPage (frame i) ∧ ¬ PageAllocator.Taken s.world.allocator (frame i) ∧
    PageAllocator.Taken s'.world.allocator (frame i)) ∧
  (∀ i j, i < j → j < blocks 3 bytes → frame i ≠ frame j) ∧
  (∀ f, f ∈ s'.world.frames ↔ f ∈ s.world.frames ∨ ∃ i < blocks 3 bytes, f = frame i) ∧
  (∀ k < bytes, pagingGetPhysicalAddress s'.world.memory root (target+k) = frame (k/4096) + k%4096) ∧
  KeepsBeside root s s' 3 target bytes

theorem roundedUp {d bytes : Nat} (some : 1 ≤ bytes) (word : bytes < 2^64) : bytes ≤ blocks d bytes * span d := by
  have count : blocks d bytes = (bytes-1) / span d + 1 := by
    unfold blocks units span
    rw [show (bytes + (2^64 - 1)) % 2^64 = bytes-1 by omega,Nat.shiftRight_eq_div_pow,Nat.pow_add,Nat.pow_mul]
  have under := Nat.lt_mul_div_succ (bytes-1) (spanPositive d)
  rw [count,Nat.mul_comm]
  omega

theorem unmappedClear {E : Nat → Nat → Nat} {a d : Nat} (depth : d ≤ 3) (none : ¬ Mapped E a) : Clear shape E d (numberAt a d) := by
  intro e he
  rw [shapeFanout,overPath a depth (Nat.le_of_lt he)]
  by_contra leaf
  have leaf := Bool.not_eq_false _ ▸ leaf
  refine none ⟨e,by omega,?_,leaf⟩
  intro zero
  rw [show E e (numberAt a e) = 0 from zero,leafZero (by omega)] at leaf
  contradiction

theorem unmappedLast {E : Nat → Nat → Nat} {a : Nat} (none : ¬ Mapped E a) : E 3 (numberAt a 3) = 0 := by
  by_contra some
  exact none ⟨3,by decide,some,leafDepth _ (by decide)⟩

theorem numberLow (a d : Nat) : numberAt a d = a % 2^48 / span d := by
  rw [← numberOf (Nat.mod_lt a (by decide))]
  unfold numberAt pageNumber
  congr 1
  omega

theorem spanSpace {d : Nat} (depth : d ≤ 3) : span d ∣ 2^48 := ⟨512^(d+1),by rw [← spaceSize depth,Nat.mul_comm]⟩

theorem alignedStart {d a : Nat} (depth : d ≤ 3) (aligned : a % span d = 0) : a % 2^48 = numberAt a d * span d := by
  rw [numberLow]
  exact (Nat.div_mul_cancel ((Nat.dvd_mod_iff (spanSpace depth)).mpr (Nat.dvd_of_mod_eq_zero aligned))).symm

theorem rangeNumber {d a n k bytes : Nat} (depth : d ≤ 3) (starts : a % 2^48 = n * span d) (inside : n + blocks d bytes < 512^(d+1))
    (some : 1 ≤ bytes) (word : bytes < 2^64) (less : k < bytes) : ∃ j < blocks d bytes, numberAt (a+k) d = n+j := by
  obtain ⟨block,number,_⟩ := offsetNumber depth inside (Nat.lt_of_lt_of_le less (roundedUp some word))
  refine ⟨_,block,?_⟩
  rw [← number,← starts,numberLow,numberLow (a % 2^48 + k),Nat.mod_add_mod]

section
variable {root n bytes flags d : Nat} {s s' : Machine σ} {source : Source} {c c' : PagingContext} {val : Nat → Nat}

theorem resultBeside (size : depthOf flags = d)
    (result : MapResult source root n bytes flags c s.world s'.world true c' (blocks d bytes) val) :
    KeepsBeside root s s' d (n * span d) bytes := by
  intro a outside
  have high := (depthCases flags).2
  have filled := result.filled
  rw [size] at filled high
  rw [translation,translation]
  refine (resolveOutside (entriesGrounded _ _) (entriesGrounded _ _) filled high ?_).1
  rw [numberLow]
  rcases outside with below | above
  · exact Or.inl ((Nat.div_lt_iff_lt_mul (spanPositive d)).mpr below)
  · rw [← Nat.add_mul] at above
    exact Or.inr ((Nat.le_div_iff_mul_le (spanPositive d)).mpr above)

theorem resultOnto {given : Nat} (size : depthOf flags = d) (some : 1 ≤ bytes) (word : bytes < 2^64) (aligned : given % span d = 0)
    (bound : given + blocks d bytes * span d ≤ 2^52) (inside : n + blocks d bytes < 512^(d+1))
    (result : MapResult (.physical given) root n bytes flags c s.world s'.world true c' (blocks d bytes) val) :
    MapsOnto root s s' d (n * span d) given bytes := by
  refine ⟨fun k less => ?_,resultBeside size result⟩
  rw [translation]
  exact physicalReaches size aligned bound inside result k (Nat.lt_of_lt_of_le less (roundedUp some word))

theorem resultFrames (size : depthOf flags = 3) (some : 1 ≤ bytes) (word : bytes < 2^64) (inside : n + blocks 3 bytes < 512^(3+1))
    (result : MapResult .allocated root n bytes flags c s.world s'.world true c' (blocks 3 bytes) val) :
    MapsFrames root s s' (n * span 3) bytes := by
  obtain ⟨different,fresh⟩ := drawnFrames result
  refine ⟨fun i => val i &&& 0xFFFFFFFFFF000,fresh,different,fun f => ?_,fun k less => ?_,resultBeside size result⟩
  · simp only [result.frames,Source.frames,List.mem_singleton]
  · rw [translation]
    exact resultReaches size inside result k (Nat.lt_of_lt_of_le less (roundedUp some word))

end

variable {root fuel target bytes flags : Nat} {source : Source} {start s s' : Machine σ} {v : Nat}

theorem targetNumber {d target m : Nat} (depth : d ≤ 3) (aligned : target % span d = 0) (low : target + m * span d < 2^48) :
    numberAt target d * span d = target ∧ numberAt target d + m < 512^(d+1) := by
  have whole : target / span d * span d = target := Nat.div_mul_cancel (Nat.dvd_of_mod_eq_zero aligned)
  rw [numberOf (by omega)]
  refine ⟨whole,?_⟩
  apply Nat.lt_of_mul_lt_mul_right (a := span d)
  rw [Nat.add_mul,whole,spaceSize depth]
  exact low

theorem freshRangeMapped (sane : Sane root start) (run : Reached fuel (Orderly root) start s) (small : depthOf flags = 3)
    (aligned : target % span 3 = 0) (some : 1 ≤ bytes) (word : bytes < 2^64) (low : target + blocks 3 bytes * span 3 < 2^48)
    (vacant : ∀ k < blocks 3 bytes * span 3, ¬ Mapped (s.entries root) (target+k))
    (index : s.entries root 2 (numberAt target 2) = 0 → numberAt target 1 % 512 = numberAt target 2 % 512)
    (behind : Clear shape (s.entries root) 3 (numberAt target 3 + blocks 3 bytes)) :
    (∀ given v s', given % span 3 = 0 → given + blocks 3 bytes * span 3 ≤ 2^52 →
      perform fuel s (.mapAt (.physical given) target bytes flags) = .ok (v,s') → v = target ∧ MapsOnto root s s' 3 target given bytes) ∧
    ∀ v s', perform fuel s (.mapAt .allocated target bytes flags) = .ok (v,s') → v = target ∧ MapsFrames root s s' target bytes := by
  have now := reachedSane (fun _ _ h => h) sane run
  obtain ⟨whole,inside⟩ := targetNumber (by decide) aligned low
  have none : ∀ j < blocks 3 bytes, ∃ a, numberAt a 3 = numberAt target 3 + j ∧ ¬ Mapped (s.entries root) a := by
    intro j less
    have offset : j * span 3 < blocks 3 bytes * span 3 := (Nat.mul_lt_mul_right (spanPositive 3)).mpr less
    obtain ⟨_,number,_⟩ := offsetNumber (by decide) inside offset
    rw [whole,Nat.mul_div_cancel _ (spanPositive 3)] at number
    exact ⟨_,number,vacant _ offset⟩
  have clear : ∀ j ≤ blocks 3 bytes, Clear shape (s.entries root) 3 (numberAt target 3 + j) := by
    intro j le
    by_cases last : j = blocks 3 bytes
    · rw [last]
      exact behind
    · obtain ⟨a,number,free⟩ := none j (by omega)
      rw [← number]
      exact unmappedClear (by decide) free
  have first := vacant 0 (Nat.mul_pos (blocksPositive 3 bytes) (spanPositive 3))
  have walkable : Walkable (s.entries root) (depthOf flags) target := by
    rw [small]
    exact ⟨clear 0 (Nat.zero_le _),fun _ => index⟩
  have runway : Runway (s.entries root) (numberAt target (depthOf flags)) bytes flags := by
    intro j _ le _
    rw [small] at le ⊢
    exact ⟨clear j le,fun one => absurd one (by decide)⟩
  have empty : s.entries root 3 (numberAt target 3) = 0 := unmappedLast first
  rw [← small] at aligned inside
  refine ⟨fun given v s' page bound call => ?_,fun v s' call => ?_⟩
  · have accepts : Accepts s.world.hugepagesSupported (s.entries root) (depthOf flags) (numberAt target (depthOf flags))
        (.physical given) bytes flags := by
      rw [small]
      exact ⟨by omega,fun one => absurd one (by decide),page,Or.inl empty⟩
    obtain ⟨value,c',val,result⟩ := mapAtAccepted now (orderlyAt _ walkable runway) aligned inside accepts call
    rw [small] at result inside
    have onto := resultOnto small some word page bound inside result
    rw [whole] at onto
    exact ⟨value,onto⟩
  · have accepts : Accepts s.world.hugepagesSupported (s.entries root) (depthOf flags) (numberAt target (depthOf flags))
        .allocated bytes flags := ⟨by omega,small,by rw [small]; exact empty⟩
    obtain ⟨value,c',val,result⟩ := mapAtAccepted now (orderlyAt _ walkable runway) aligned inside accepts call
    rw [small] at result inside
    have frames := resultFrames small some word inside result
    rw [whole] at frames
    exact ⟨value,frames⟩

theorem succeededRangeMapped {given : Nat} (sane : Sane root start) (run : Reached fuel (Orderly root) start s)
    (some : 1 ≤ bytes) (word : bytes < 2^64) (bound : given + blocks (depthOf flags) bytes * span (depthOf flags) ≤ 2^52)
    (aligned : target % span (depthOf flags) = 0) (low : target + blocks (depthOf flags) bytes * span (depthOf flags) < 2^48)
    (orderly : Orderly root s (.mapAt (.physical given) target bytes flags))
    (call : perform fuel s (.mapAt (.physical given) target bytes flags) = .ok (v,s')) (success : v ≠ 0) :
    v = target ∧ MapsOnto root s s' (depthOf flags) target given bytes := by
  have now := reachedSane (fun _ _ h => h) sane run
  obtain ⟨whole,inside⟩ := targetNumber (depthCases flags).2 aligned low
  have effect := performed now orderly call
  cases effect with
  | @mappedAt _ _ _ _ ok _ done _ _ result _ _ =>
    cases ok with
    | false => exact absurd rfl success
    | true =>
      obtain ⟨rfl,accepts,_⟩ := result.succeeds rfl
      have onto := resultOnto rfl some word accepts.2.2.1 bound inside result
      rw [whole] at onto
      exact ⟨rfl,onto⟩

theorem replacedRangeMapped {given : Nat} (sane : Sane root start) (run : Reached fuel (Orderly root) start s)
    (replace : has flags flagReplace = true) (supported : depthOf flags = 1 → s.world.hugepagesSupported = true)
    (some : 1 ≤ bytes) (word : bytes < 2^64) (page : given % span (depthOf flags) = 0)
    (bound : given + blocks (depthOf flags) bytes * span (depthOf flags) ≤ 2^52) (aligned : target % span (depthOf flags) = 0)
    (low : target + blocks (depthOf flags) bytes * span (depthOf flags) < 2^48)
    (orderly : Orderly root s (.mapAt (.physical given) target bytes flags))
    (first : depthOf flags = 3 → s.entries root 3 (numberAt target 3) = 0)
    (call : perform fuel s (.mapAt (.physical given) target bytes flags) = .ok (v,s')) :
    v = target ∧ MapsOnto root s s' (depthOf flags) target given bytes := by
  have now := reachedSane (fun _ _ h => h) sane run
  obtain ⟨whole,inside⟩ := targetNumber (depthCases flags).2 aligned low
  have accepts : Accepts s.world.hugepagesSupported (s.entries root) (depthOf flags) (numberAt target (depthOf flags))
      (.physical given) bytes flags := by
    refine ⟨by omega,supported,page,?_⟩
    by_cases small : depthOf flags = 3
    · rw [small]
      exact Or.inl (first small)
    · have high := (depthCases flags).2
      exact Or.inr ⟨by omega,replace⟩
  obtain ⟨value,c',val,result⟩ := mapAtAccepted now orderly aligned inside accepts call
  have onto := resultOnto rfl some word page bound inside result
  rw [whole] at onto
  exact ⟨value,onto⟩

end

theorem freshRangeMappedPage : ∃ s, perform 1 (blank false) (.mapAt (.physical 0x50000) 0x3000 4096 2) = .ok (0x3000,s) ∧
    MapsOnto 0x1000 (blank false) s 3 0x3000 0x50000 4096 := by
  obtain ⟨s,call⟩ := blankReturns (show 0x50000 % 4096 = 0 by decide)
  have clear : Clear shape ((blank false).entries 0x1000) 3 (numberAt 0x3000 3 + blocks 3 4096) := emptyClear blankZero (by decide) _
  have here : Reached 1 (Orderly 0x1000) (blank false) (blank false) := .start
  have small : depthOf 2 = 3 := rfl
  obtain ⟨physical,_⟩ := freshRangeMapped (blankSane false) here small (by decide) (by decide) (by decide)
    (by decide) (fun k _ => blankUnmapped false _) (fun _ => by decide) clear
  exact ⟨s,call,(physical 0x50000 0x3000 s (by decide) (by decide) call).2⟩

/-- Level-3 index 1 and level-2 index 2: the new level-1 table is linked at entry 1 of
the level-2 table, and the page cannot be found. -/
theorem freshRangeLost : ∃ s', Reached 1 (fun _ _ => True) (blank false) (blank false) ∧ depthOf 2 = 3 ∧
    (∀ k < 4096, ¬ Mapped ((blank false).entries 0x1000) (0x40400000+k)) ∧
    perform 1 (blank false) (.mapAt (.physical 0x50000) 0x40400000 4096 2) = .ok (0x40400000,s') ∧
    pagingGetPhysicalAddress s'.world.memory 0x1000 0x40400000 = 0 := by
  have runs : returns (perform 1 (blank false) (.mapAt (.physical 0x50000) 0x40400000 4096 2)) (fun v s' =>
      decide (v = 0x40400000 ∧ pagingGetPhysicalAddress s'.world.memory 0x1000 0x40400000 = 0)) = true := by decide +kernel
  obtain ⟨v,s',call,facts⟩ := returnsOk runs
  obtain ⟨rfl,lost⟩ := of_decide_eq_true facts
  exact ⟨s',.start,rfl,fun k _ => blankUnmapped false _,call,lost⟩

theorem succeededRangeMappedTwo : ∃ s, perform 1 (blank true) (.mapAt (.physical 0x40000000) 0x40000000 0x80000000 0b10010) = .ok (0x40000000,s) ∧
    MapsOnto 0x1000 (blank true) s 1 0x40000000 0x40000000 0x80000000 := by
  have orderly : Orderly 0x1000 (blank true) (.mapAt (.physical 0x40000000) 0x40000000 0x80000000 0b10010) :=
    emptyOrderly _ blankZero fun three => absurd three (by decide)
  obtain ⟨s,call⟩ := acceptedReturns 1 (blankSane true) orderly (by decide) (by decide)
    ⟨by decide,fun _ => rfl,by decide,Or.inl (blankZero _ _)⟩ (by decide)
  exact ⟨s,call,(succeededRangeMapped (blankSane true) .start (by decide) (by decide) (by decide) (by decide) (by decide) orderly call (by decide)).2⟩

/-- Level-4 slot 1 has a table, for the third GiB in it. Two 1 GiB pages that cross into
the slot: the second one is written three bytes off that table. -/
theorem crossingRangeLost : ∃ s s', Reached 1 (fun _ _ => True) (blank true) s ∧
    (∀ k < 0x80000000, ¬ Mapped (s.entries 0x1000) (0x7FC0000000+k)) ∧
    perform 1 s (.mapAt (.physical 0x40000000) 0x7FC0000000 0x80000000 0b10010) = .ok (0x7FC0000000,s') ∧
    pagingGetPhysicalAddress s'.world.memory 0x1000 0x8000000000 ≠ 0x80000000 := by
  have runs : returns (perform 1 (blank true) (.mapAt (.physical 0) 0x8080000000 0x40000000 0b10010)) (fun _ s =>
      returns (perform 1 s (.mapAt (.physical 0x40000000) 0x7FC0000000 0x80000000 0b10010)) fun v' s' =>
        decide (v' = 0x7FC0000000 ∧ s.entries 0x1000 1 511 = 0 ∧ s.entries 0x1000 1 512 = 0 ∧
          pagingGetPhysicalAddress s'.world.memory 0x1000 0x8000000000 ≠ 0x80000000)) = true := by decide +kernel
  obtain ⟨v,s,first,rest⟩ := returnsOk runs
  obtain ⟨v',s',second,facts⟩ := returnsOk rest
  obtain ⟨rfl,low,high,lost⟩ := of_decide_eq_true facts
  have none : ∀ k < 0x80000000, ¬ Mapped (s.entries 0x1000) (0x7FC0000000+k) := by
    intro k less
    have number : numberAt (0x7FC0000000+k) 1 = 511 ∨ numberAt (0x7FC0000000+k) 1 = 512 := by
      unfold numberAt pageNumber
      omega
    have clear : Clear shape (s.entries 0x1000) 1 (numberAt (0x7FC0000000+k) 1) := by
      intro e he
      obtain rfl : e = 0 := Nat.lt_one_iff.mp he
      exact leafRoot _
    refine notMapped (entriesGrounded _ _) (by decide) clear ?_
    rcases number with here | here
    · rw [here]
      exact low
    · rw [here]
      exact high
  exact ⟨s,s',.step .start trivial first,none,second,lost⟩

theorem replacedRangeMappedPage : ∃ s s', perform 1 (blank false) (.mapAt (.physical 0x400000) 0x200000 0x200000 0b100010) = .ok (0x200000,s) ∧
    perform 1 s (.mapAt (.physical 0x600000) 0x200000 0x200000 0b1100010) = .ok (0x200000,s') ∧
    MapsOnto 0x1000 s s' 2 0x200000 0x600000 0x200000 := by
  have runs : returns (perform 1 (blank false) (.mapAt (.physical 0x400000) 0x200000 0x200000 0b100010)) (fun v s =>
      returns (perform 1 s (.mapAt (.physical 0x600000) 0x200000 0x200000 0b1100010)) fun v' _ =>
        decide (v = 0x200000 ∧ v' = 0x200000 ∧ Walkable (s.entries 0x1000) 2 0x200000 ∧
          Runway (s.entries 0x1000) 1 0x200000 0b1100010)) = true := by decide +kernel
  obtain ⟨v,s,first,rest⟩ := returnsOk runs
  obtain ⟨v',s',second,facts⟩ := returnsOk rest
  obtain ⟨rfl,rfl,walkable,runway⟩ := of_decide_eq_true facts
  have allowed : Orderly 0x1000 (blank false) (.mapAt (.physical 0x400000) 0x200000 0x200000 0b100010) :=
    emptyOrderly _ blankZero fun three => absurd three (by decide)
  have orderly : Orderly 0x1000 s (.mapAt (.physical 0x600000) 0x200000 0x200000 0b1100010) := orderlyAt _ walkable runway
  have placed := replacedRangeMapped (blankSane false) (.step .start allowed first) (by decide) (fun one => absurd one (by decide))
    (by decide) (by decide) (by decide) (by decide) (by decide) (by decide) orderly (fun three => absurd three (by decide)) second
  exact ⟨s,s',first,second,placed.2⟩

theorem replacedRangeRefused : ∃ s s', Reached 1 (fun _ _ => True) (blank false) s ∧ has 0b1000010 flagReplace = true ∧
    perform 1 s (.mapAt (.physical 0x60000) 0x3000 4096 0b1000010) = .ok (0,s') ∧
    pagingGetPhysicalAddress s'.world.memory 0x1000 0x3000 = 0x50000 := by
  have runs : returns (perform 1 (blank false) (.mapAt (.physical 0x50000) 0x3000 4096 2)) (fun _ s =>
      returns (perform 1 s (.mapAt (.physical 0x60000) 0x3000 4096 0b1000010)) fun v' s' =>
        decide (v' = 0 ∧ pagingGetPhysicalAddress s'.world.memory 0x1000 0x3000 = 0x50000)) = true := by decide +kernel
  obtain ⟨v,s,first,rest⟩ := returnsOk runs
  obtain ⟨v',s',second,facts⟩ := returnsOk rest
  obtain ⟨rfl,kept⟩ := of_decide_eq_true facts
  exact ⟨s,s',.step .start trivial first,by decide,second,kept⟩

end Kokos.Paging

import Kokos.PhysicalReservations

/-! What memory_physical_allocated answers in a run of reservations, allocations and
frees of held pages. It takes the page index for the word index, so it reads the bit of
another page, and pages from the number of words on count as allocated. -/
namespace Kokos.PhysicalMemory
open WordBits BitTables TransitionRuns

structure Ledger where
  books : Books
  marks : Finset (Nat × Nat)

def narrowBit (p : Nat) : Nat × Nat := (p/64 % 2^32,p % 32)

def reservedRange (s : State) (address bytes : Nat) : Finset Nat :=
  Finset.Ico (reserveStart address) (min (reserveStart address + reserveCount address bytes) s.allocationTableLength)

def Ledger.step (l : Ledger) : Call → Ledger → Prop
  | .reserve address bytes, l' => address < 2^64 ∧ bytes < 2^64 ∧
      l' = ⟨⟨memoryPhysicalReserve l.books.state address bytes,
          l.books.reserved ∪ covered l.books.state address bytes,l.books.held⟩,
        l.marks ∪ (reservedRange l.books.state address bytes).image narrowBit⟩
  | .allocate, l' => ∃ address s, memoryPhysicalAllocate l.books.state = some (address,s) ∧
      l' = ⟨⟨s,l.books.reserved,insert (address/4096) l.books.held⟩,
        insert (address/4096/64,address/4096 % 32) l.marks⟩
  | .allocateConsecutive _ _, _ => False
  | .free address, l' => address < 2^64 ∧ address/4096 ∈ l.books.held ∧
      l' = ⟨⟨(memoryPhysicalFree l.books.state address).2,l.books.reserved,l.books.held.erase (address/4096)⟩,
        l.marks.erase (narrowBit (address/4096))⟩

def ledger (contents : Nat → BitVec 64) (total : Nat) : System Ledger Call where
  start l := l = ⟨⟨memoryPhysicalInitialize contents 0 total,∅,∅⟩,∅⟩
  step := Ledger.step

structure Recorded (l : Ledger) : Prop where
  sound : Sound l.books.state
  held : ∀ p ∈ l.books.held, p < 64*l.books.state.allocationTableLength ∧ p % 64 < 32
  marked : ∀ w < l.books.state.allocationTableLength, ∀ b < 32, low l.books.state w b = true ↔ (w,b) ∈ l.marks

theorem freeFields (s : State) (address : Nat) :
    (memoryPhysicalFree s address).2.allocationTableLength = s.allocationTableLength ∧
    (memoryPhysicalFree s address).2.allocationIndex = s.allocationIndex := by
  simp only [memoryPhysicalFree]
  split
  · exact ⟨rfl,rfl⟩
  · split <;> exact ⟨rfl,rfl⟩

theorem lowPlace (s : State) (w : Nat) {b : Nat} (inside : b < 64) : bitAt s.allocationTable (64*w+b) = low s w b :=
  bitPlace _ inside

theorem hitsUpper (i w : Nat) {j : Nat} (low : 31 ≤ j) (inside : j < 64) : hits i (64*w+j) = hits i (64*w+31) := by
  rw [Bool.eq_iff_iff,hitsIff,hitsIff]
  omega

theorem hitsLow (i w : Nat) {b : Nat} (inside : b < 32) : hits i (64*w+b) = decide ((w,b) = narrowBit i) := by
  unfold narrowBit
  rw [Bool.eq_iff_iff,hitsIff,decide_eq_true_eq,Prod.mk.injEq]
  omega

theorem freeSound {s : State} (sound : Sound s) (address : Nat) : Sound (memoryPhysicalFree s address).2 := by
  obtain ⟨length,index⟩ := freeFields s address
  refine ⟨by rw [length,index]; exact sound.inside,length ▸ sound.small,?_⟩
  rw [length]
  rcases freeDoes s address with ⟨_,same⟩ | ⟨_,_,bits⟩
  · rw [same]
    exact sound.upper
  · intro w hw i h31 h64
    have before := sound.upper w hw i h31 h64
    rw [← bitPlace _ h64,← bitPlace _ (show 31 < 64 by decide)] at before ⊢
    rw [bits,bits,before,hitsUpper _ _ h31 h64]

theorem maskedLow {s : State} (sound : Sound s) {p : Nat} (inside : p/64 % 2^32 < s.allocationTableLength) :
    Masked s.allocationTable p ↔ low s (p/64 % 2^32) (p % 32) = true := by
  constructor
  · intro masked
    have set := testedMark (sound.upper _ inside) (p % 64) masked
    rwa [show p % 64 % 32 = p % 32 by omega] at set
  · intro set
    apply maskedOfMark
    unfold markedPage
    rwa [Nat.mul_comm,lowPlace _ _ (by omega)]

theorem freeLow {s : State} (sound : Sound s) {address : Nat} (inside : address/4096/64 % 2^32 < s.allocationTableLength)
    (w b : Nat) (hb : b < 32) : low (memoryPhysicalFree s address).2 w b =
      (low s w b && !decide ((w,b) = narrowBit (address/4096))) := by
  rcases freeDoes s address with ⟨idle,same⟩ | ⟨_,_,bits⟩
  · rw [same]
    have clear : low s (address/4096/64 % 2^32) (address/4096 % 32) = false := by
      rcases idle with outside | clear
      · omega
      · rw [maskedLow sound inside] at clear
        exact Bool.eq_false_iff.mpr clear
    by_cases this : (w,b) = narrowBit (address/4096)
    · obtain ⟨rfl,rfl⟩ := Prod.mk.inj this
      rw [clear]
      rfl
    · rw [decide_eq_false this,Bool.not_false,Bool.and_true]
  · have here := bits (64*w+b)
    rwa [lowPlace _ _ (by omega),lowPlace _ _ (by omega),hitsLow _ _ hb] at here

theorem reserveFields (s : State) (address bytes : Nat) :
    (memoryPhysicalReserve s address bytes).allocationTableLength = s.allocationTableLength ∧
    (memoryPhysicalReserve s address bytes).allocationIndex = s.allocationIndex := by
  unfold memoryPhysicalReserve
  exact reserveLoopFields _ _ s

theorem reserveSound {s : State} (sound : Sound s) (address bytes : Nat) : Sound (memoryPhysicalReserve s address bytes) := by
  unfold memoryPhysicalReserve
  exact reserveLoopSound _ _ sound

theorem reserveLow {s : State} (sound : Sound s) (address bytes w b : Nat) (hb : b < 32) :
    low (memoryPhysicalReserve s address bytes) w b = true ↔
      low s w b = true ∨ (w,b) ∈ (reservedRange s address bytes).image narrowBit := by
  unfold memoryPhysicalReserve
  rw [reserveLoopLow _ _ sound w b hb,Finset.mem_image]
  refine or_congr_right ⟨?_,?_⟩
  · rintro ⟨q,low,high,inside,rfl,rfl⟩
    exact ⟨q,Finset.mem_Ico.mpr ⟨low,lt_min high inside⟩,rfl⟩
  · rintro ⟨q,member,same⟩
    obtain ⟨low,high⟩ := Finset.mem_Ico.mp member
    obtain ⟨high,inside⟩ := lt_min_iff.mp high
    exact ⟨q,low,high,inside,(congrArg Prod.fst same).symm,(congrArg Prod.snd same).symm⟩

theorem recordedMore {l : Ledger} (recorded : Recorded l) {s : State} {reserved : Finset Nat} {more : Finset (Nat × Nat)}
    (sound : Sound s) (length : s.allocationTableLength = l.books.state.allocationTableLength)
    (marked : ∀ w b, b < 32 → (low s w b = true ↔ low l.books.state w b = true ∨ (w,b) ∈ more)) :
    Recorded ⟨⟨s,reserved,l.books.held⟩,l.marks ∪ more⟩ := by
  refine ⟨sound,fun p member => ?_,fun w hw b hb => ?_⟩
  · dsimp only
    rw [length]
    exact recorded.held p member
  · dsimp only at hw ⊢
    rw [length] at hw
    rw [marked w b hb,recorded.marked w hw b hb,Finset.mem_union]

theorem recordedAllocate {l : Ledger} (recorded : Recorded l) {address : Nat} {s : State}
    (call : memoryPhysicalAllocate l.books.state = some (address,s)) :
    Recorded ⟨⟨s,l.books.reserved,insert (address/4096) l.books.held⟩,insert (address/4096/64,address/4096 % 32) l.marks⟩ := by
  obtain ⟨done⟩ := allocateSound recorded.sound call
  have word := done.wordInside
  have bit := done.bitInside
  have page := allocatedPage done
  refine ⟨done.sound,fun p member => ?_,fun w hw b hb => ?_⟩
  · dsimp only at member ⊢
    rw [done.length]
    rcases Finset.mem_insert.mp member with rfl | old
    · omega
    · exact recorded.held p old
  · dsimp only at hw ⊢
    rw [done.length] at hw
    have own : (w,b) = (address/4096/64,address/4096 % 32) ↔ w = done.word ∧ b = done.bit := by
      rw [Prod.mk.injEq]
      omega
    rw [done.marked w b hb,Bool.or_eq_true,decide_eq_true_eq,recorded.marked w hw b hb,Finset.mem_insert,own,or_comm]

theorem recordedFree {l : Ledger} (recorded : Recorded l) {address : Nat} (member : address/4096 ∈ l.books.held) :
    Recorded ⟨⟨(memoryPhysicalFree l.books.state address).2,l.books.reserved,l.books.held.erase (address/4096)⟩,
      l.marks.erase (narrowBit (address/4096))⟩ := by
  have length := (freeFields l.books.state address).1
  have inside := (recorded.held _ member).1
  refine ⟨freeSound recorded.sound address,fun p still => ?_,fun w hw b hb => ?_⟩
  · dsimp only
    rw [length]
    exact recorded.held p (Finset.mem_of_mem_erase still)
  · dsimp only at hw ⊢
    rw [length] at hw
    rw [freeLow recorded.sound (by omega) w b hb,Bool.and_eq_true,Bool.not_eq_true',decide_eq_false_iff_not,
      recorded.marked w hw b hb,Finset.mem_erase,and_comm]

theorem recordedRun {contents : Nat → BitVec 64} {total : Nat} {calls : List Call} {l : Ledger} (bound : total < 2^64)
    (words : 0 < l.books.state.allocationTableLength) (run : (ledger contents total).Run calls l) : Recorded l := by
  induction run with
  | start first =>
    subst first
    refine ⟨initializeSound contents 0 total (by omega) words,fun p member => absurd member (Finset.notMem_empty p),?_⟩
    intro w hw b hb
    simp only [memoryPhysicalInitialize] at hw
    simp [low,memoryPhysicalInitialize,hw]
  | @step calls call l l' before move ih =>
    cases call with
    | reserve address bytes =>
      obtain ⟨_,_,rfl⟩ := move
      have length := (reserveFields l.books.state address bytes).1
      have recorded := ih (length ▸ words)
      exact recordedMore recorded (reserveSound recorded.sound address bytes) length (reserveLow recorded.sound address bytes)
    | allocate =>
      obtain ⟨address,s,call,rfl⟩ := move
      dsimp only at words
      rw [allocateLength call] at words
      exact recordedAllocate (ih words) call
    | allocateConsecutive fuel pages => exact move.elim
    | free address =>
      obtain ⟨_,member,rfl⟩ := move
      dsimp only at words
      rw [(freeFields _ _).1] at words
      exact recordedFree (ih words) member

theorem shiftedBit (x : BitVec 64) (b : Nat) : ((x >>> b) &&& 1).toNat = if x.getLsbD b then 1 else 0 := by
  have one : (x >>> b) &&& 1#64 = BitVec.setWidth 64 (BitVec.ofBool ((x >>> b).getLsbD 0)) := by
    apply BitVec.eq_of_getLsbD_eq
    intro i inside
    cases i with
    | zero => simp
    | succ i => simp
  rw [show (1 : BitVec 64) = 1#64 from rfl,one,BitVec.getLsbD_ushiftRight,Nat.add_zero]
  cases x.getLsbD b <;> rfl

/-- For a page below the number of words the answer is the bit at the place of the page
in word `p`, which is the one of page 64p + p % 64; with the sign bit spread over the
upper half, that is bit 31 at most. -/
theorem allocatedReads {s : State} (sound : Sound s) (address : Nat) : memoryPhysicalAllocated s address =
    if s.allocationTableLength ≤ address/4096 then 1
    else if low s (address/4096) (min (address/4096 % 64) 31) = true then 1 else 0 := by
  have index : address >>> 12 = address/4096 := Nat.shiftRight_eq_div_pow _ _
  simp only [memoryPhysicalAllocated,index]
  split
  · rfl
  · rename_i inside
    rw [shiftedBit]
    have same : (s.allocationTable (address/4096)).getLsbD (address/4096 % 64) = low s (address/4096) (min (address/4096 % 64) 31) := by
      rcases Nat.le_total (address/4096 % 64) 31 with lower | upper
      · rw [Nat.min_eq_left lower]
        rfl
      · rw [Nat.min_eq_right upper]
        exact sound.upper _ (by omega) _ upper (by omega)
    rw [same]

theorem allocatedReports {contents : Nat → BitVec 64} {total : Nat} {calls : List Call} {l : Ledger} {address : Nat}
    (bound : total < 2^64) (run : (ledger contents total).Run calls l)
    (managed : address/4096 < 64*l.books.state.allocationTableLength) :
    (memoryPhysicalAllocated l.books.state address = if address/4096 ∈ l.books.inUse then 1 else 0) ↔
    if l.books.state.allocationTableLength ≤ address/4096 then address/4096 ∈ l.books.inUse
    else ((address/4096,min (address/4096 % 64) 31) ∈ l.marks ↔ address/4096 ∈ l.books.inUse) := by
  have recorded := recordedRun bound (by omega) run
  rw [allocatedReads recorded.sound]
  split
  · by_cases used : address/4096 ∈ l.books.inUse
    · simp [used]
    · simp [used]
  · rename_i inside
    have marked := recorded.marked (address/4096) (by omega) (min (address/4096 % 64) 31) (by omega)
    by_cases used : address/4096 ∈ l.books.inUse
    · simp [used,marked]
    · simp [used,marked]

theorem ledgerReserve {contents : Nat → BitVec 64} {total : Nat} {calls : List Call} {l : Ledger} {s : State} {address bytes : Nat}
    (run : (ledger contents total).Run calls l) (narrow : address < 2^64) (few : bytes < 2^64)
    (call : memoryPhysicalReserve l.books.state address bytes = s) : (ledger contents total).Run (.reserve address bytes::calls)
      ⟨⟨s,l.books.reserved ∪ covered l.books.state address bytes,l.books.held⟩,
        l.marks ∪ (reservedRange l.books.state address bytes).image narrowBit⟩ := by
  subst call
  exact run.step ⟨narrow,few,rfl⟩

theorem allocatedReportsFirst : ∃ l, (ledger (fun _ => 0) (2^18)).Run [.reserve 0 4096] l ∧
    0 ∈ l.books.inUse ∧ memoryPhysicalAllocated l.books.state 0 = 1 := by
  obtain ⟨s,reserved,length⟩ : ∃ s, memoryPhysicalReserve (memoryPhysicalInitialize (fun _ => 0) 0 (2^18)) 0 4096 = s ∧
      s.allocationTableLength = 1 := ⟨_,rfl,rfl⟩
  have run := ledgerReserve (System.Run.start (S := ledger (fun _ => 0) (2^18)) rfl) (by decide) (by decide) reserved
  have page : 0 ∈ ∅ ∪ covered (memoryPhysicalInitialize (fun _ => 0) 0 (2^18)) 0 4096 := by decide
  have mark : (0,0) ∈ ∅ ∪ (reservedRange (memoryPhysicalInitialize (fun _ => 0) 0 (2^18)) 0 4096).image narrowBit := by decide
  have used : 0 ∈ Books.inUse ⟨s,∅ ∪ covered (memoryPhysicalInitialize (fun _ => 0) 0 (2^18)) 0 4096,∅⟩ := by
    refine Finset.mem_filter.mpr ⟨Finset.mem_union_left _ page,?_⟩
    rw [length]
    decide
  have managed : 0/4096 < 64*s.allocationTableLength := by rw [length]; decide
  have right := (allocatedReports (by decide) run managed).mpr (by
    dsimp only
    rw [length]
    exact iff_of_true mark used)
  refine ⟨_,run,used,right.trans (if_pos used)⟩

theorem allocatedReportsFree : ∃ l, (ledger (fun _ => 0) (2^18)).Run [] l ∧
    4096/4096 < 64*l.books.state.allocationTableLength ∧ 4096/4096 ∉ l.books.inUse ∧
    memoryPhysicalAllocated l.books.state 4096 = 1 :=
  ⟨_,.start rfl,by decide,by decide,by decide⟩

end Kokos.PhysicalMemory

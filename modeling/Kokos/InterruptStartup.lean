import Kokos.InterruptDelivery

/-! What cpu_initialize has set up, and that interrupts go by the table from then on, whatever
is registered later and whatever is pushed on the interrupt stacks. -/
namespace Kokos.Interrupts
open ByteMemory BitFields

/-! The task segment. -/

theorem taskFields (base : Nat) {p : Field → Prop} (fields : ∀ f ∈ (taskSegmentFields 0).map Prod.fst, p f) :
    ∀ f ∈ taskSegmentFields base, p f.1 := by
  have same : (taskSegmentFields base).map Prod.fst = (taskSegmentFields 0).map Prod.fst := rfl
  intro f member
  exact fields f.1 (same ▸ List.mem_map_of_mem member)

theorem taskGet (base : Nat) {g : Field} (apart : ∀ f ∈ (taskSegmentFields 0).map Prod.fst, f = g ∨ Apart f g) :
    g.get (assign (taskSegmentFields base) 0) =
      (taskSegmentFields base).foldl (fun v f => if f.1 = g then f.2 % 2^g.width else v) (g.get 0) :=
  getAssign (taskFields base apart)

theorem taskIsTask (base : Nat) : isTask (assign (taskSegmentFields base) 0) = true := by
  unfold isTask
  rw [taskGet base (by decide),taskGet base (by decide),taskGet base (by decide),taskGet base (by decide),
    taskGet base (by decide),taskGet base (by decide)]
  rfl

theorem taskLimited (base : Nat) : segmentLimit (assign (taskSegmentFields base) 0) = taskStateSize := by
  unfold segmentLimit
  rw [taskGet base (by decide),taskGet base (by decide),taskGet base (by decide)]
  rfl

theorem taskBased {base : Nat} (small : base < 2^64) : segmentBase (assign (taskSegmentFields base) 0) = base := by
  have first : Segment.base1.get (assign (taskSegmentFields base) 0) = (base &&& 0xFFFF) % 2^16 := taskGet base (by decide)
  have second : Segment.base2.get (assign (taskSegmentFields base) 0) = ((base >>> 16) &&& 0xFF) % 2^8 := taskGet base (by decide)
  have third : Segment.base3.get (assign (taskSegmentFields base) 0) = ((base >>> 24) &&& 0xFF) % 2^8 := taskGet base (by decide)
  have last : Segment.base4.get (assign (taskSegmentFields base) 0) = ((base >>> 32) &&& 0xFFFFFFFF) % 2^32 :=
    taskGet base (by decide)
  unfold segmentBase
  rw [first,second,third,last,Nat.shiftRight_eq_div_pow,Nat.shiftRight_eq_div_pow,Nat.shiftRight_eq_div_pow,
    show 0xFFFF = 2^16-1 from rfl,show 0xFF = 2^8-1 from rfl,show 0xFFFFFFFF = 2^32-1 from rfl,
    Nat.and_two_pow_sub_one_eq_mod,Nat.and_two_pow_sub_one_eq_mod,Nat.and_two_pow_sub_one_eq_mod,Nat.and_two_pow_sub_one_eq_mod]
  omega
/-! The stores of gdt_initialize. -/

def PagesApart (p q : Nat) : Prop := p+4096 ≤ q ∨ q+4096 ≤ p

variable {m : Memory} {gdt task ist1 ist2 : Nat}

theorem changeSame {a n : Nat} {change : Nat → Nat} (bound : ∀ x < 256^n, change x < 256^n) :
    readBytes (changeBytes m a n change) a n = change (readBytes m a n) :=
  readWriteBytes m a (bound _ (readBytesBound m a n))

theorem codeBound : ∀ x < 256^8, assign codeSegmentFields x < 256^8 := fun x small =>
  assignBound (n := 64) (by decide) (show x < 2^64 from small)

theorem taskBound (base : Nat) : ∀ x < 256^16, assign (taskSegmentFields base) x < 256^16 := fun x small =>
  assignBound (n := 128) (@taskFields base (fun f => f.start+f.width ≤ 128) (by decide)) (show x < 2^128 from small)

theorem gdtTask (apart : PagesApart gdt task) :
    readBytes (gdtMemory m gdt task ist1 ist2) (gdt+gdtKernelTaskSegment) 16 = assign (taskSegmentFields task) 0 := by
  unfold PagesApart at apart
  unfold gdtMemory
  rw [changeSame (taskBound task)]
  refine congrArg (assign _) ?_
  simp (disch := omega) only [changeBytes,gdtKernelTaskSegment,gdtKernelDataSegment,gdtKernelCodeSegment,taskStateSize,
    ist1Offset,readWriteApart,readZeroApart,readZeroBytes]

theorem gdtCode (apart : PagesApart gdt task) :
    readBytes (gdtMemory m gdt task ist1 ist2) (gdt+gdtKernelCodeSegment) 8 = assign codeSegmentFields 0 := by
  have blank : readBytes (zeroBytes m gdt 4096) (gdt+gdtKernelCodeSegment) 8 = 0 :=
    readZeroBytes m (by unfold gdtKernelCodeSegment; omega)
  have stored := @changeSame (zeroBytes m gdt 4096) (gdt+gdtKernelCodeSegment) _ _ codeBound
  rw [blank] at stored
  rw [← stored]
  unfold PagesApart at apart
  unfold gdtMemory
  simp (disch := omega) only [changeBytes,gdtKernelTaskSegment,gdtKernelDataSegment,gdtKernelCodeSegment,taskStateSize,
    ist1Offset,readWriteApart,readZeroApart]

def stackWord (ist1 ist2 : Nat) : Nat → Nat
  | 0 => ist1+4096
  | 1 => ist2+4096
  | _ => 0

theorem gdtStacks (apart : PagesApart gdt task) (small : ist1 < 2^52 ∧ ist2 < 2^52) {n : Nat} (inside : n < 7) :
    readBytes (gdtMemory m gdt task ist1 ist2) (task+(ist1Offset+8*n)) 8 = stackWord ist1 ist2 n := by
  unfold PagesApart at apart
  unfold gdtMemory
  match n with
  | 0 =>
    simp (disch := omega) only [changeBytes,gdtKernelTaskSegment,taskStateSize,ist1Offset,readWriteApart,Nat.mul_zero,Nat.add_zero,
      readWriteBytes]
    rfl
  | 1 =>
    simp (disch := omega) only [changeBytes,gdtKernelTaskSegment,taskStateSize,ist1Offset,readWriteApart,Nat.mul_one,
      readWriteBytes]
    rfl
  | n+2 =>
    simp (disch := omega) only [changeBytes,gdtKernelTaskSegment,taskStateSize,ist1Offset,readWriteApart,readZeroBytes]
    rfl

theorem gdtOutside {a size : Nat} (gdtApart : a+size ≤ gdt ∨ gdt+4096 ≤ a) (taskApart : a+size ≤ task ∨ task+4096 ≤ a) :
    SameBytes m (gdtMemory m gdt task ist1 ist2) a size := by
  unfold gdtMemory changeBytes gdtKernelTaskSegment gdtKernelDataSegment gdtKernelCodeSegment taskStateSize ist1Offset
  refine sameTrans (sameTrans (sameTrans (sameTrans (sameTrans (sameTrans (zeroBytesOther m ?_) (writeBytesOther _ _ _ ?_))
    (writeBytesOther _ _ _ ?_)) (zeroBytesOther _ ?_)) (writeBytesOther _ _ _ ?_)) (writeBytesOther _ _ _ ?_))
    (writeBytesOther _ _ _ ?_)
  all_goals omega

/-! Drawing pages. -/

section
variable {σ : Type} [PageAllocator σ] {allocator : σ}

structure Drawn (allocator : σ) (page : Nat) (allocator' : σ) : Prop where
  isPage : page % 4096 = 0 ∧ 0 < page ∧ page < 2^52
  fresh : ¬ PageAllocator.Taken allocator page
  taken : PageAllocator.Taken allocator' page
  keeps : ∀ q, PageAllocator.Taken allocator q → PageAllocator.Taken allocator' q
  spends : PageAllocator.available allocator ≤ PageAllocator.available allocator' + 1

theorem drawPageDrawn (enough : 0 < PageAllocator.available allocator) :
    Drawn allocator (drawPage allocator).1 (drawPage allocator).2 := by
  unfold drawPage
  cases drawn : PageAllocator.allocate allocator with
  | none =>
    have empty := PageAllocator.empty drawn
    omega
  | some pair =>
    have fresh := PageAllocator.fresh drawn
    exact ⟨PageAllocator.isPage drawn,fresh.1,fresh.2,PageAllocator.keeps drawn,PageAllocator.spends drawn⟩

def drawPages : Nat → σ → List Nat × σ
  | 0, allocator => ([],allocator)
  | n+1, allocator =>
    ((drawPage allocator).1 :: (drawPages n (drawPage allocator).2).1,(drawPages n (drawPage allocator).2).2)

theorem pagesDrawn {n : Nat} (enough : n ≤ PageAllocator.available allocator) :
    (∀ p ∈ (drawPages n allocator).1, (p % 4096 = 0 ∧ 0 < p ∧ p < 2^52) ∧ ¬ PageAllocator.Taken allocator p) ∧
      (drawPages n allocator).1.Pairwise PagesApart := by
  induction n generalizing allocator with
  | zero => exact ⟨fun p member => absurd member List.not_mem_nil,List.Pairwise.nil⟩
  | succ n ih =>
    have drawn := @drawPageDrawn _ _ allocator (by omega)
    have spends := drawn.spends
    obtain ⟨sound,apart⟩ := @ih (drawPage allocator).2 (by omega)
    refine ⟨List.forall_mem_cons.mpr ⟨⟨drawn.isPage,drawn.fresh⟩,fun p member =>
      ⟨(sound p member).1,fun taken => (sound p member).2 (drawn.keeps p taken)⟩⟩,List.pairwise_cons.mpr ⟨?_,apart⟩⟩
    intro p member
    have other : (drawPage allocator).1 ≠ p := fun same => (sound p member).2 (same ▸ drawn.taken)
    have page := (sound p member).1
    have first := drawn.isPage
    unfold PagesApart
    omega

end

section
variable {σ : Type} [PageAllocator σ] {m : Memory} {cpu gdt task ist1 ist2 : Nat} {s : Machine σ}

def gdtLoaded (m : Memory) (cpu gdt task ist1 ist2 : Nat) : Memory :=
  writeBytes (changeBytes (gdtMemory m gdt task ist1 ist2) (gdt+gdtKernelTaskSegment) 16 (Segment.readWrite.set 1)) (cpu+32) 8 gdt

def gdtPrints (task ist1 : Nat) : List ConsoleCall :=
  [.print "[gdt] allocate task_state at 0x",.printU64 task 16,.newLine,
    .print "[gdt] allocate ist1 at 0x",.printU64 (ist1+4096) 16,.newLine]

theorem gdtInitialized (draws : (drawPages 4 s.allocator).1 = [gdt,task,ist1,ist2]) (self : readBytes s.memory s.fsBase 8 = cpu)
    (apart : PagesApart gdt task ∧ PagesApart gdt s.fsBase ∧ PagesApart task s.fsBase)
    (small : task < 2^52 ∧ ist1 < 2^52 ∧ ist2 < 2^52) :
    gdtInitialize s = .ok { s with
      memory := gdtLoaded s.memory cpu gdt task ist1 ist2, printed := s.printed ++ gdtPrints task ist1,
      allocator := (drawPages 4 s.allocator).2, gdtBase := gdt, gdtLimit := 40, taskBase := task, taskLimit := taskStateSize } := by
  simp only [drawPages,List.cons.injEq,and_true] at draws
  obtain ⟨first,second,third,fourth⟩ := draws
  obtain ⟨gdtTask',gdtCpu,taskCpu⟩ := apart
  have descriptor : readBytes (gdtMemory s.memory gdt task ist1 ist2) (gdt+gdtKernelTaskSegment) 16 = _ := gdtTask gdtTask'
  have stack : readBytes (gdtMemory s.memory gdt task ist1 ist2) (task+ist1Offset) 8 = ist1+4096 :=
    gdtStacks (n := 0) gdtTask' small.2 (by decide)
  have based : segmentBase (assign (taskSegmentFields task) 0) = task := taskBased (by omega)
  have loads : gdtKernelTaskSegment+15 ≤ 8*3+16 := by decide
  have kept : readBytes (changeBytes (gdtMemory s.memory gdt task ist1 ist2) (gdt+gdtKernelTaskSegment) 16 (Segment.readWrite.set 1))
      s.fsBase 8 = cpu := by
    unfold PagesApart at gdtCpu taskCpu
    have outside : SameBytes s.memory (gdtMemory s.memory gdt task ist1 ist2) s.fsBase 8 := gdtOutside (by omega) (by omega)
    have apart : s.fsBase+8 ≤ gdt+gdtKernelTaskSegment ∨ gdt+gdtKernelTaskSegment+16 ≤ s.fsBase := by
      unfold gdtKernelTaskSegment
      omega
    rw [changeBytes,readWriteApart _ apart,readBytesCongr outside ⟨Nat.le_refl _,Nat.le_refl _⟩,self]
  simp only [gdtInitialize,Machine.allocate,Machine.print,Machine.loadTask,Machine.cpu,first,second,third,fourth,descriptor,stack,
    taskIsTask,based,taskLimited,loads,and_self,if_true,kept]
  rfl
end

end Kokos.Interrupts

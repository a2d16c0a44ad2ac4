import Kokos.InterruptStartup

/-! Interrupts after cpu_initialize: they go by the gates that idt.c has made, on the stacks that
gdt.c has set up. -/
namespace Kokos.Interrupts
open ByteMemory BitFields
/-! Delivery over the tables. -/

section
variable {σ : Type} {s : Machine σ}

structure Pages where
  cpu : Nat
  gdt : Nat
  task : Nat
  ist1 : Nat
  ist2 : Nat
  table : Nat

structure Ready (p : Pages) (s : Machine σ) : Prop where
  fsBase : s.fsBase = p.cpu
  gdtBase : s.gdtBase = p.gdt ∧ s.gdtLimit = 40
  idtBase : s.idtBase = p.table ∧ s.idtLimit = 4095
  taskBase : s.taskBase = p.task ∧ s.taskLimit = taskStateSize
  self : readBytes s.memory p.cpu 8 = p.cpu
  known : readBytes s.memory (p.cpu+24) 8 = p.table
  code : readBytes s.memory (p.gdt+gdtKernelCodeSegment) 8 = assign codeSegmentFields 0
  ists : ∀ n < 7, readBytes s.memory (p.task+(ist1Offset+8*n)) 8 = stackWord p.ist1 p.ist2 n

def delivered (ist1 ist2 : Nat) (gate : Gate) : Option Delivery :=
  if gate.present ∧ (gate.kind = gateTypeInterrupt ∨ gate.kind = gateTypeTrap) then
    some ⟨gate.handler,if gate.stack = stackTypeCurrent then none else some (stackWord ist1 ist2 (gate.stack-1)),
      gate.kind = gateTypeInterrupt⟩
  else none

def Made (gate : Gate) : Prop := (gate.kind = 0 ∨ gate.codeSegment = gdtKernelCodeSegment) ∧ gate.stack < 8

variable {p : Pages} {v : Fin 256}

theorem deliverReady (ready : Ready p s) (made : Made (gatesIn s.memory p.table v)) :
    s.deliver v = delivered p.ist1 p.ist2 (gatesIn s.memory p.table v) := by
  obtain ⟨segment,stack⟩ := made
  have vector := v.isLt
  have found : gateOf (loadEntry s.memory s.idtBase v) = gatesIn s.memory p.table v := by rw [ready.idtBase.1]; rfl
  unfold Machine.deliver delivered
  simp only [found]
  rw [if_neg (by rw [ready.idtBase.2]; omega)]
  by_cases live : (gatesIn s.memory p.table v).present = true ∧
      ((gatesIn s.memory p.table v).kind = gateTypeInterrupt ∨ (gatesIn s.memory p.table v).kind = gateTypeTrap)
  · have code : (gatesIn s.memory p.table v).codeSegment = gdtKernelCodeSegment := by
      refine segment.resolve_left fun zero => ?_
      rw [zero] at live
      exact absurd live.2 (by decide)
    rw [if_neg (by tauto),if_pos live,code]
    rw [if_neg (by
      rw [ready.gdtBase.1,ready.gdtBase.2,show gdtKernelCodeSegment/8*8 = gdtKernelCodeSegment from rfl,ready.code]
      decide)]
    by_cases current : (gatesIn s.memory p.table v).stack = stackTypeCurrent
    · rw [if_pos current,if_pos current]
    · have positive : (gatesIn s.memory p.table v).stack ≠ 0 := current
      rw [if_neg current,if_neg current,if_neg (by rw [ready.taskBase.2]; unfold taskStateSize ist1Offset; omega),ready.taskBase.1,
        ready.ists _ (by omega)]
  · rw [if_pos (by tauto),if_neg live]

theorem readySame (ready : Ready p s) {m : Memory} {printed : List ConsoleCall} (cpuSame : SameBytes s.memory m p.cpu 4096)
    (gdtSame : SameBytes s.memory m p.gdt 4096) (taskSame : SameBytes s.memory m p.task 4096) :
    Ready p { s with memory := m, printed } where
  fsBase := ready.fsBase
  gdtBase := ready.gdtBase
  idtBase := ready.idtBase
  taskBase := ready.taskBase
  self := (readBytesCongr cpuSame (by omega)).trans ready.self
  known := (readBytesCongr cpuSame (by omega)).trans ready.known
  code := (readBytesCongr gdtSame (by unfold gdtKernelCodeSegment; omega)).trans ready.code
  ists n inside := (readBytesCongr taskSame (by unfold ist1Offset; omega)).trans (ready.ists n inside)

/-! Operations on the table of a processor that is ready. -/

theorem cpuOperateReady (ready : Ready p s) (operation : Operation) :
    cpuOperate s operation = { s with
      memory := (operate p.table ⟨s.memory,s.printed⟩ operation).memory
      printed := (operate p.table ⟨s.memory,s.printed⟩ operation).printed } := by
  unfold cpuOperate Machine.cpu
  simp only [ready.fsBase,ready.self,ready.known]

structure TableApart (p : Pages) : Prop where
  cpu : PagesApart p.table p.cpu
  gdt : PagesApart p.table p.gdt
  task : PagesApart p.table p.task

theorem pagesSwap {a b : Nat} (apart : PagesApart a b) : b+4096 ≤ a ∨ a+4096 ≤ b := apart.symm

theorem readyAll (apart : TableApart p) (operations : List Operation) (ready : Ready p s) :
    operations.foldl cpuOperate s = { s with
      memory := (operateAll p.table operations ⟨s.memory,s.printed⟩).memory
      printed := (operateAll p.table operations ⟨s.memory,s.printed⟩).printed } ∧
    Ready p (operations.foldl cpuOperate s) := by
  induction operations generalizing s with
  | nil => exact ⟨rfl,ready⟩
  | cons operation operations ih =>
    have outside : ∀ a, PagesApart p.table a → SameBytes s.memory (operate p.table ⟨s.memory,s.printed⟩ operation).memory a 4096 :=
      fun a apart => operateOutside ⟨s.memory,s.printed⟩ operation (pagesSwap apart)
    have next : Ready p { s with
        memory := (operate p.table ⟨s.memory,s.printed⟩ operation).memory
        printed := (operate p.table ⟨s.memory,s.printed⟩ operation).printed } :=
      readySame ready (outside _ apart.cpu) (outside _ apart.gdt) (outside _ apart.task)
    rw [List.foldl_cons,cpuOperateReady ready]
    exact ih next

theorem madeAfter {gate : Gate} (made : Made gate) (operation : Operation) : Made (gateAfter gate operation) := by
  cases operation with
  | register vector functionPointer interruptType ist => exact ⟨Or.inr rfl,Nat.mod_lt _ (by decide)⟩
  | enable vector | disable vector => exact made

theorem madeThrough {gates : Fin 256 → Gate} (made : ∀ v, Made (gates v)) (operations : List Operation) (v : Fin 256) :
    Made (gateThrough operations gates v) :=
  List.foldlRecOn _ _ (made v) fun _ made operation _ => madeAfter made operation

/-! The registrations of idt_initialize. -/

def Registration.gate (address : Handler → Nat) (r : Registration) : Gate :=
  ⟨address r.handler % 2^64,gdtKernelCodeSegment,r.interruptType % 16,r.ist % 8,0,true⟩

def startupGate (address : Handler → Nat) (v : Fin 256) : Gate :=
  ((registrations.find? (·.vector = v)).map (·.gate address)).getD noGate

theorem throughDistinct (address : Handler → Nat) {rs : List Registration} (distinct : (rs.map (·.vector)).Nodup) (v : Fin 256) :
    gateThrough (rs.map (·.call address)) (fun _ => noGate) v =
      ((rs.find? (·.vector = v)).map (·.gate address)).getD noGate := by
  induction rs with
  | nil => rfl
  | cons r rs ih =>
    obtain ⟨apart,rest⟩ := List.nodup_cons.mp distinct
    by_cases here : r.vector = v
    · have none : (rs.map (·.call address)).filter (·.vector = v) = [] := by
        refine List.filter_eq_nil_iff.mpr fun operation member same => ?_
        obtain ⟨other,inside,rfl⟩ := List.mem_map.mp member
        exact apart (List.mem_map.mpr ⟨other,inside,(of_decide_eq_true same).trans here.symm⟩)
      have first := @List.filter_cons_of_pos _ (fun x : Operation => x.vector = v) (r.call address) (rs.map (·.call address))
        (decide_eq_true here)
      rw [gateThrough,List.map_cons,first,none,List.find?_cons_of_pos (by simpa using here)]
      rfl
    · rw [List.find?_cons_of_neg (by simpa using here),← ih rest]
      exact congrArg (List.foldl gateAfter noGate) (@List.filter_cons_of_neg _ (fun x : Operation => x.vector = v) _ _
        fun same => here (of_decide_eq_true same))

theorem distinctSilent (address : Handler → Nat) {rs : List Registration} (distinct : (rs.map (·.vector)).Nodup)
    {gates : Fin 256 → Gate} (blank : ∀ r ∈ rs, (gates r.vector).present = false) :
    warnings gates (rs.map (·.call address)) = [] := by
  induction rs generalizing gates with
  | nil => rfl
  | cons r rs ih =>
    obtain ⟨apart,rest⟩ := List.nodup_cons.mp distinct
    have silent : warnsAbout (gates r.vector) (r.call address) = [] := if_neg (by rw [blank r List.mem_cons_self]; decide)
    refine (congrArg₂ (· ++ ·) silent (ih rest fun other member => ?_)).trans rfl
    have different : other.vector ≠ (r.call address).vector := fun same =>
      apart (List.mem_map.mpr ⟨other,member,same⟩)
    rw [Function.update_of_ne different]
    exact blank other (List.mem_cons_of_mem _ member)

theorem registrationsDistinct : (registrations.map (·.vector)).Nodup := by decide

end

/-! cpu_initialize. -/

section
variable {σ : Type} {m : Memory} {p : Pages}

structure Laid (p : Pages) : Prop where
  small : p.cpu < 2^52 ∧ p.gdt < 2^52 ∧ p.task < 2^52 ∧ p.ist1 < 2^52 ∧ p.ist2 < 2^52 ∧ p.table < 2^52
  cpu : PagesApart p.cpu p.gdt ∧ PagesApart p.cpu p.task ∧ PagesApart p.cpu p.table
  gdt : PagesApart p.gdt p.task ∧ PagesApart p.gdt p.table
  task : PagesApart p.task p.table
  ists : ∀ q ∈ [p.cpu,p.gdt,p.task,p.table], PagesApart p.ist1 q ∧ PagesApart p.ist2 q

def cpuMemory (m : Memory) (cpu id : Nat) : Memory :=
  writeBytes (writeBytes (writeBytes m cpu 8 cpu) (cpu+8) 4 id) (cpu+24) 8 0

def blankMemory (m : Memory) (p : Pages) (id : Nat) : Memory :=
  zeroBytes (gdtLoaded (cpuMemory m p.cpu id) p.cpu p.gdt p.task p.ist1 p.ist2) p.table 4096

def tablesMemory (m : Memory) (p : Pages) (id : Nat) : Memory := writeBytes (blankMemory m p id) (p.cpu+24) 8 p.table

theorem cpuSelf {cpu id : Nat} (small : cpu < 2^52) : readBytes (cpuMemory m cpu id) cpu 8 = cpu := by
  unfold cpuMemory
  simp (disch := omega) only [readWriteApart,readWriteBytes]

theorem blankSelf (laid : Laid p) {id : Nat} : readBytes (blankMemory m p id) p.cpu 8 = p.cpu := by
  obtain ⟨cpuGdt,cpuTask,cpuTable⟩ := laid.cpu
  unfold PagesApart at cpuGdt cpuTask cpuTable
  unfold blankMemory gdtLoaded changeBytes gdtKernelTaskSegment
  simp (disch := omega) only [readWriteApart,readZeroApart]
  rw [readBytesCongr (gdtOutside (by omega) (by omega)) ⟨Nat.le_refl _,Nat.le_refl _⟩,cpuSelf laid.small.1]

theorem tablesReady (laid : Laid p) {id : Nat} (t : Machine σ) (registers : t.fsBase = p.cpu ∧ (t.gdtBase = p.gdt ∧ t.gdtLimit = 40) ∧
    (t.idtBase = p.table ∧ t.idtLimit = 4095) ∧ t.taskBase = p.task ∧ t.taskLimit = taskStateSize) (memory : t.memory = tablesMemory m p id) :
    Ready p t := by
  obtain ⟨fsBase,gdtBase,idtBase,taskBase⟩ := registers
  have self : readBytes (tablesMemory m p id) p.cpu 8 = p.cpu :=
    (readWriteApart _ (by omega)).trans (blankSelf laid)
  obtain ⟨cpuGdt,cpuTask,cpuTable⟩ := laid.cpu
  obtain ⟨gdtApart,gdtTable⟩ := laid.gdt
  have taskTable := laid.task
  have small := laid.small
  have code (m : Memory) := @gdtCode m _ _ p.ist1 p.ist2 gdtApart
  have ists (m : Memory) (n : Nat) (inside : n < 7) := @gdtStacks m _ _ p.ist1 p.ist2 gdtApart ⟨small.2.2.2.1,small.2.2.2.2.1⟩ n inside
  unfold PagesApart at cpuGdt cpuTask cpuTable gdtTable taskTable gdtApart
  refine ⟨fsBase,gdtBase,idtBase,taskBase,memory ▸ self,?_,?_,?_⟩
  · rw [memory]
    exact readWriteBytes _ _ (by omega)
  · rw [memory]
    unfold tablesMemory blankMemory gdtLoaded changeBytes gdtKernelTaskSegment
    have apart : p.gdt+gdtKernelCodeSegment+8 ≤ p.gdt+0x18 := by unfold gdtKernelCodeSegment; omega
    simp (disch := omega) only [readWriteApart,readZeroApart]
    exact code _
  · intro n inside
    have far : ist1Offset+8*n+8 ≤ 4096 := by unfold ist1Offset; omega
    rw [memory]
    unfold tablesMemory blankMemory gdtLoaded changeBytes gdtKernelTaskSegment
    simp (disch := omega) only [readWriteApart,readZeroApart]
    exact ists _ n inside

theorem tablesBlank (laid : Laid p) {id : Nat} : gatesIn (tablesMemory m p id) p.table = fun _ => noGate := by
  have cpuTable := laid.cpu.2.2
  unfold PagesApart at cpuTable
  rw [← zeroGates]
  funext v
  exact congrArg gateOf (readWriteApart _ (by omega))

variable [PageAllocator σ] {s : Machine σ}

def drawnPages (allocator : σ) : Pages :=
  let cpu := drawPage allocator
  let gdt := drawPage cpu.2
  let task := drawPage gdt.2
  let ist1 := drawPage task.2
  let ist2 := drawPage ist1.2
  ⟨cpu.1,gdt.1,task.1,ist1.1,ist2.1,(drawPage ist2.2).1⟩

theorem drawnLaid {allocator : σ} (enough : 6 ≤ PageAllocator.available allocator) :
    Laid (drawnPages allocator) ∧ (drawnPages allocator).table ≠ 0 ∧
      ¬ PageAllocator.Taken allocator (drawnPages allocator).ist1 ∧ ¬ PageAllocator.Taken allocator (drawnPages allocator).ist2 ∧
      PagesApart (drawnPages allocator).ist1 (drawnPages allocator).ist2 := by
  obtain ⟨sound,apart⟩ := pagesDrawn enough
  simp only [drawPages,List.forall_mem_cons,List.pairwise_cons] at sound apart
  obtain ⟨⟨cpu,_⟩,⟨gdt,_⟩,⟨task,_⟩,⟨ist1,fresh1⟩,⟨ist2,fresh2⟩,⟨table,_⟩,_⟩ := sound
  obtain ⟨⟨cpuGdt,cpuTask,cpu1,cpu2,cpuTable,_⟩,⟨gdtTask,gdt1,gdt2,gdtTable,_⟩,⟨task1,task2,taskTable,_⟩,⟨istApart,table1,_⟩,
    ⟨table2,_⟩,_⟩ := apart
  refine ⟨⟨?_,⟨cpuGdt,cpuTask,cpuTable⟩,⟨gdtTask,gdtTable⟩,taskTable,?_⟩,Nat.pos_iff_ne_zero.mp table.2.1,
    fresh1,fresh2,istApart⟩
  · exact ⟨cpu.2.2,gdt.2.2,task.2.2,ist1.2.2,ist2.2.2,table.2.2⟩
  · simp only [List.forall_mem_cons]
    exact ⟨⟨cpu1.symm,cpu2.symm⟩,⟨gdt1.symm,gdt2.symm⟩,⟨task1.symm,task2.symm⟩,⟨table1,table2⟩,fun q member =>
      absurd member List.not_mem_nil⟩

theorem cpuInitialized (address : Handler → Nat) (enough : 6 ≤ PageAllocator.available s.allocator) :
    ∃ t, cpuInitialize address s = .ok t ∧ Ready (drawnPages s.allocator) t ∧
      gatesIn t.memory (drawnPages s.allocator).table = startupGate address ∧
      t.printed = s.printed ++ [.print "[cpu] set up GDT\n"] ++ gdtPrints (drawnPages s.allocator).task (drawnPages s.allocator).ist1 ++
        [.print "[cpu] set up IDT\n"] := by
  obtain ⟨laid,table,_⟩ := drawnLaid enough
  set p := drawnPages s.allocator with pages
  let started : Machine σ := { s with
    memory := cpuMemory s.memory p.cpu s.currentCpuId
    printed := s.printed ++ [.print "[cpu] set up GDT\n"]
    allocator := (drawPage s.allocator).2
    currentCpuId := s.currentCpuId+1
    fsBase := p.cpu }
  have first : gdtInitialize started = .ok { started with
      memory := gdtLoaded started.memory p.cpu p.gdt p.task p.ist1 p.ist2, printed := started.printed ++ gdtPrints p.task p.ist1,
      allocator := (drawPages 4 started.allocator).2, gdtBase := p.gdt, gdtLimit := 40, taskBase := p.task, taskLimit := taskStateSize } :=
    gdtInitialized rfl (cpuSelf laid.small.1) ⟨laid.gdt.1,laid.cpu.1.symm,laid.cpu.2.1.symm⟩
      ⟨laid.small.2.2.1,laid.small.2.2.2.1,laid.small.2.2.2.2.1⟩
  let blank : Machine σ := { started with
    memory := tablesMemory s.memory p s.currentCpuId
    printed := started.printed ++ gdtPrints p.task p.ist1 ++ [.print "[cpu] set up IDT\n"]
    allocator := (drawPages 5 started.allocator).2
    gdtBase := p.gdt
    gdtLimit := 40
    taskBase := p.task
    taskLimit := taskStateSize
    idtBase := p.table
    idtLimit := 256*16-1 }
  have whole : ∀ t, gdtInitialize started = .ok t →
      cpuInitialize address s = idtInitialize address (t.print [.print "[cpu] set up IDT\n"]) := by
    intro t loaded
    unfold cpuInitialize
    dsimp only
    split
    · rename_i printed failed
      exact absurd (failed.symm.trans loaded) (by simp)
    · rename_i t' done
      obtain rfl : t' = t := Except.ok.inj (done.symm.trans loaded)
      rfl
  have ready : Ready p blank := tablesReady laid blank ⟨rfl,⟨rfl,rfl⟩,⟨rfl,rfl⟩,rfl,rfl⟩ rfl
  have last : cpuInitialize address s = .ok ((registrations.map (·.call address)).foldl cpuOperate blank) := by
    rw [whole _ first,List.foldl_map]
    refine (if_neg table).trans ?_
    have self := @blankSelf s.memory p laid s.currentCpuId
    show Except.ok (registrations.foldl (fun t r => cpuOperate t (r.call address)) { blank with
      memory := writeBytes (blankMemory s.memory p s.currentCpuId) (readBytes (blankMemory s.memory p s.currentCpuId) p.cpu 8+24) 8
        p.table }) = _
    rw [self]
    rfl
  obtain ⟨run,done⟩ := readyAll ⟨laid.cpu.2.2.symm,laid.gdt.2.symm,laid.task.symm⟩ (registrations.map (·.call address)) ready
  have gates : gatesIn blank.memory p.table = fun _ => noGate := tablesBlank laid
  refine ⟨_,last,done,?_,?_⟩
  · rw [run]
    refine (allGates _ ⟨blank.memory,blank.printed⟩).trans ?_
    rw [gates]
    exact funext fun v => throughDistinct address registrationsDistinct v
  · rw [run]
    refine (allPrints _ ⟨blank.memory,blank.printed⟩).trans ?_
    rw [gates,distinctSilent address registrationsDistinct fun _ _ => rfl,List.append_nil]

end

/-! Operations, and pushes on the interrupt stacks, in any order. -/

section
variable {σ : Type}

inductive Event where
  | operate (operation : Operation)
  | push (bytes : Nat → UInt8)

def onPage (page a : Nat) : Prop := page ≤ a ∧ a < page+4096

instance (page a : Nat) : Decidable (onPage page a) := by unfold onPage; infer_instance

def happen (ist1 ist2 : Nat) (s : Machine σ) : Event → Machine σ
  | .operate operation => cpuOperate s operation
  | .push bytes => { s with memory := fun a => if onPage ist1 a ∨ onPage ist2 a then bytes a else s.memory a }

def operations (events : List Event) : List Operation :=
  events.filterMap fun
    | .operate operation => some operation
    | .push _ => none

variable {s : Machine σ} {p : Pages}

theorem pushOutside {ist1 ist2 a : Nat} (bytes : Nat → UInt8) (apart : PagesApart ist1 a ∧ PagesApart ist2 a) :
    SameBytes s.memory (happen ist1 ist2 s (.push bytes)).memory a 4096 := by
  intro x low high
  obtain ⟨first,second⟩ := apart
  refine if_neg ?_
  unfold onPage
  unfold PagesApart at first second
  omega

theorem happenReady (laid : Laid p) (ready : Ready p s) (event : Event) :
    Ready p (happen p.ist1 p.ist2 s event) ∧
      ∀ later, gateThrough (operations later) (gatesIn (happen p.ist1 p.ist2 s event).memory p.table) =
        gateThrough (operations (event::later)) (gatesIn s.memory p.table) := by
  cases event with
  | operate operation =>
    obtain ⟨run,next⟩ := readyAll ⟨laid.cpu.2.2.symm,laid.gdt.2.symm,laid.task.symm⟩ [operation] ready
    refine ⟨next,fun later => ?_⟩
    have gates := @operateGates p.table ⟨s.memory,s.printed⟩ operation
    rw [happen,cpuOperateReady ready,gates]
    exact throughUpdate _ operation (operations later)
  | push bytes =>
    have outside := fun a member => @pushOutside σ s p.ist1 p.ist2 a bytes (laid.ists a member)
    have table := outside p.table (by simp)
    refine ⟨readySame ready (outside p.cpu (by simp)) (outside p.gdt (by simp)) (outside p.task (by simp)),fun later => ?_⟩
    have gates : gatesIn (happen p.ist1 p.ist2 s (.push bytes)).memory p.table = gatesIn s.memory p.table := by
      funext v
      have vector := v.isLt
      exact congrArg gateOf (readBytesCongr table (by omega))
    rw [gates]
    rfl

theorem runDelivers (laid : Laid p) (events : List Event) (ready : Ready p s) (made : ∀ v, Made (gatesIn s.memory p.table v)) (v : Fin 256) :
    (events.foldl (happen p.ist1 p.ist2) s).deliver v =
      delivered p.ist1 p.ist2 (gateThrough (operations events) (gatesIn s.memory p.table) v) := by
  induction events generalizing s with
  | nil => exact deliverReady ready (made v)
  | cons event events ih =>
    obtain ⟨next,gates⟩ := happenReady laid ready event
    have still : ∀ v, Made (gatesIn (happen p.ist1 p.ist2 s event).memory p.table v) := by
      intro v
      have now : gatesIn (happen p.ist1 p.ist2 s event).memory p.table v =
          gateThrough (operations [event]) (gatesIn s.memory p.table) v := congrFun (gates []) v
      rw [now]
      exact madeThrough made (operations [event]) v
    rw [List.foldl_cons,ih next still,gates]

end

section
variable {σ : Type} [PageAllocator σ]

theorem startupMade (address : Handler → Nat) (v : Fin 256) : Made (startupGate address v) := by
  rw [startupGate,← throughDistinct address registrationsDistinct]
  exact madeThrough (fun _ => ⟨Or.inl rfl,by decide⟩) _ v

theorem interruptsDelivered (address : Handler → Nat) (s : Machine σ) (enough : 6 ≤ PageAllocator.available s.allocator) :
    ∃ t ist1 ist2, cpuInitialize address s = .ok t ∧
      (¬ PageAllocator.Taken s.allocator ist1 ∧ ¬ PageAllocator.Taken s.allocator ist2 ∧ PagesApart ist1 ist2) ∧
      ∀ events v, (events.foldl (happen ist1 ist2) t).deliver v =
        delivered ist1 ist2 (gateThrough (operations events) (startupGate address) v) := by
  obtain ⟨laid,_,fresh⟩ := drawnLaid enough
  obtain ⟨t,done,ready,gates,_⟩ := cpuInitialized address enough
  refine ⟨t,_,_,done,fresh,fun events v => ?_⟩
  have made : ∀ v, Made (gatesIn t.memory (drawnPages s.allocator).table v) := fun v => by
    rw [gates]
    exact startupMade address v
  rw [runDelivers laid events ready made,gates]

def oneWord : PhysicalMemory.Bitmap where
  state := ⟨fun _ => 1#64,0,1,1⟩
  sound := ⟨by decide,by decide,fun w _ i low high => by
    have bits : ∀ j : Fin 64, 31 ≤ j.val → (1#64).getLsbD j.val = false := by decide
    exact (bits ⟨i,high⟩ low).trans (bits ⟨31,by decide⟩ (by decide)).symm⟩
  nullTaken := by decide
  words := by decide

def coldMachine : Machine PhysicalMemory.Bitmap := ⟨fun _ => 0xFF,[],oneWord,0,0,0,0,0,0,0,0⟩

theorem interruptsDeliveredCold :
    6 ≤ PageAllocator.available coldMachine.allocator ∧
    ∃ t ist1 ist2, cpuInitialize (fun _ => 0x100000) coldMachine = .ok t ∧
      (¬ PageAllocator.Taken coldMachine.allocator ist1 ∧ ¬ PageAllocator.Taken coldMachine.allocator ist2 ∧ PagesApart ist1 ist2) ∧
      ∀ events v, (events.foldl (happen ist1 ist2) t).deliver v =
        delivered ist1 ist2 (gateThrough (operations events) (startupGate fun _ => 0x100000) v) :=
  ⟨by decide,interruptsDelivered (fun _ => 0x100000) coldMachine (by decide)⟩

/-- A double fault starts on the first interrupt stack with further interrupts held back. -/
example (address : Handler → Nat) (ist1 ist2 : Nat) : delivered ist1 ist2 (startupGate address 8) =
    some ⟨address .invalidDoubleFault % 2^64,some (ist1+4096),true⟩ := rfl

end

end Kokos.Interrupts

import Kokos.InterruptTable
import Kokos.PageAllocator

/-! gdt.c, idt_initialize and the start of cpu_initialize that calls them, and what a
processor does with the tables when an interrupt comes. -/
namespace Kokos.Interrupts
open ByteMemory BitFields

/-! struct gdt_entry, as a number of 64 bits; struct gdt_system_entry has 64 more. -/
namespace Segment

def limit1 : Field := ⟨0,16⟩
def base1 : Field := ⟨16,16⟩
def base2 : Field := ⟨32,8⟩
def accessed : Field := ⟨40,1⟩
def readWrite : Field := ⟨41,1⟩
def directionConforming : Field := ⟨42,1⟩
def executable : Field := ⟨43,1⟩
def nonSystem : Field := ⟨44,1⟩
def present : Field := ⟨47,1⟩
def limit2 : Field := ⟨48,4⟩
def longMode : Field := ⟨53,1⟩
def granularity : Field := ⟨55,1⟩
def base3 : Field := ⟨56,8⟩
def base4 : Field := ⟨64,32⟩

end Segment

def gdtKernelDataSegment : Nat := 0x10
def gdtKernelTaskSegment : Nat := 0x18

def taskStateSize : Nat := 104
def ist1Offset : Nat := 36

def changeBytes (m : Memory) (a n : Nat) (change : Nat → Nat) : Memory := writeBytes m a n (change (readBytes m a n))

def codeSegmentFields : List (Field × Nat) :=
  [(Segment.readWrite,1),(Segment.executable,1),(Segment.nonSystem,1),(Segment.present,1),(Segment.longMode,1)]

def dataSegmentFields : List (Field × Nat) :=
  [(Segment.readWrite,1),(Segment.nonSystem,1),(Segment.present,1),(Segment.longMode,1)]

def taskSegmentFields (base : Nat) : List (Field × Nat) :=
  [(Segment.accessed,1),(Segment.readWrite,0),(Segment.directionConforming,0),(Segment.executable,1),(Segment.present,1),
    (Segment.limit1,taskStateSize &&& 0xFFFF),(Segment.limit2,(taskStateSize >>> 16) &&& 0xFF),
    (Segment.base1,base &&& 0xFFFF),(Segment.base2,(base >>> 16) &&& 0xFF),(Segment.base3,(base >>> 24) &&& 0xFF),
    (Segment.base4,(base >>> 32) &&& 0xFFFFFFFF)]

structure Machine (σ : Type) where
  memory : Memory
  printed : List ConsoleCall
  allocator : σ
  currentCpuId : Nat
  fsBase : Nat
  gdtBase : Nat
  gdtLimit : Nat
  idtBase : Nat
  idtLimit : Nat
  taskBase : Nat
  taskLimit : Nat

variable {σ : Type} [PageAllocator σ]

def drawPage (allocator : σ) : Nat × σ :=
  match PageAllocator.allocate allocator with
  | none => (0,allocator)
  | some drawn => drawn

def Machine.allocate (s : Machine σ) : Nat × Machine σ :=
  ((drawPage s.allocator).1,{ s with allocator := (drawPage s.allocator).2 })

def Machine.print (s : Machine σ) (calls : List ConsoleCall) : Machine σ := { s with printed := s.printed ++ calls }

def Machine.cpu (s : Machine σ) : Nat := readBytes s.memory s.fsBase 8

/-! The processor's own instructions. -/

def segmentBase (descriptor : Nat) : Nat :=
  Segment.base1.get descriptor + 2^16*Segment.base2.get descriptor + 2^24*Segment.base3.get descriptor +
    2^32*Segment.base4.get descriptor

def segmentLimit (descriptor : Nat) : Nat :=
  let limit := Segment.limit1.get descriptor + 2^16*Segment.limit2.get descriptor
  if Segment.granularity.get descriptor = 0 then limit else 4096*limit+4095

def isTask (descriptor : Nat) : Bool :=
  Segment.present.get descriptor == 1 && Segment.nonSystem.get descriptor == 0 && Segment.executable.get descriptor == 1 &&
    Segment.directionConforming.get descriptor == 0 && Segment.readWrite.get descriptor == 0 && Segment.accessed.get descriptor == 1

/-- ltr, which marks the task state busy, or faults. -/
def Machine.loadTask (s : Machine σ) (selector : Nat) : Option (Machine σ) :=
  let descriptor := readBytes s.memory (s.gdtBase+selector) 16
  if selector+15 ≤ s.gdtLimit ∧ isTask descriptor then
    some { s with
      memory := changeBytes s.memory (s.gdtBase+selector) 16 (Segment.readWrite.set 1)
      taskBase := segmentBase descriptor
      taskLimit := segmentLimit descriptor }
  else none

structure Delivery where
  handler : Nat
  stack : Option Nat
  masked : Bool
  deriving DecidableEq, Repr

def isCode (descriptor : Nat) : Bool :=
  Segment.present.get descriptor == 1 && Segment.nonSystem.get descriptor == 1 && Segment.executable.get descriptor == 1 &&
    Segment.longMode.get descriptor == 1

/-- Delivery of an interrupt in long mode, or a fault in its place. -/
def Machine.deliver (s : Machine σ) (vector : Fin 256) : Option Delivery :=
  let gate := gateOf (loadEntry s.memory s.idtBase vector)
  -- the selector's two lowest bits are its privilege, the next one asks for a local table
  let segment := gate.codeSegment / 8 * 8
  let masked : Bool := gate.kind = gateTypeInterrupt
  if s.idtLimit < 16*vector+15 then none
  else if ¬ gate.present ∨ gate.kind ≠ gateTypeInterrupt ∧ gate.kind ≠ gateTypeTrap then none
  else if segment = 0 ∨ gate.codeSegment / 4 % 2 = 1 ∨ s.gdtLimit < segment+7 ∨
    ¬ isCode (readBytes s.memory (s.gdtBase+segment) 8) then none
  else if gate.stack = stackTypeCurrent then some ⟨gate.handler,none,masked⟩
  else if s.taskLimit < ist1Offset+8*(gate.stack-1)+7 then none
  else some ⟨gate.handler,some (readBytes s.memory (s.taskBase+(ist1Offset+8*(gate.stack-1))) 8),masked⟩

/-! The kernel's side. -/

def gdtMemory (m : Memory) (gdt task ist1 ist2 : Nat) : Memory :=
  let m := zeroBytes m gdt 4096
  let m := changeBytes m (gdt+gdtKernelCodeSegment) 8 (assign codeSegmentFields)
  let m := changeBytes m (gdt+gdtKernelDataSegment) 8 (assign dataSegmentFields)
  let m := zeroBytes m task taskStateSize
  let m := writeBytes m (task+ist1Offset) 8 (ist1+4096)
  let m := writeBytes m (task+(ist1Offset+8)) 8 (ist2+4096)
  changeBytes m (gdt+gdtKernelTaskSegment) 16 (assign (taskSegmentFields task))

def gdtInitialize (s : Machine σ) : Except (List ConsoleCall) (Machine σ) :=
  let gdt := s.allocate
  let task := gdt.2.allocate
  let ist1 := task.2.allocate
  let ist2 := ist1.2.allocate
  let m := gdtMemory s.memory gdt.1 task.1 ist1.1 ist2.1
  let s := ist2.2.print [.print "[gdt] allocate task_state at 0x",.printU64 task.1 16,.newLine,
    .print "[gdt] allocate ist1 at 0x",.printU64 (readBytes m (task.1+ist1Offset) 8) 16,.newLine]
  match { s with memory := m, gdtBase := gdt.1, gdtLimit := 8*3+16 : Machine σ }.loadTask gdtKernelTaskSegment with
  | none => .error s.printed
  | some s => .ok { s with memory := writeBytes s.memory (s.cpu+32) 8 gdt.1 }

def cpuOperate (s : Machine σ) (operation : Operation) : Machine σ :=
  let screen := operate (readBytes s.memory (s.cpu+24) 8) ⟨s.memory,s.printed⟩ operation
  { s with memory := screen.memory, printed := screen.printed }

inductive Handler where
  | divideByZero | debug | nonMaskableInterrupt | breakpoint | overflow | boundRange | invalidOpcode
  | deviceNotAvailable | invalidDoubleFault | segmentOverrun | invalidTss | segmentNotPresent | stack
  | generalProtection | pageFault | floatException | alignmentCheck | machineCheck | simdFloatException | spurious
  deriving DecidableEq, Repr

structure Registration where
  vector : Fin 256
  handler : Handler
  interruptType : Nat
  ist : Nat

def registrations : List Registration :=
  [⟨0,.divideByZero,gateTypeTrap,stackTypeCurrent⟩,
   ⟨1,.debug,gateTypeTrap,stackTypeCurrent⟩,
   ⟨2,.nonMaskableInterrupt,gateTypeInterrupt,stackTypeCurrent⟩,
   ⟨3,.breakpoint,gateTypeTrap,stackTypeCurrent⟩,
   ⟨4,.overflow,gateTypeTrap,stackTypeCurrent⟩,
   ⟨5,.boundRange,gateTypeTrap,stackTypeCurrent⟩,
   ⟨6,.invalidOpcode,gateTypeTrap,stackTypeCurrent⟩,
   ⟨7,.deviceNotAvailable,gateTypeTrap,stackTypeCurrent⟩,
   ⟨8,.invalidDoubleFault,gateTypeInterrupt,stackTypeDoubleFault⟩,
   ⟨9,.segmentOverrun,gateTypeTrap,stackTypeCurrent⟩,
   ⟨10,.invalidTss,gateTypeTrap,stackTypeCurrent⟩,
   ⟨11,.segmentNotPresent,gateTypeTrap,stackTypeCurrent⟩,
   ⟨12,.stack,gateTypeTrap,stackTypeCurrent⟩,
   ⟨13,.generalProtection,gateTypeTrap,stackTypeCurrent⟩,
   ⟨14,.pageFault,gateTypeTrap,stackTypeCurrent⟩,
   ⟨16,.floatException,gateTypeTrap,stackTypeCurrent⟩,
   ⟨17,.alignmentCheck,gateTypeTrap,stackTypeCurrent⟩,
   ⟨18,.machineCheck,gateTypeTrap,stackTypeCurrent⟩,
   ⟨19,.simdFloatException,gateTypeTrap,stackTypeCurrent⟩] ++
  (List.range' (0xFF-17) 18).map fun i => ⟨Fin.ofNat 256 i,.spurious,gateTypeTrap,0⟩

def Registration.call (address : Handler → Nat) (r : Registration) : Operation :=
  .register r.vector (address r.handler) r.interruptType r.ist

def idtInitialize (address : Handler → Nat) (s : Machine σ) : Except (List ConsoleCall) (Machine σ) :=
  let table := s.allocate
  if table.1 = 0 then .error (s.printed ++ [.print "fatal: could not initialize interrupt descriptor table"])
  else
    let m := zeroBytes s.memory table.1 4096
    let cpu := readBytes m s.fsBase 8
    let s := { table.2 with
      memory := writeBytes m (cpu+24) 8 table.1
      idtBase := table.1
      idtLimit := 256*16-1 }
    .ok (registrations.foldl (fun s r => cpuOperate s (r.call address)) s)

/-- cpu_initialize as far as its tables. -/
def cpuInitialize (address : Handler → Nat) (s : Machine σ) : Except (List ConsoleCall) (Machine σ) :=
  let cpu := s.allocate
  let m := writeBytes s.memory cpu.1 8 cpu.1
  let m := writeBytes m (cpu.1+8) 4 s.currentCpuId
  let m := writeBytes m (cpu.1+24) 8 0
  let s := { cpu.2 with memory := m, currentCpuId := s.currentCpuId+1, fsBase := cpu.1 }
  match gdtInitialize (s.print [.print "[cpu] set up GDT\n"]) with
  | .error printed => .error printed
  | .ok s => idtInitialize address (s.print [.print "[cpu] set up IDT\n"])

end Kokos.Interrupts

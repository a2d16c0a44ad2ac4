import Kokos.ByteMemory
import Kokos.TransitionRuns

/-! The scheduler of one CPU: schedule.asm, scheduler_handle_interrupt and
scheduler_execute over one memory, which holds the process structures and the stack
that the interrupt runs on. An interrupt is one step. Its gate is a trap gate, which leaves
interrupts enabled, but the handler rearms the one-shot timer last, 10000*128 of its ticks
before it expires again; it is assumed that no timer interrupt is delivered between that store
and iretq. -/
namespace Kokos.Scheduler
open ByteMemory TransitionRuns

inductive Register where
  | rax | rbx | rcx | rdx | rsi | rdi | rbp | r8 | r9 | r10 | r11 | r12 | r13 | r14 | r15
  deriving DecidableEq, Repr

/-- The registers of schedule.asm in the order it pushes them, and in the order it pops them. -/
def pushed : List Register := [.rbp,.rax,.rbx,.rcx,.rdx,.rdi,.rsi,.r8,.r9,.r10,.r11]
def popped : List Register := [.r11,.r10,.r9,.r8,.rsi,.rdi,.rdx,.rcx,.rbx,.rax,.rbp]

def savedRegisters : List Register := [.r11,.r10,.r9,.r8,.rsi,.rdi,.rdx,.rcx,.rbx,.rax,.rbp]

/-- What a C function may change; it hands the other registers back as it got them. -/
def callerSaved : List Register := [.rax,.rcx,.rdx,.rsi,.rdi,.r8,.r9,.r10,.r11]

/-! Offsets in struct scheduler_process, with struct paging_context from 24 on. -/
def processId : Nat := 0
def processNext : Nat := 8
def processPrevious : Nat := 16
def processLevel4Table : Nat := 24
def processLevel3Table : Nat := 32
def processLevel2Table : Nat := 40
def processLevel1Table : Nat := 48
def processIndices : Nat := 56
def processSavedRflags : Nat := 72
def processSavedInstructionPointer : Nat := 80
def processSavedStackPointer : Nat := 88
def processSavedRegisters : Nat := 96

/-! Offsets in struct scheduler_interrupt_frame, with struct idt_stack_frame from 88 on. -/
def frameRegisters : Nat := 0
def frameInstructionPointer : Nat := 88
def frameCodeSegment : Nat := 96
def frameRflags : Nat := 104
def frameStackPointer : Nat := 112
def frameStackSegment : Nat := 120

structure Cpu where
  registers : Register → BitVec 64
  rip : BitVec 64
  rsp : BitVec 64
  rflags : BitVec 64
  cs : BitVec 64
  ss : BitVec 64

/-- `interruptStack` is the stack pointer that the task state holds for the interrupt. -/
structure Machine where
  memory : Memory
  cpu : Cpu
  cr3 : BitVec 64
  currentProcess : Nat
  currentProcessId : Nat
  interruptStack : Nat

def pushAll : Memory → Nat → List (BitVec 64) → Memory × Nat
  | m, rsp, [] => (m,rsp)
  | m, rsp, v::vs => pushAll (storeWord m (rsp-8) v) (rsp-8) vs

def popAll (m : Memory) : Nat → List Register → (Register → BitVec 64) → Register → BitVec 64
  | _, [], registers => registers
  | rsp, r::rs, registers => popAll m (rsp+8) rs (Function.update registers r (loadWord m rsp))

def copyWord (m : Memory) (source target : Nat) : Memory := storeWord m target (loadWord m source)

def copyWords (m : Memory) (source target words : Nat) : Memory := storeWords m target (loadWords m source words)

def nextOf (m : Memory) (p : Nat) : Nat := readWord m (p + processNext)
def previousOf (m : Memory) (p : Nat) : Nat := readWord m (p + processPrevious)

def switchFrames (m : Memory) (current next stack : Nat) : Memory :=
  let m := copyWord m (stack + frameRflags) (current + processSavedRflags)
  let m := copyWord m (stack + frameInstructionPointer) (current + processSavedInstructionPointer)
  let m := copyWord m (stack + frameStackPointer) (current + processSavedStackPointer)
  let m := copyWords m (stack + frameRegisters) (current + processSavedRegisters) savedRegisters.length
  let m := copyWord m (next + processSavedInstructionPointer) (stack + frameInstructionPointer)
  let m := copyWord m (next + processSavedStackPointer) (stack + frameStackPointer)
  let m := copyWord m (next + processSavedRflags) (stack + frameRflags)
  copyWords m (next + processSavedRegisters) (stack + frameRegisters) savedRegisters.length

def schedulerHandleInterrupt (s : Machine) (stack : Nat) : Machine :=
  let next := nextOf s.memory s.currentProcess
  if s.currentProcess ≠ next then
    let memory := switchFrames s.memory s.currentProcess next stack
    { s with memory := memory, cr3 := loadWord memory (next + processLevel4Table), currentProcess := next }
  else s

/-- The processor's pushes, schedule.asm around the handler, and iretq. `scratch` is
what the handler leaves in the registers it may change. -/
def schedulerInterrupt (scratch : Register → BitVec 64) (s : Machine) : Machine :=
  let (memory,rsp) := pushAll s.memory s.interruptStack [s.cpu.ss,s.cpu.rsp,s.cpu.rflags,s.cpu.cs,s.cpu.rip]
  let (memory,rsp) := pushAll memory rsp (pushed.map s.cpu.registers)
  let s' := schedulerHandleInterrupt { s with memory := memory } rsp
  let registers := fun r => if r ∈ callerSaved then scratch r else s.cpu.registers r
  { s' with cpu :=
    { registers := popAll s'.memory rsp popped registers
      rip := loadWord s'.memory (rsp + frameInstructionPointer)
      cs := loadWord s'.memory (rsp + frameCodeSegment)
      rflags := loadWord s'.memory (rsp + frameRflags)
      rsp := loadWord s'.memory (rsp + frameStackPointer)
      ss := loadWord s'.memory (rsp + frameStackSegment) } }

def writeContext (m : Memory) (process : Nat) (level4 : BitVec 64) : Memory :=
  let m := storeWord m (process + processLevel4Table) level4
  let m := storeWord m (process + processLevel3Table) 0
  let m := storeWord m (process + processLevel2Table) 0
  let m := storeWord m (process + processLevel1Table) 0
  storeWord m (process + processIndices) 0

/-- The dummy process of cpu_initialize, with the stack page it never uses. -/
def dummyProcess (m : Memory) (process stackPage : Nat) (level4 : BitVec 64) : Memory :=
  let m := storeWord m (process + processSavedInstructionPointer) 0
  let m := storeWord m (process + processSavedStackPointer) (BitVec.ofNat 64 (stackPage + 4096))
  let m := storeWord m (process + processId) 20
  let m := storeWord m (process + processNext) (BitVec.ofNat 64 process)
  let m := storeWord m (process + processPrevious) (BitVec.ofNat 64 process)
  writeContext m process level4

def beginProcess (m : Memory) (process id : Nat) (level4 : BitVec 64) : Memory :=
  writeContext (storeWord m (process + processId) (BitVec.ofNat 64 id)) process level4

def defaultRflags : BitVec 64 := 0b1001000110

def finishProcess (m : Memory) (process : Nat) (stack entrypoint : BitVec 64) : Memory :=
  let m := storeWord m (process + processSavedRflags) defaultRflags
  let m := zeroBytes m (process + processSavedRegisters) (8*savedRegisters.length)
  let m := storeWord m (process + processSavedStackPointer) (stack + 4096*8)
  storeWord m (process + processSavedInstructionPointer) entrypoint

def insertProcess (s : Machine) (process : Nat) : Machine :=
  if s.currentProcess ≠ 0 then
    let m := copyWord s.memory (s.currentProcess + processNext) (process + processNext)
    let m := storeWord m (process + processPrevious) (BitVec.ofNat 64 s.currentProcess)
    { s with memory := storeWord m (s.currentProcess + processNext) (BitVec.ofNat 64 process) }
  else
    let m := storeWord s.memory (process + processNext) (BitVec.ofNat 64 process)
    let m := storeWord m (process + processPrevious) (BitVec.ofNat 64 process)
    { s with memory := m, currentProcess := process }

end Kokos.Scheduler

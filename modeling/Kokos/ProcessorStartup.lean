import Kokos.TransitionRuns
import Kokos.Acpi
import Kokos.WordBits

/-! How kernel_main starts the other processors: INIT and twice STARTUP through the command
registers of its local APIC, then it waits for cpu_entrypoint to set cpu_startup_increment.
The messages to one processor arrive in order, at any time. A wait of a millisecond is no
step of its own. -/
namespace Kokos.ProcessorStartup
open TransitionRuns ByteMemory Acpi

structure Processor where
  apicId : Fin 256
  flags : Nat
  deriving DecidableEq, Repr

def localApic (m : Memory) (entry : Nat) : Processor := ⟨(m (entry+3)).toFin,readUnsigned m (entry+4)⟩

def Started (own : Fin 256) (p : Processor) : Prop := p.flags &&& 1 ≠ 0 ∧ p.apicId ≠ own

instance (own : Fin 256) (p : Processor) : Decidable (Started own p) := by
  unfold Started; infer_instance

def destination (apicId : Fin 256) : BitVec 32 := BitVec.ofNat 32 apicId <<< 24
def initCommand : BitVec 32 := 1#32 <<< 14 ||| 0b101#32 <<< 8
def startupCommand (vector : Nat) : BitVec 32 := 1#32 <<< 14 ||| 0b110#32 <<< 8 ||| BitVec.ofNat 32 vector

inductive Ipi where
  | init
  | startup (vector : Nat)
  deriving DecidableEq, Repr

/-- What a write to interrupt_command0 sends: the message type is in bits 8 to 10. -/
def sentIpi (command0 : BitVec 32) : Option Ipi :=
  let type := (command0 >>> 8) &&& 0b111
  if type = 0b101 then some .init
  else if type = 0b110 then some (.startup (command0 &&& 0xFF).toNat)
  else none

inductive Stage where
  | resetIncrement | initDestination | initCommand | startupDestination | startupCommand | repeatDestination | repeatCommand | waiting
  deriving DecidableEq, Repr

inductive Boot where
  | loop (rest : List Processor)
  | starting (stage : Stage) (p : Processor) (rest : List Processor)
  | finished
  deriving DecidableEq, Repr

/-- Another processor. After STARTUP it runs from the address that the vector names, through
cpu_startup16 and cpu_startup32, to the store in cpu_entrypoint, and then halts. -/
inductive Other where
  | off
  | waitsForStartup
  | starting (address : Nat)
  | halted
  deriving DecidableEq, Repr

structure State where
  boot : Boot
  command1 : BitVec 32
  startupIncrement : Nat
  startupDone : Nat
  flying : Fin 256 → List Ipi
  others : Fin 256 → Other

structure Kernel where
  startup16 : Nat
  own : Fin 256

def Kernel.vector (kernel : Kernel) : Nat := (kernel.startup16 >>> 12) % 2^32

def sentTo (command1 : BitVec 32) : Fin 256 := ⟨(command1 >>> 24).toNat % 256,Nat.mod_lt _ (by decide)⟩

def writeCommand (s : State) (command0 : BitVec 32) : State :=
  match sentIpi command0 with
  | none => s
  | some ipi =>
    let apicId := sentTo s.command1
    { s with flying := Function.update s.flying apicId (s.flying apicId ++ [ipi]) }

def bootStep (kernel : Kernel) (s : State) : Option State :=
  match s.boot with
  | .loop [] => some { s with boot := .finished, startupDone := 1 }
  | .loop (p::rest) => some { s with boot := if Started kernel.own p then .starting .resetIncrement p rest else .loop rest }
  | .starting .resetIncrement p rest => some { s with boot := .starting .initDestination p rest, startupIncrement := 0 }
  | .starting .initDestination p rest =>
    some { s with boot := .starting .initCommand p rest, command1 := destination p.apicId }
  | .starting .initCommand p rest =>
    some (writeCommand { s with boot := .starting .startupDestination p rest } initCommand)
  | .starting .startupDestination p rest =>
    some { s with boot := .starting .startupCommand p rest, command1 := destination p.apicId }
  | .starting .startupCommand p rest =>
    some (writeCommand { s with boot := .starting .repeatDestination p rest } (startupCommand kernel.vector))
  | .starting .repeatDestination p rest =>
    some { s with boot := .starting .repeatCommand p rest, command1 := destination p.apicId }
  | .starting .repeatCommand p rest =>
    some (writeCommand { s with boot := .starting .waiting p rest } (startupCommand kernel.vector))
  | .starting .waiting _ rest => if s.startupIncrement = 0 then some s else some { s with boot := .loop rest }
  | .finished => none

def receive (other : Other) : Ipi → Other
  | .init => .waitsForStartup
  | .startup vector => if other = .waitsForStartup then .starting (vector <<< 12) else other

inductive Event where
  | boot
  | deliver (apicId : Fin 256)
  | run (apicId : Fin 256)
  deriving DecidableEq, Repr

def next (kernel : Kernel) (s : State) : Event → Option State
  | .boot => bootStep kernel s
  | .deliver a => match s.flying a with
    | [] => none
    | ipi::later => some { s with
        flying := Function.update s.flying a later
        others := Function.update s.others a (receive (s.others a) ipi) }
  | .run a =>
    if s.others a = .starting kernel.startup16 then
      some { s with startupIncrement := 1, others := Function.update s.others a .halted }
    else none

def system (kernel : Kernel) (processors : List Processor) : System State Event :=
  .ofNext ⟨.loop processors,0,0,0,fun _ => [],fun _ => .off⟩ (next kernel)

def targets (own : Fin 256) (processors : List Processor) : List (Fin 256) :=
  (processors.filter fun p => Started own p).map Processor.apicId

/-! What is on the way to one processor, and where it is. -/

def Stale (vector : Nat) (q : List Ipi) : Prop := ∀ i ∈ q, i = .startup vector

inductive Asked (vector k : Nat) : Nat → List Ipi → Other → Prop where
  | before {stale o} (old : Stale vector stale) (where_ : o = .off ∨ o = .halted) :
      Asked vector k 0 (stale ++ .init::List.replicate k (.startup vector)) o
  | called : Asked vector k 0 (List.replicate k (.startup vector)) .waitsForStartup
  | running {j} (first : j < k) : Asked vector k 0 (List.replicate j (.startup vector)) (.starting (vector <<< 12))
  | through {j} (first : j < k) : Asked vector k 1 (List.replicate j (.startup vector)) .halted

inductive Role where
  | untouched
  | asked (k : Nat)
  | through

def Fits (vector : Nat) : Role → Nat → List Ipi → Other → Prop
  | .untouched, _, q, o => q = [] ∧ o = .off
  | .asked k, increment, q, o => Asked vector k increment q o
  | .through, _, q, o => Stale vector q ∧ o = .halted

def Stage.sent : Stage → Option Nat
  | .resetIncrement | .initDestination | .initCommand => none
  | .startupDestination | .startupCommand => some 0
  | .repeatDestination | .repeatCommand => some 1
  | .waiting => some 2

def settledRole (visited : List (Fin 256)) (a : Fin 256) : Role := if a ∈ visited then .through else .untouched

def role (visited : List (Fin 256)) (boot : Boot) (a : Fin 256) : Role :=
  match boot with
  | .starting stage p _ => match stage.sent with
    | some k => if a = p.apicId then .asked k else settledRole visited a
    | none => settledRole visited a
  | _ => settledRole visited a

def Boot.rest (own : Fin 256) : Boot → List (Fin 256)
  | .loop rest => targets own rest
  | .starting _ p rest => p.apicId::targets own rest
  | .finished => []

def Ready (s : State) : Prop :=
  match s.boot with
  | .loop _ => s.startupDone = 0
  | .starting stage p _ => s.startupDone = 0 ∧
    (stage = .initDestination ∨ stage = .initCommand → s.startupIncrement = 0) ∧
    (stage = .initCommand ∨ stage = .startupCommand ∨ stage = .repeatCommand → s.command1 = destination p.apicId)
  | .finished => s.startupDone = 1

structure Sound (kernel : Kernel) (processors : List Processor) (visited : List (Fin 256)) (s : State) : Prop where
  order : visited ++ s.boot.rest kernel.own = targets kernel.own processors
  ready : Ready s
  fits : ∀ a, Fits kernel.vector (role visited s.boot a) s.startupIncrement (s.flying a) (s.others a)

theorem destinationSent (a : Fin 256) : sentTo (destination a) = a := by
  have small := a.isLt
  apply Fin.ext
  simp only [sentTo,destination,BitVec.toNat_ushiftRight,BitVec.toNat_shiftLeft,BitVec.toNat_ofNat,
    Nat.shiftLeft_eq,Nat.shiftRight_eq_div_pow]
  omega

theorem initSent : sentIpi initCommand = some .init := by decide

theorem startupValue {vector : Nat} (bound : vector ≤ 255) : (startupCommand vector).toNat = 0x4600 + vector := by
  have upper : 1#32 <<< 14 ||| 0b110#32 <<< 8 = BitVec.ofNat 32 0x4600 := by decide
  rw [startupCommand,upper,BitVec.toNat_or,BitVec.toNat_ofNat,BitVec.toNat_ofNat,Nat.mod_eq_of_lt (by omega : vector < 2^32)]
  exact WordBits.orAdd 0x46 (by omega : vector < 2^8)

theorem startupSent {vector : Nat} (bound : vector ≤ 255) : sentIpi (startupCommand vector) = some (.startup vector) := by
  have value := startupValue bound
  have type : (startupCommand vector >>> 8) &&& 0b111 = 0b110 := by
    apply BitVec.eq_of_toNat_eq
    have shifted : (0x4600 + vector) >>> 8 = 0x46 := by
      rw [Nat.shiftRight_eq_div_pow]
      omega
    rw [BitVec.toNat_and,BitVec.toNat_ushiftRight,value,shifted]
    rfl
  have low : (startupCommand vector &&& 0xFF).toNat = vector := by
    rw [BitVec.toNat_and,value]
    change (0x4600 + vector) &&& (2^8 - 1) = vector
    rw [Nat.and_two_pow_sub_one_eq_mod]
    omega
  unfold sentIpi
  dsimp only
  rw [type,low]
  rfl

theorem staleTail {vector : Nat} {i : Ipi} {q : List Ipi} (stale : Stale vector (i::q)) : i = .startup vector ∧ Stale vector q :=
  ⟨stale i (List.mem_cons_self ..),fun j member => stale j (List.mem_cons_of_mem _ member)⟩

theorem staleReplicate (vector k : Nat) : Stale vector (List.replicate k (.startup vector)) :=
  fun _ member => List.eq_of_mem_replicate member

theorem replicateHead {vector k : Nat} {i : Ipi} {q : List Ipi} (split : List.replicate k (.startup vector) = i::q) :
    ∃ n, k = n+1 ∧ i = .startup vector ∧ q = List.replicate n (.startup vector) := by
  cases k with
  | zero => cases split
  | succ n =>
    obtain ⟨head,rest⟩ := List.cons.inj split
    exact ⟨n,rfl,head.symm,rest.symm⟩

theorem askedReceive {vector k increment : Nat} {i : Ipi} {q q' : List Ipi} {o : Other} (asked : Asked vector k increment q' o)
    (split : q' = i::q) : Asked vector k increment q (receive o i) := by
  cases asked with
  | @before stale o old where_ =>
    cases stale with
    | nil =>
      obtain ⟨rfl,rfl⟩ := List.cons.inj split
      exact .called
    | cons j stale =>
      obtain ⟨rfl,rest⟩ := staleTail old
      obtain ⟨rfl,rfl⟩ := List.cons.inj split
      rcases where_ with rfl | rfl
      · exact .before rest (Or.inl rfl)
      · exact .before rest (Or.inr rfl)
  | called =>
    obtain ⟨n,rfl,rfl,rfl⟩ := replicateHead split
    exact .running (Nat.lt_succ_self n)
  | @running j first =>
    obtain ⟨n,rfl,rfl,rfl⟩ := replicateHead split
    exact .running (Nat.lt_of_succ_lt first)
  | @through j first =>
    obtain ⟨n,rfl,rfl,rfl⟩ := replicateHead split
    exact .through (Nat.lt_of_succ_lt first)

theorem fitsReceive {vector increment : Nat} {r : Role} {i : Ipi} {q : List Ipi} {o : Other}
    (fits : Fits vector r increment (i::q) o) : Fits vector r increment q (receive o i) := by
  cases r with
  | untouched =>
    obtain ⟨empty,_⟩ := fits
    cases empty
  | asked k => exact askedReceive fits rfl
  | through =>
    obtain ⟨stale,rfl⟩ := fits
    obtain ⟨rfl,rest⟩ := staleTail stale
    exact ⟨rest,rfl⟩

theorem fitsRun {vector increment address : Nat} {r : Role} {q : List Ipi} (fits : Fits vector r increment q (.starting address)) :
    address = vector <<< 12 ∧ ∃ k, r = .asked k ∧ Fits vector (.asked k) 1 q .halted := by
  cases r with
  | untouched => cases fits.2
  | asked k =>
    cases fits with
    | before _ where_ => rcases where_ with same | same <;> cases same
    | running first => exact ⟨rfl,k,rfl,.through first⟩
  | through => cases fits.2

theorem askedInit {vector increment : Nat} {visited : List (Fin 256)} {a : Fin 256} {q : List Ipi} {o : Other}
    (fits : Fits vector (settledRole visited a) increment q o) : Asked vector 0 0 (q ++ [.init]) o := by
  unfold settledRole at fits
  split at fits
  · obtain ⟨stale,rfl⟩ := fits
    exact .before stale (Or.inr rfl)
  · obtain ⟨rfl,rfl⟩ := fits
    exact .before (fun _ member => by cases member) (Or.inl rfl)

theorem askedStartup {vector k increment : Nat} {q : List Ipi} {o : Other} (asked : Asked vector k increment q o) :
    Asked vector (k+1) increment (q ++ [.startup vector]) o := by
  cases asked with
  | before old where_ =>
    rw [List.append_assoc,List.cons_append,← List.replicate_succ']
    exact .before old where_
  | called =>
    rw [← List.replicate_succ']
    exact .called
  | running first =>
    rw [← List.replicate_succ']
    exact .running (Nat.succ_lt_succ first)
  | through first =>
    rw [← List.replicate_succ']
    exact .through (Nat.succ_lt_succ first)

theorem askedThrough {vector k increment : Nat} {q : List Ipi} {o : Other} (asked : Asked vector k increment q o)
    (set : increment ≠ 0) : Stale vector q ∧ o = .halted := by
  cases asked with
  | through first => exact ⟨staleReplicate _ _,rfl⟩
  | before | called | running => exact absurd rfl set

theorem settledFits {vector increment : Nat} {visited : List (Fin 256)} {a : Fin 256} {q : List Ipi} {o : Other} (other : Nat)
    (fits : Fits vector (settledRole visited a) increment q o) : Fits vector (settledRole visited a) other q o := by
  unfold settledRole at fits ⊢
  split at fits
  · rename_i seen
    rwa [if_pos seen]
  · rename_i unseen
    rwa [if_neg unseen]

theorem settledCons {visited : List (Fin 256)} {a b : Fin 256} (other : a ≠ b) :
    settledRole (visited ++ [b]) a = settledRole visited a := by
  simp [settledRole,other]

theorem settledLast {visited : List (Fin 256)} {b : Fin 256} : settledRole (visited ++ [b]) b = .through := by
  simp [settledRole]

end Kokos.ProcessorStartup

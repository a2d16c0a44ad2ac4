import Kokos.TransitionRuns
import Kokos.Numerals

/-! serial.c: one byte at a time into the port's transmission buffer, which the port empties
onto the line whenever it likes. -/
namespace Kokos.Serial
open ByteMemory ByteStrings TransitionRuns Strings WhileLoops

structure Settings where
  interruptEnable : UInt8
  lineControl : UInt8
  divisorLow : UInt8
  divisorHigh : UInt8
  deriving DecidableEq, Repr

structure Port where
  settings : Settings
  buffer : Option UInt8
  sent : List UInt8
  lost : List UInt8
  deriving DecidableEq, Repr

def Settings.baudRate (s : Settings) : Bool := s.lineControl &&& 0b10000000 ≠ 0

/-- A write to SERIAL_PORT + register, of which register 0 is the buffer unless the baud rate
is being set. -/
def Settings.out (register : Nat) (value : UInt8) (s : Settings) : Settings :=
  match register with
  | 0 => if s.baudRate then { s with divisorLow := value } else s
  | 1 => if s.baudRate then { s with divisorHigh := value } else { s with interruptEnable := value }
  | 3 => { s with lineControl := value }
  | _ => s

def portOut8 (register : Nat) (value : UInt8) (p : Port) : Port :=
  if register = 0 ∧ ¬ p.settings.baudRate then { p with buffer := some value, lost := p.lost ++ p.buffer.toList }
  else { p with settings := p.settings.out register value }

/-- SERIAL_PORT + 5, of which only bit 5 is about the buffer. -/
def lineStatus (others : UInt8) (p : Port) : UInt8 :=
  (others &&& 0b11011111) ||| (if p.buffer.isNone then 0b00100000 else 0)

inductive Access where
  | out (register : Nat) (value : UInt8)
  | write (c : UInt8)
  deriving DecidableEq, Repr

def serialInitialize : List Access :=
  [.out 1 0,.out 3 0b10000000,.out 0 3,.out 1 0,.out 3 (0b11 ||| 0b100)] ++ (List.range 25).map fun i => .write (UInt8.ofNat (65+i))

structure Reading where
  str : Nat
  accesses : List Access

def printBody (m : Memory) (s : Reading) : Reading ⊕ List Access :=
  let c := m s.str
  if c = 0 then .inr s.accesses else .inl ⟨s.str+1,s.accesses ++ [.write c]⟩

def serialPrint (fuel : Nat) (m : Memory) (str : Nat) : Option (List Access) := loop (printBody m) fuel ⟨str,[]⟩

def serialPrintU32 (fuel dest : Nat) (num : BitVec 32) (base : Nat) (m : Memory) : Option (List Access) := do
  let (buffer,_) ← stringFromU32 fuel dest num base ⟨m,[]⟩
  serialPrint fuel buffer.memory dest

-- string_from_u32 does not return for base 1, and traps for base 0.
inductive Print where
  | text (m : Memory) (str : Nat) (bytes : List UInt8) (terminated : Terminated m str bytes)
  | u32 (m : Memory) (dest : Nat) (num : BitVec 32) (base : Nat) (two : 2 ≤ base) (high : base ≤ 36)

def Print.accesses (fuel : Nat) : Print → Option (List Access)
  | .text m str _ _ => serialPrint fuel m str
  | .u32 m dest num base _ _ => serialPrintU32 fuel dest num base m

def Print.bytes : Print → List UInt8
  | .text _ _ bytes _ => bytes
  | .u32 _ _ num base _ _ => unsignedText base num

def program (fuel : Nat) (prints : List Print) : Option (List Access) := do
  let printed ← prints.mapM (Print.accesses fuel)
  some (serialInitialize ++ printed.flatten)

structure Link where
  left : List Access
  ready : Bool
  port : Port
  deriving DecidableEq, Repr

inductive Event where
  | poll (others : UInt8)
  | out
  | transmit
  deriving DecidableEq, Repr

def next (s : Link) : Event → Option Link
  | .poll others => match s.left with
    | .write _ :: _ => if s.ready then none else some { s with ready := lineStatus others s.port &&& 0b00100000 ≠ 0 }
    | _ => none
  | .out => match s.left with
    | .out register value :: left => some { s with left, port := portOut8 register value s.port }
    | .write c :: left => if s.ready then some ⟨left,false,portOut8 0 c s.port⟩ else none
    | [] => none
  | .transmit => match s.port.buffer with
    | some c => some { s with port := { s.port with buffer := none, sent := s.port.sent ++ [c] } }
    | none => none

def system (program : List Access) (port : Port) : System Link Event := .ofNext ⟨program,false,port⟩ next

/-! What is still to be written, and where writing goes to the buffer. -/

def bytes : List Access → List UInt8
  | [] => []
  | .write c :: left => c :: bytes left
  | .out _ _ :: left => bytes left

def Guarded (s : Settings) : List Access → Prop
  | [] => True
  | .write _ :: left => s.baudRate = false ∧ Guarded s left
  | .out register value :: left => (register = 0 → s.baudRate = true) ∧ Guarded (s.out register value) left

def finalSettings (s : Settings) : List Access → Settings
  | [] => s
  | .write _ :: left => finalSettings s left
  | .out register value :: left => finalSettings (s.out register value) left

structure Sound (total : List UInt8) (final : Settings) (s : Link) : Prop where
  guarded : Guarded s.port.settings s.left
  ready : s.ready = true → s.port.buffer = none ∧ ∃ c left, s.left = .write c :: left
  kept : s.port.lost = []
  conserved : s.port.sent ++ s.port.buffer.toList ++ bytes s.left = total
  settled : finalSettings s.port.settings s.left = final

variable {total : List UInt8} {final : Settings} {s s' : Link}

theorem statusBit (others : UInt8) (p : Port) : lineStatus others p &&& 0b00100000 ≠ 0 ↔ p.buffer = none := by
  have other : others &&& 0b11011111 &&& 0b00100000 = 0 := by
    rw [UInt8.and_assoc]
    exact UInt8.and_zero
  unfold lineStatus
  cases p.buffer with
  | none =>
    have spread (x y z : UInt8) : (x ||| y) &&& z = (x &&& z) ||| (y &&& z) := UInt8.toBitVec_inj.1 BitVec.and_or_distrib_right
    have set : (others &&& 0b11011111 ||| 0b00100000) &&& 0b00100000 ≠ 0 := by
      rw [spread,other]
      decide
    exact iff_of_true set rfl
  | some c =>
    have clear : (others &&& 0b11011111 ||| 0) &&& 0b00100000 = 0 := by rw [UInt8.or_zero,other]
    exact iff_of_false (fun set => set clear) nofun

theorem soundStep (sound : Sound total final s) {e : Event} (step : next s e = some s') : Sound total final s' := by
  obtain ⟨left,ready,port⟩ := s
  obtain ⟨guarded,seen,kept,conserved,settled⟩ := sound
  cases e with
  | poll others =>
    cases left with
    | nil => cases step
    | cons access left =>
      cases access with
      | out register value => cases step
      | write c =>
        cases ready with
        | true => cases step
        | false =>
          cases Option.some.inj step
          exact ⟨guarded,fun seen => ⟨(statusBit others port).mp (of_decide_eq_true seen),c,left,rfl⟩,kept,conserved,settled⟩
  | out =>
    cases left with
    | nil => cases step
    | cons access left =>
      cases access with
      | out register value =>
        cases Option.some.inj step
        obtain ⟨baud,rest⟩ := guarded
        have setting : portOut8 register value port = { port with settings := port.settings.out register value } :=
          if_neg fun ⟨zero,plain⟩ => plain (baud zero)
        rw [setting]
        refine ⟨rest,fun now => ?_,kept,conserved,settled⟩
        obtain ⟨_,_,_,same⟩ := seen now
        cases same
      | write c =>
        cases ready with
        | false => cases step
        | true =>
          cases Option.some.inj step
          obtain ⟨plain,rest⟩ := guarded
          obtain ⟨empty,_⟩ := seen rfl
          have buffered : portOut8 0 c port = { port with buffer := some c, lost := port.lost ++ port.buffer.toList } :=
            if_pos ⟨rfl,by simp [plain]⟩
          rw [buffered]
          refine ⟨rest,nofun,?_,?_,settled⟩
          · rw [kept,empty]
            rfl
          · rw [empty] at conserved
            simpa [bytes] using conserved
  | transmit =>
    obtain ⟨settings,buffer,sent,lost⟩ := port
    cases buffer with
    | none => cases step
    | some c =>
      cases Option.some.inj step
      refine ⟨guarded,fun now => ?_,kept,?_,settled⟩
      · cases (seen now).1
      · simpa using conserved

/-! serial_initialize, and whatever is printed after it. -/

/-- The port sends at 38400 baud, 8 bits and no parity, and without interrupts unless the baud
rate was already being set, where the first write goes to the divisor. -/
def initialized (before : Settings) : Settings := ⟨if before.baudRate then before.interruptEnable else 0,0b111,3,0⟩

def testData : List UInt8 := (List.range 25).map fun i => UInt8.ofNat (65+i)

section
variable {fuel : Nat} {m : Memory} {text : List UInt8}

theorem printLoop {a : Nat} {before : List Access} (str : Terminated m a text) (enough : text.length < fuel) :
    loop (printBody m) fuel ⟨a,before⟩ = some (before ++ text.map .write) := by
  induction text generalizing fuel a before with
  | nil =>
    obtain ⟨fuel,rfl⟩ : ∃ n, fuel = n+1 := ⟨fuel-1,by omega⟩
    have here : m a = 0 := str.stop
    simp [loop,printBody,here]
  | cons c text ih =>
    obtain ⟨fuel,rfl⟩ : ∃ n, fuel = n+1 := ⟨fuel-1,by omega⟩
    obtain ⟨here,nonzero,rest⟩ := terminatedHead str
    have pass : printBody m ⟨a,before⟩ = .inl ⟨a+1,before ++ [.write c]⟩ := by simp only [printBody,here,if_neg nonzero]
    rw [loop,pass]
    refine (ih rest (Nat.lt_of_succ_lt_succ enough)).trans ?_
    rw [List.append_assoc]
    rfl

theorem printReturns (p : Print) : ∃ least, ∀ fuel, least ≤ fuel → p.accesses fuel = some (p.bytes.map .write) := by
  cases p with
  | text m str bytes terminated => exact ⟨bytes.length+1,fun fuel enough => printLoop terminated enough⟩
  | u32 m dest num base two high =>
    refine ⟨33,fun fuel enough => ?_⟩
    obtain ⟨buffer,written,left⟩ := @unsignedLeaves base dest fuel ⟨m,[]⟩ 32 num two (by decide) (by omega)
    have short := unsignedLength two (by decide) num
    have printed := @printLoop fuel _ _ _ [] (leftTerminated left (unsignedProper two high num)) (by omega)
    have written : stringFromU32 fuel dest num base ⟨m,[]⟩ = some (buffer,(unsignedText base num).length) := written
    simp only [Print.accesses,serialPrintU32,written,Option.bind_eq_bind,Option.bind_some]
    exact printed

end

def performed (prints : List Print) : List Access := serialInitialize ++ (prints.flatMap Print.bytes).map .write

theorem printsReturn (prints : List Print) : ∃ least, ∀ fuel, least ≤ fuel →
    prints.mapM (Print.accesses fuel) = some (prints.map fun p => p.bytes.map .write) := by
  induction prints with
  | nil => exact ⟨0,fun _ _ => rfl⟩
  | cons p prints ih =>
    obtain ⟨least,rest⟩ := ih
    obtain ⟨first,here⟩ := printReturns p
    refine ⟨max least first,fun fuel enough => ?_⟩
    rw [List.mapM_cons,here fuel (by omega),rest fuel (by omega)]
    rfl

theorem programReturns (prints : List Print) : ∃ least, ∀ fuel, least ≤ fuel → program fuel prints = some (performed prints) := by
  obtain ⟨least,returns⟩ := printsReturn prints
  refine ⟨least,fun fuel enough => ?_⟩
  unfold program performed
  rw [returns fuel enough,List.map_flatMap,List.flatMap_def]
  rfl

theorem writesBytes (cs : List UInt8) : bytes (cs.map .write) = cs := by
  induction cs with
  | nil => rfl
  | cons c cs ih => exact congrArg (c :: ·) ih

theorem writesGuarded {s : Settings} (plain : s.baudRate = false) (cs : List UInt8) :
    Guarded s (cs.map .write) ∧ finalSettings s (cs.map .write) = s := by
  induction cs with
  | nil => exact ⟨trivial,rfl⟩
  | cons c cs ih => exact ⟨⟨plain,ih.1⟩,ih.2⟩

theorem performedShape (prints : List Print) : performed prints =
    [.out 1 0,.out 3 0b10000000,.out 0 3,.out 1 0,.out 3 (0b11 ||| 0b100)] ++ (testData ++ prints.flatMap Print.bytes).map .write := by
  rw [performed,serialInitialize,List.append_assoc,List.map_append]
  rfl

def baudSetup : List Access := [.out 3 0b10000000,.out 0 3,.out 1 0,.out 3 (0b11 ||| 0b100)]

theorem baudOn {s : Settings} (on : s.lineControl = 0b10000000) : s.baudRate = true := by
  unfold Settings.baudRate
  rw [on]
  decide

theorem baudOff {s : Settings} (off : s.lineControl = 0b111) : s.baudRate = false := by
  unfold Settings.baudRate
  rw [off]
  decide

theorem baudSettings (s : Settings) (cs : List UInt8) :
    Guarded s (baudSetup ++ cs.map .write) ∧ finalSettings s (baudSetup ++ cs.map .write) = ⟨s.interruptEnable,0b111,3,0⟩ := by
  have divisor : (s.out 3 0b10000000).out 0 3 = { s with lineControl := 0b10000000, divisorLow := 3 } := if_pos (baudOn rfl)
  have whole : (((s.out 3 0b10000000).out 0 3).out 1 0).out 3 (0b11 ||| 0b100) = ⟨s.interruptEnable,0b111,3,0⟩ := by
    rw [divisor,Settings.out,if_pos (baudOn rfl)]
    rfl
  obtain ⟨guarded,final⟩ := @writesGuarded ⟨s.interruptEnable,0b111,3,0⟩ (baudOff rfl) cs
  rw [← whole] at guarded final
  exact ⟨⟨nofun,fun _ => baudOn rfl,nofun,nofun,guarded⟩,final.trans whole⟩

theorem initializeSettings (before : Settings) (cs : List UInt8) :
    Guarded before (.out 1 0 :: baudSetup ++ cs.map .write) ∧
      finalSettings before (.out 1 0 :: baudSetup ++ cs.map .write) = initialized before := by
  obtain ⟨guarded,final⟩ := baudSettings (before.out 1 0) cs
  refine ⟨⟨nofun,guarded⟩,final.trans ?_⟩
  unfold initialized Settings.out
  cases before.baudRate <;> rfl

theorem soundStart (prints : List Print) (port : Port) (fresh : port.sent = [] ∧ port.lost = []) :
    Sound (port.buffer.toList ++ (testData ++ prints.flatMap Print.bytes)) (initialized port.settings) ⟨performed prints,false,port⟩ := by
  obtain ⟨guarded,final⟩ := initializeSettings port.settings (testData ++ prints.flatMap Print.bytes)
  have shape : performed prints = .out 1 0 :: baudSetup ++ (testData ++ prints.flatMap Print.bytes).map .write := performedShape prints
  rw [shape]
  refine ⟨guarded,nofun,fresh.2,?_,final⟩
  rw [fresh.1]
  exact congrArg (port.buffer.toList ++ ·) (writesBytes _)

theorem soundRun (prints : List Print) (port : Port) (fresh : port.sent = [] ∧ port.lost = []) {es : List Event} {s : Link}
    (run : (system (performed prints) port).Run es s) :
    Sound (port.buffer.toList ++ (testData ++ prints.flatMap Print.bytes)) (initialized port.settings) s := by
  refine invariant (fun s start => ?_) (fun s e s' sound (step : next s e = some s') => soundStep sound step) run
  obtain rfl : s = ⟨performed prints,false,port⟩ := start
  exact soundStart prints port fresh

structure Delivered (prints : List Print) (port : Port) (s : Link) : Prop where
  kept : s.port.lost = []
  conserved : s.port.sent ++ s.port.buffer.toList ++ bytes s.left = port.buffer.toList ++ (testData ++ prints.flatMap Print.bytes)
  settled : s.left = [] → s.port.settings = initialized port.settings

theorem soundDelivered {prints : List Print} {port : Port} {s : Link}
    (sound : Sound (port.buffer.toList ++ (testData ++ prints.flatMap Print.bytes)) (initialized port.settings) s) : Delivered prints port s := by
  refine ⟨sound.kept,sound.conserved,fun done => ?_⟩
  have settled := sound.settled
  rwa [done] at settled

theorem serialDelivers (prints : List Print) (port : Port) (fresh : port.sent = [] ∧ port.lost = []) :
    ∃ least, ∀ fuel, least ≤ fuel → ∃ accesses, program fuel prints = some accesses ∧
      ∀ es s, (system accesses port).Run es s → Delivered prints port s := by
  obtain ⟨least,returns⟩ := programReturns prints
  exact ⟨least,fun fuel enough => ⟨_,returns fuel enough,fun es s run => soundDelivered (soundRun prints port fresh run)⟩⟩

/-! A run to the end, in which the port transmits every byte at once. -/

theorem writesRun {accesses : List Access} {port : Port} {settings : Settings} {sent : List UInt8} (cs : List UInt8) {es : List Event}
    (plain : settings.baudRate = false) (run : (system accesses port).Run es ⟨cs.map .write,false,⟨settings,none,sent,[]⟩⟩) :
    ∃ es', (system accesses port).Run es' ⟨[],false,⟨settings,none,sent ++ cs,[]⟩⟩ := by
  induction cs generalizing es sent with
  | nil => exact ⟨es,by rwa [List.append_nil]⟩
  | cons c cs ih =>
    have polled : (system accesses port).Run (.poll 0::es) ⟨.write c::cs.map .write,true,⟨settings,none,sent,[]⟩⟩ := by
      have empty := (statusBit 0 ⟨settings,none,sent,[]⟩).mpr rfl
      exact .step run (congrArg (fun ready => some (Link.mk _ ready _)) (decide_eq_true empty))
    have written : (system accesses port).Run (.out::.poll 0::es) ⟨cs.map .write,false,⟨settings,some c,sent,[]⟩⟩ := by
      refine .step polled ?_
      have buffered : portOut8 0 c ⟨settings,none,sent,[]⟩ = ⟨settings,some c,sent,[]⟩ := if_pos ⟨rfl,by simp [plain]⟩
      show some (Link.mk (cs.map .write) false (portOut8 0 c ⟨settings,none,sent,[]⟩)) = _
      rw [buffered]
    have transmitted : (system accesses port).Run (.transmit::.out::.poll 0::es) ⟨cs.map .write,false,⟨settings,none,sent ++ [c],[]⟩⟩ :=
      .step written rfl
    obtain ⟨es',rest⟩ := ih transmitted
    exact ⟨es',by rwa [List.append_assoc] at rest⟩

def resetPort : Port := ⟨⟨0,0,12,0⟩,none,[],[]⟩

theorem initializeRun (left : List Access) : follow next
    ⟨[.out 1 0,.out 3 0b10000000,.out 0 3,.out 1 0,.out 3 (0b11 ||| 0b100)] ++ left,false,resetPort⟩ [.out,.out,.out,.out,.out] =
    some ⟨left,false,⟨⟨0,0b111,3,0⟩,none,[],[]⟩⟩ := by
  have ports : portOut8 3 (0b11 ||| 0b100) (portOut8 1 0 (portOut8 0 3 (portOut8 3 0b10000000 (portOut8 1 0 resetPort)))) =
    ⟨⟨0,0b111,3,0⟩,none,[],[]⟩ := by decide
  rw [← ports]
  rfl

theorem completeRun (prints : List Print) : ∃ es s, (system (performed prints) resetPort).Run es s ∧
    s.left = [] ∧ s.port.sent = testData ++ prints.flatMap Print.bytes := by
  have first : (system (performed prints) resetPort).Run [] ⟨performed prints,false,resetPort⟩ := .start rfl
  have path := initializeRun ((testData ++ prints.flatMap Print.bytes).map .write)
  rw [← performedShape] at path
  have setUp := followRun (S := system (performed prints) resetPort) (fun _ _ _ step => step) first path
  obtain ⟨es,run⟩ := writesRun _ (by decide) setUp
  exact ⟨es,_,run,rfl,rfl⟩

def hiMemory : Memory := fun a => if a = 0x1000 then 72 else if a = 0x1001 then 105 else 0

theorem hiTerminated : Terminated hiMemory 0x1000 [72,105] := ⟨rfl,by simp,rfl⟩

def hiPrints : List Print := [.text hiMemory 0x1000 [72,105] hiTerminated,.u32 hiMemory 0x2000 5 10 (by decide) (by decide)]

theorem serialDeliversHi : ∃ fuel accesses, program fuel hiPrints = some accesses ∧ ∃ es s, (system accesses resetPort).Run es s ∧
    (s.left = [] ∧ s.port.sent = testData ++ hiPrints.flatMap Print.bytes) ∧ Delivered hiPrints resetPort s := by
  obtain ⟨least,delivers⟩ := serialDelivers hiPrints resetPort ⟨rfl,rfl⟩
  obtain ⟨least',returns⟩ := programReturns hiPrints
  obtain ⟨accesses,performs,delivered⟩ := delivers (max least least') (by omega)
  obtain ⟨es,s,run,complete⟩ := completeRun hiPrints
  cases Option.some.inj (performs.symm.trans (returns _ (by omega)))
  exact ⟨_,_,performs,es,s,run,complete,delivered es s run⟩

theorem outSent (register : Nat) (value : UInt8) (p : Port) : (portOut8 register value p).sent = p.sent := by
  unfold portOut8
  split <;> rfl

theorem stepCounts {s s' : Link} {e : Event} (step : next s e = some s') :
    (if e = .out then 1 else 0) + s'.left.length = s.left.length ∧
      s'.port.sent.length = s.port.sent.length + if e = .transmit then 1 else 0 := by
  obtain ⟨left,ready,port⟩ := s
  cases e with
  | poll others =>
    cases left with
    | nil => cases step
    | cons access left =>
      cases access with
      | out register value => cases step
      | write c =>
        cases ready with
        | true => cases step
        | false =>
          cases Option.some.inj step
          exact ⟨Nat.zero_add _,rfl⟩
  | out =>
    cases left with
    | nil => cases step
    | cons access left =>
      cases access with
      | out register value =>
        cases Option.some.inj step
        exact ⟨Nat.add_comm 1 _,congrArg List.length (outSent ..)⟩
      | write c =>
        cases ready with
        | false => cases step
        | true =>
          cases Option.some.inj step
          exact ⟨Nat.add_comm 1 _,congrArg List.length (outSent ..)⟩
  | transmit =>
    obtain ⟨settings,buffer,sent,lost⟩ := port
    cases buffer with
    | none => cases step
    | some c =>
      cases Option.some.inj step
      exact ⟨Nat.zero_add _,List.length_append⟩

theorem runCounts {program : List Access} {port : Port} (fresh : port.sent = []) {es : List Event} {s : Link}
    (run : (system program port).Run es s) :
    es.countP (· = .out) + s.left.length = program.length ∧ es.countP (· = .transmit) = s.port.sent.length := by
  induction run with
  | start first =>
    obtain rfl : _ = (⟨program,false,port⟩ : Link) := first
    exact ⟨Nat.zero_add _,by rw [fresh]; rfl⟩
  | @step es e s s' before move ih =>
    obtain ⟨outs,transmits⟩ := stepCounts (show next s e = some s' from move)
    rw [List.countP_cons,List.countP_cons]
    simp only [decide_eq_true_eq]
    omega

structure GoesOn (accesses : List Access) (prints : List Print) (port : Port) (es : List Event) (s : Link) : Prop where
  writes : es.countP (· = .out) ≤ accesses.length
  transmits : es.countP (· = .transmit) ≤ (port.buffer.toList ++ (testData ++ prints.flatMap Print.bytes)).length
  moves : (s.left = [] ∧ s.port.buffer = none) ∨ (next s .transmit).isSome ∨ (next s .out).isSome ∨
    ∀ others, ∃ s', next s (.poll others) = some s' ∧ (next s' .out).isSome

theorem serialMoves (s : Link) : (s.left = [] ∧ s.port.buffer = none) ∨ (next s .transmit).isSome ∨ (next s .out).isSome ∨
    ∀ others, ∃ s', next s (.poll others) = some s' ∧ (next s' .out).isSome := by
  obtain ⟨left,ready,settings,buffer,sent,lost⟩ := s
  cases buffer with
  | some c => exact Or.inr (Or.inl rfl)
  | none =>
    cases left with
    | nil => exact Or.inl ⟨rfl,rfl⟩
    | cons access left =>
      cases access with
      | out register value => exact Or.inr (Or.inr (Or.inl rfl))
      | write c =>
        cases ready with
        | true => exact Or.inr (Or.inr (Or.inl rfl))
        | false =>
          refine Or.inr (Or.inr (Or.inr fun others => ⟨_,rfl,?_⟩))
          have empty := (statusBit others ⟨settings,none,sent,lost⟩).mpr rfl
          unfold next
          simp only [decide_eq_true empty,if_true]
          rfl

theorem serialGoesOn (prints : List Print) (port : Port) (fresh : port.sent = [] ∧ port.lost = []) :
    ∃ least, ∀ fuel, least ≤ fuel → ∃ accesses, program fuel prints = some accesses ∧
      ∀ es s, (system accesses port).Run es s → GoesOn accesses prints port es s := by
  obtain ⟨least,returns⟩ := programReturns prints
  refine ⟨least,fun fuel enough => ⟨_,returns fuel enough,fun es s run => ?_⟩⟩
  obtain ⟨outs,transmits⟩ := runCounts fresh.1 run
  have total := congrArg List.length (soundRun prints port fresh run).conserved
  rw [List.length_append,List.length_append] at total
  exact ⟨by omega,by omega,serialMoves s⟩

theorem serialGoesOnHi : ∃ fuel accesses, program fuel hiPrints = some accesses ∧ ∃ es s, (system accesses resetPort).Run es s ∧
    (s.left = [] ∧ s.port.sent = testData ++ hiPrints.flatMap Print.bytes) ∧ GoesOn accesses hiPrints resetPort es s := by
  obtain ⟨least,goesOn⟩ := serialGoesOn hiPrints resetPort ⟨rfl,rfl⟩
  obtain ⟨least',returns⟩ := programReturns hiPrints
  obtain ⟨accesses,performs,onward⟩ := goesOn (max least least') (by omega)
  obtain ⟨es,s,run,complete⟩ := completeRun hiPrints
  cases Option.some.inj (performs.symm.trans (returns _ (by omega)))
  exact ⟨_,_,performs,es,s,run,complete,onward es s run⟩

end Kokos.Serial

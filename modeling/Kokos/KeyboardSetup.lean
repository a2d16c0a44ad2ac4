import Kokos.KeyboardInterrupts
import Kokos.InterruptDelivery
import Kokos.Apic

/-! keyboard_initialize: the conversation with the ps/2 controller, after which the keyboard's
interrupt has a gate and an entry of the I/O APIC. -/
namespace Kokos.KeyboardSetup
open Keyboard WhileLoops Interrupts Apic

def keyboardCommandRegister : Nat := 0x64

def keyboardWriteCommand (fuel : Nat) (command : UInt8) (p : Ports) : Option Ports := do
  let p ← loop (waitBody fun status => status &&& keyboardInputBufferFull = 0) fuel p
  some (Keyboard.portOut8 keyboardCommandRegister command p)

structure Setup (σ : Type) where
  ports : Ports
  machine : Machine σ
  ioapic : IoApic

variable {σ : Type}

def Setup.print (s : Setup σ) (text : String) : Setup σ := { s with machine := s.machine.print [.print text] }

/-- The handler's address and the id register of the local APIC come from outside. -/
def keyboardInitialize (fuel : Nat) (writable : BitVec 8 → BitVec 32) (handler localApicId : Nat) (s : Setup σ) :
    Option (Setup σ) := do
  let s := s.print "testing keyboard\n"
  let ports ← keyboardWriteCommand fuel 0xAA s.ports
  let (result,ports) ← keyboardReadData fuel ports
  let s := { s with ports }
  if result ≠ 0x55 then some (s.print "keyboard test FAILED!\n")
  else do
    let s := s.print "keyboard test OK!\n"
    let ports ← keyboardWriteCommand fuel 0x60 s.ports
    let ports ← keyboardWriteData fuel 0b00000111 ports
    let ports ← keyboardWriteCommand fuel 0xAE ports
    let ports ← keyboardWriteCommand fuel 0xA8 ports
    let ports ← keyboardWriteData fuel 0xFF ports
    let (_,ports) ← keyboardReadData fuel ports
    let (_,ports) ← keyboardReadData fuel ports
    let ports ← keyboardWriteData fuel 0xF0 ports
    let (_,ports) ← keyboardReadData fuel ports
    let ports ← keyboardWriteData fuel 2 ports
    let (_,ports) ← keyboardReadData fuel ports
    let s := { s with ports }.print "registering interrupt\n"
    let s := { s with machine := cpuOperate s.machine (.register (0x23 : UInt8).toFin handler gateTypeTrap 0) }
    let entry : IoApicEntry := { blankEntry with vector := 0x23, destination := (localApicId >>> 24) &&& 0b11111111 }
    let s := { s with ioapic := apicIoRegister writable 1 entry s.ioapic }
    some (s.print "keyboard configuration done\n")

/-! Conversations. -/

inductive Exchange where
  | command (byte : UInt8)
  | data (byte : UInt8)
  | read (byte : UInt8)

def Exchange.access : Exchange → PortAccess
  | .command byte => .portOut keyboardCommandRegister byte
  | .data byte => .portOut keyboardDataRegister byte
  | .read byte => .portIn keyboardDataRegister byte

def Exchange.ready : Exchange → UInt8 → Bool
  | .read _, status => status &&& keyboardOutputBufferFull ≠ 0
  | _, status => status &&& keyboardInputBufferFull = 0

def Polite (e : Exchange) (accesses : List PortAccess) : Prop := ∃ polls status,
  (∀ a ∈ polls, ∃ busy, a = .portIn keyboardStatusRegister busy ∧ e.ready busy = false) ∧ e.ready status = true ∧
    accesses = polls ++ [.portIn keyboardStatusRegister status,e.access]

inductive Conversation : List Exchange → List PortAccess → Prop where
  | nil : Conversation [] []
  | cons {e es first rest} (polite : Polite e first) (later : Conversation es rest) : Conversation (e::es) (first ++ rest)

structure Talked (p : Ports) (es : List Exchange) (p' : Ports) : Prop where
  lively : Lively p'
  accesses : ∃ log, p'.accesses = log.reverse ++ p.accesses ∧ Conversation es log

variable {p p' p'' : Ports} {ready : UInt8 → Bool}

theorem waitLog (ends : Ends (waitBody ready) p p') : ∃ polls status,
    (∀ a ∈ polls, ∃ busy, a = .portIn keyboardStatusRegister busy ∧ ready busy = false) ∧ ready status = true ∧
      p'.accesses = (polls ++ [.portIn keyboardStatusRegister status]).reverse ++ p.accesses := by
  induction ends with
  | @leave p p' here =>
    unfold waitBody at here
    by_cases now : ready (p.answers 0) = true
    · refine ⟨[],p.answers 0,by simp,now,?_⟩
      rw [← Sum.inr.inj ((if_pos now).symm.trans here)]
      rfl
    · cases (if_neg now).symm.trans here
  | @goOn p q p' here rest ih =>
    unfold waitBody at here
    by_cases now : ready (p.answers 0) = true
    · cases (if_pos now).symm.trans here
    · obtain ⟨polls,status,busy,last,log⟩ := ih
      have next := Sum.inl.inj ((if_neg now).symm.trans here)
      refine ⟨.portIn keyboardStatusRegister (p.answers 0) :: polls,status,?_,last,?_⟩
      · exact List.forall_mem_cons.mpr ⟨⟨_,rfl,Bool.eq_false_iff.mpr now⟩,busy⟩
      · rw [log,← next]
        simp

def Returns {α : Type} (call : Nat → Option α) (a : α) : Prop := ∃ least, ∀ fuel, least ≤ fuel → call fuel = some a

theorem returnsBind {α β : Type} {call : Nat → Option α} {next : Nat → α → Option β} {a : α} {b : β} (first : Returns call a)
    (then_ : Returns (fun fuel => next fuel a) b) : Returns (fun fuel => (call fuel).bind (next fuel)) b := by
  obtain ⟨least,returns⟩ := first
  obtain ⟨least',later⟩ := then_
  refine ⟨max least least',fun fuel enough => ?_⟩
  have here := returns fuel (by omega)
  simp only [here,Option.bind_some]
  exact later fuel (by omega)

theorem waitTalks (e : Exchange) (comes : ∃ i, e.ready (p.answers i) = true) (lively : Lively p) :
    ∃ p', Returns (fun fuel => loop (waitBody e.ready) fuel p) p' ∧ Lively p' ∧
      ∀ p'', p''.accesses = e.access :: p'.accesses → Lively p'' → Talked p [e] p'' := by
  obtain ⟨i,comes⟩ := comes
  obtain ⟨p',ends,later⟩ := waitEnds comes
  obtain ⟨polls,status,busy,last,log⟩ := waitLog ends
  refine ⟨p',loopOfEnds ends,livelyLater lively later,fun p'' access still => ⟨still,_,?_,.cons ⟨polls,status,busy,last,rfl⟩ .nil⟩⟩
  rw [access,log]
  simp

theorem writeTalks (e : Exchange) {register : Nat} {byte : UInt8} (access : e.access = .portOut register byte)
    (ready : e.ready = fun status => decide (status &&& keyboardInputBufferFull = 0)) (lively : Lively p) :
    ∃ p', Returns (fun fuel => (loop (waitBody e.ready) fuel p).bind fun p => some (Keyboard.portOut8 register byte p)) p' ∧
      Talked p [e] p' := by
  obtain ⟨⟨i,empty⟩,_⟩ := lively 0
  rw [Nat.zero_add] at empty
  obtain ⟨p',returns,still,talked⟩ := waitTalks e ⟨i,by rw [ready]; exact decide_eq_true empty⟩ lively
  refine ⟨_,returnsBind returns ⟨0,fun _ _ => rfl⟩,talked (Keyboard.portOut8 register byte p') ?_ still⟩
  rw [access]
  rfl

theorem readTalks (lively : Lively p) :
    ∃ byte p', Returns (fun fuel => keyboardReadData fuel p) (byte,p') ∧ Talked p [.read byte] p' := by
  obtain ⟨_,i,full⟩ := lively 0
  rw [Nat.zero_add] at full
  -- the byte that is read does not matter to the wait
  obtain ⟨p',returns,still,_⟩ := waitTalks (.read 0) ⟨i,decide_eq_true full⟩ lively
  obtain ⟨p1,returns1,_,talked⟩ := waitTalks (.read (p'.answers 0)) ⟨i,decide_eq_true full⟩ lively
  obtain rfl : p' = p1 := by
    obtain ⟨least,done⟩ := returns
    obtain ⟨least1,done1⟩ := returns1
    exact Option.some.inj ((done _ (Nat.le_max_left least least1)).symm.trans (done1 _ (Nat.le_max_right least least1)))
  exact ⟨p'.answers 0,_,returnsBind returns ⟨0,fun _ _ => rfl⟩,
    talked (portIn8 keyboardDataRegister p').2 rfl (livelyLater still (laterRead _ p'))⟩

theorem conversationAppend {es es' : List Exchange} {log log' : List PortAccess} (first : Conversation es log) (later : Conversation es' log') :
    Conversation (es ++ es') (log ++ log') := by
  induction first with
  | nil => exact later
  | cons polite _ ih =>
    rw [List.append_assoc]
    exact .cons polite ih

theorem talkedTrans {es es' : List Exchange} (first : Talked p es p') (later : Talked p' es' p'') : Talked p (es ++ es') p'' := by
  obtain ⟨log,accesses,talk⟩ := first.accesses
  obtain ⟨log',accesses',talk'⟩ := later.accesses
  refine ⟨later.lively,log ++ log',?_,conversationAppend talk talk'⟩
  rw [accesses',accesses,List.reverse_append,List.append_assoc]

/-! The whole set-up. -/

def setUp (reset passed acknowledged chosen : UInt8) : List Exchange :=
  [.command 0xAA,.read 0x55,.command 0x60,.data 0b111,.command 0xAE,.command 0xA8,.data 0xFF,.read reset,.read passed,.data 0xF0,
    .read acknowledged,.data 2,.read chosen]

def keyboardEntryOf (localApicId : Nat) : IoApicEntry :=
  { blankEntry with vector := 0x23, destination := (localApicId >>> 24) &&& 0b11111111 }

def failedPrints : List ConsoleCall := [.print "testing keyboard\n",.print "keyboard test FAILED!\n"]
def passedPrints : List ConsoleCall := [.print "testing keyboard\n",.print "keyboard test OK!\n",.print "registering interrupt\n"]

theorem printTwice (m : Machine σ) (first second : List ConsoleCall) : (m.print first).print second = m.print (first ++ second) := by
  unfold Machine.print
  rw [List.append_assoc]

theorem keyboardInitialized (writable : BitVec 8 → BitVec 32) (handler localApicId : Nat) (s : Setup σ) (lively : Lively s.ports) :
    ∃ s', Returns (fun fuel => keyboardInitialize fuel writable handler localApicId s) s' ∧
      ((∃ result, result ≠ 0x55 ∧ Talked s.ports [.command 0xAA,.read result] s'.ports ∧
          s'.machine = s.machine.print failedPrints ∧ s'.ioapic = s.ioapic) ∨
        ∃ a b c d, Talked s.ports (setUp a b c d) s'.ports ∧
          s'.machine = (cpuOperate (s.machine.print passedPrints) (.register 0x23 handler gateTypeTrap 0)).print
            [.print "keyboard configuration done\n"] ∧
          s'.ioapic = apicIoRegister writable 1 (keyboardEntryOf localApicId) s.ioapic) := by
  obtain ⟨p1,command1,talk1⟩ := writeTalks (.command 0xAA) rfl rfl lively
  obtain ⟨result,p2,read2,talk2⟩ := readTalks talk1.lively
  have test := talkedTrans talk1 talk2
  by_cases passed : result = 0x55
  · subst passed
    obtain ⟨p3,command3,talk3⟩ := writeTalks (.command 0x60) rfl rfl talk2.lively
    obtain ⟨p4,data4,talk4⟩ := writeTalks (.data 0b111) rfl rfl talk3.lively
    obtain ⟨p5,command5,talk5⟩ := writeTalks (.command 0xAE) rfl rfl talk4.lively
    obtain ⟨p6,command6,talk6⟩ := writeTalks (.command 0xA8) rfl rfl talk5.lively
    obtain ⟨p7,data7,talk7⟩ := writeTalks (.data 0xFF) rfl rfl talk6.lively
    obtain ⟨a,p8,read8,talk8⟩ := readTalks talk7.lively
    obtain ⟨b,p9,read9,talk9⟩ := readTalks talk8.lively
    obtain ⟨p10,data10,talk10⟩ := writeTalks (.data 0xF0) rfl rfl talk9.lively
    obtain ⟨c,p11,read11,talk11⟩ := readTalks talk10.lively
    obtain ⟨p12,data12,talk12⟩ := writeTalks (.data 2) rfl rfl talk11.lively
    obtain ⟨d,p13,read13,talk13⟩ := readTalks talk12.lively
    have rest := talkedTrans talk3 (talkedTrans talk4 (talkedTrans talk5 (talkedTrans talk6 (talkedTrans talk7 (talkedTrans talk8
      (talkedTrans talk9 (talkedTrans talk10 (talkedTrans talk11 (talkedTrans talk12 talk13)))))))))
    refine ⟨_,returnsBind command1 (returnsBind read2 (returnsBind command3 (returnsBind data4 (returnsBind command5
      (returnsBind command6 (returnsBind data7 (returnsBind read8 (returnsBind read9 (returnsBind data10 (returnsBind read11
      (returnsBind data12 (returnsBind read13 ⟨0,fun _ _ => rfl⟩)))))))))))),Or.inr ⟨a,b,c,d,talkedTrans test rest,?_,rfl⟩⟩
    have prints : ((s.machine.print [.print "testing keyboard\n"]).print [.print "keyboard test OK!\n"]).print
        [.print "registering interrupt\n"] = s.machine.print passedPrints := by
      rw [printTwice,printTwice]
      rfl
    rw [← prints]
    rfl
  · refine ⟨_,returnsBind command1 (returnsBind read2 ⟨0,fun _ _ => if_pos passed⟩),Or.inl ⟨result,passed,test,?_,rfl⟩⟩
    exact printTwice s.machine [.print "testing keyboard\n"] [.print "keyboard test FAILED!\n"]

def passingKeyboard : Setup Unit :=
  ⟨⟨fun n => if n = 2 then 0x55 else 1,[]⟩,⟨fun _ => 0,[],(),0,0,0,0,0,0,0,0⟩,⟨0,fun _ => 0⟩⟩

theorem passingLively : Lively passingKeyboard.ports := by
  have bits : ∀ n, passingKeyboard.ports.answers n &&& keyboardInputBufferFull = 0 ∧
      passingKeyboard.ports.answers n &&& keyboardOutputBufferFull ≠ 0 := by
    intro n
    by_cases third : n = 2
    · subst third
      decide
    · have one : passingKeyboard.ports.answers n = 1 := if_neg third
      rw [one]
      decide
  exact fun n => ⟨⟨0,(bits n).1⟩,0,(bits n).2⟩

theorem keyboardInitializedPassing : Lively passingKeyboard.ports ∧
    ∃ s', Returns (fun fuel => keyboardInitialize fuel (fun _ => 0xFFFEAFFF) 0x100000 (3 <<< 24) passingKeyboard) s' ∧
      ((∃ result, result ≠ 0x55 ∧ Talked passingKeyboard.ports [.command 0xAA,.read result] s'.ports ∧
          s'.machine = passingKeyboard.machine.print failedPrints ∧ s'.ioapic = passingKeyboard.ioapic) ∨
        ∃ a b c d, Talked passingKeyboard.ports (setUp a b c d) s'.ports ∧
          s'.machine = (cpuOperate (passingKeyboard.machine.print passedPrints) (.register 0x23 0x100000 gateTypeTrap 0)).print
            [.print "keyboard configuration done\n"] ∧
          s'.ioapic = apicIoRegister (fun _ => 0xFFFEAFFF) 1 (keyboardEntryOf (3 <<< 24)) passingKeyboard.ioapic) :=
  ⟨passingLively,keyboardInitialized (fun _ => 0xFFFEAFFF) 0x100000 (3 <<< 24) passingKeyboard passingLively⟩

end Kokos.KeyboardSetup

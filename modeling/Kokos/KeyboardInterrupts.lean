import Kokos.Keyboard

/-! One interrupt of the keyboard: what it does to the flags, and that the handler returns. -/
namespace Kokos.Keyboard
open ByteMemory ByteStrings Console ConsolePrints WhileLoops

structure Flags where
  releasing : Bool
  shift : Bool
  extended : Bool

def flagsOf (s : Handler) : Flags := ⟨s.releasing,s.shift,s.extended⟩

def announces (input : UInt8) : Bool := input = 0xF0 || input = 0xE0 || input = 0xE1 || input = 0xE2

theorem announcesIff {input : UInt8} : announces input = true ↔ input = 0xF0 ∨ input = 0xE0 ∨ input = 0xE1 ∨ input = 0xE2 := by
  simp only [announces,Bool.or_eq_true,decide_eq_true_eq,or_assoc]

def flagsAfter (f : Flags) (input : UInt8) : Flags :=
  if input = 0xF0 then { f with releasing := true }
  else if announces input then { f with extended := true }
  else ⟨false,if isShift input then !f.releasing else f.shift,false⟩

section
variable {s s' : Handler} {fuel dest : Nat} {stack : Memory} {input : UInt8}

theorem capsLockFlags (pressed : pressCapsLock fuel s = some s') : flagsOf s' = flagsOf s := by
  unfold pressCapsLock at pressed
  simp only [Option.bind_eq_bind,Option.bind_eq_some_iff] at pressed
  obtain ⟨_,_,_,_,_,_,_,_,result⟩ := pressed
  rw [← Option.some.inj result]
  rfl

theorem pressFlags (pressed : press fuel dest stack input s = some s') :
    flagsOf s' = if isShift input then { flagsOf s with shift := true } else flagsOf s := by
  unfold press at pressed
  obtain ⟨console,_,pressed⟩ := Option.bind_eq_some_iff.mp pressed
  dsimp only at pressed
  split at pressed
  · rename_i shift
    rw [if_pos shift,← Option.some.inj pressed]
    rfl
  · rename_i other
    rw [if_neg other]
    split at pressed
    · rw [← Option.some.inj pressed]
      rfl
    · split at pressed
      · rw [← Option.some.inj pressed]
        rfl
      · split at pressed
        · rw [capsLockFlags pressed]
          rfl
        · rw [← Option.some.inj pressed]
          rfl

def received (s : Handler) : Handler := { s with ports := (portIn8 keyboardDataRegister s.ports).2 }

def ended (s : Handler) : Handler := { s with interruptsEnded := s.interruptsEnded+1 }

theorem interruptBranches (byte : s.ports.answers 0 = input) : interruptHandleKeyboard fuel dest stack s =
    if input = 0xF0 then some (ended { received s with releasing := true })
    else if announces input then some (ended { received s with extended := true })
    else if s.releasing then some (ended { release input (received s) with extended := false })
    else (press fuel dest stack input (received s)).map fun t => ended { t with extended := false } := by
  subst byte
  unfold interruptHandleKeyboard
  dsimp only [portIn8]
  by_cases isBreak : s.ports.answers 0 = 0xF0
  · rw [if_pos isBreak,if_pos isBreak]
    rfl
  · rw [if_neg isBreak,if_neg isBreak]
    by_cases extended : s.ports.answers 0 = 0xE0 ∨ s.ports.answers 0 = 0xE1 ∨ s.ports.answers 0 = 0xE2
    · rw [if_pos extended,if_pos (announcesIff.mpr (Or.inr extended))]
      rfl
    · have plain : ¬ announces (s.ports.answers 0) = true := fun announced => (announcesIff.mp announced).elim isBreak extended
      rw [if_neg extended,if_neg plain]
      by_cases releasing : s.releasing = true
      · rw [if_pos releasing,if_pos releasing]
        rfl
      · rw [if_neg releasing,if_neg releasing]
        exact Option.map_eq_bind.symm

theorem interruptFlags (handled : interruptHandleKeyboard fuel dest stack s = some s') :
    flagsOf s' = flagsAfter (flagsOf s) (s.ports.answers 0) := by
  rw [interruptBranches rfl] at handled
  unfold flagsAfter
  split at handled
  · rename_i isBreak
    rw [if_pos isBreak,← Option.some.inj handled]
    rfl
  · rename_i notBreak
    rw [if_neg notBreak]
    split at handled
    · rename_i extended
      rw [if_pos extended,← Option.some.inj handled]
      rfl
    · rename_i plain
      rw [if_neg plain]
      split at handled
      · rename_i releasing
        rw [← Option.some.inj handled]
        simp only [flagsOf,ended,release,received,releasing,Bool.not_true]
      · rename_i down
        obtain ⟨t,pressed,done⟩ := Option.map_eq_some_iff.mp handled
        have flags := pressFlags pressed
        have up : (flagsOf s).releasing = false := Bool.eq_false_iff.mpr down
        have shift : t.shift = if isShift (s.ports.answers 0) then true else s.shift := by
          rw [show t.shift = (flagsOf t).shift from rfl,flags]
          split
          · rfl
          · rfl
        have still : t.releasing = false := by
          rw [show t.releasing = (flagsOf t).releasing from rfl,flags]
          split
          · exact up
          · exact up
        rw [← done,up]
        simp only [flagsOf,ended,still,shift,Bool.not_false]

end

/-! The handler returns if the controller gets ready again and again. -/

def Lively (p : Ports) : Prop := ∀ n, (∃ i, p.answers (n+i) &&& keyboardInputBufferFull = 0) ∧
  ∃ i, p.answers (n+i) &&& keyboardOutputBufferFull ≠ 0

def Later (p p' : Ports) : Prop := ∃ n, ∀ i, p'.answers i = p.answers (n+i)

section
variable {p p' : Ports} {ready : UInt8 → Bool}

theorem livelyLater (lively : Lively p) (later : Later p p') : Lively p' := by
  obtain ⟨n,same⟩ := later
  intro m
  obtain ⟨⟨i,empty⟩,j,full⟩ := lively (n+m)
  refine ⟨⟨i,?_⟩,j,?_⟩
  · rw [same,← Nat.add_assoc]
    exact empty
  · rw [same,← Nat.add_assoc]
    exact full

theorem laterRead (port : Nat) (p : Ports) : Later p (portIn8 port p).2 := ⟨1,fun i => congrArg p.answers (Nat.add_comm i 1)⟩

theorem laterTrans {p'' : Ports} (first : Later p p') (second : Later p' p'') : Later p p'' := by
  obtain ⟨n,same⟩ := first
  obtain ⟨m,same'⟩ := second
  exact ⟨n+m,fun i => by rw [same',same,Nat.add_assoc]⟩

theorem waitEnds {i : Nat} (comes : ready (p.answers i) = true) : ∃ p', Ends (waitBody ready) p p' ∧ Later p p' := by
  induction i generalizing p with
  | zero =>
    refine ⟨(portIn8 keyboardStatusRegister p).2,.leave ?_,laterRead _ p⟩
    exact if_pos comes
  | succ i ih =>
    by_cases now : ready (p.answers 0) = true
    · exact ⟨_,.leave (if_pos now),laterRead keyboardStatusRegister p⟩
    · obtain ⟨p',ends,later⟩ := @ih (portIn8 keyboardStatusRegister p).2 comes
      exact ⟨p',.goOn (if_neg now) ends,laterTrans (laterRead _ p) later⟩

theorem writeReturns (lively : Lively p) (data : UInt8) :
    ∃ p', Lively p' ∧ ∃ least, ∀ fuel, least ≤ fuel → keyboardWriteData fuel data p = some p' := by
  obtain ⟨⟨i,empty⟩,_⟩ := lively 0
  rw [Nat.zero_add] at empty
  obtain ⟨p',ends,later⟩ := @waitEnds p (fun status => status &&& keyboardInputBufferFull = 0) i (decide_eq_true empty)
  obtain ⟨least,done⟩ := loopOfEnds ends
  refine ⟨portOut8 keyboardDataRegister data p',livelyLater lively later,least,fun fuel enough => ?_⟩
  unfold keyboardWriteData
  rw [done fuel enough]
  rfl

theorem readReturns (lively : Lively p) :
    ∃ data p', Lively p' ∧ ∃ least, ∀ fuel, least ≤ fuel → keyboardReadData fuel p = some (data,p') := by
  obtain ⟨_,i,full⟩ := lively 0
  rw [Nat.zero_add] at full
  obtain ⟨p',ends,later⟩ := @waitEnds p (fun status => status &&& keyboardOutputBufferFull ≠ 0) i (decide_eq_true full)
  obtain ⟨least,done⟩ := loopOfEnds ends
  refine ⟨p'.answers 0,_,livelyLater lively (laterTrans later (laterRead keyboardDataRegister p')),least,fun fuel enough => ?_⟩
  unfold keyboardReadData
  rw [done fuel enough]
  rfl

theorem capsLockReturns (lively : Lively p) (capsLock : Bool) : ∃ least, ∀ fuel, least ≤ fuel →
    ∀ s : Handler, s.ports = p → s.capsLock = capsLock → ∃ s', pressCapsLock fuel s = some s' := by
  obtain ⟨p1,lively1,least1,write1⟩ := writeReturns lively 0xED
  obtain ⟨_,p2,lively2,least2,read2⟩ := readReturns lively1
  obtain ⟨p3,lively3,least3,write3⟩ := writeReturns lively2 (if !capsLock then 4 else 0)
  obtain ⟨_,p4,_,least4,read4⟩ := readReturns lively3
  refine ⟨max (max least1 least2) (max least3 least4),fun fuel enough s ports caps => ?_⟩
  unfold pressCapsLock
  simp only [ports,caps,write1 fuel (by omega),read2 fuel (by omega),write3 fuel (by omega),read4 fuel (by omega),
    Option.bind_eq_bind,Option.bind_some]
  exact ⟨_,rfl⟩

theorem printKeyReturns {fuel : Nat} (enough : 32 < fuel) (dest : Nat) (stack : Memory) (input : UInt8) (s : State) :
    ∃ t, printKey fuel dest stack input s = some t := by
  unfold printKey
  dsimp only
  obtain ⟨r,returns,_⟩ := @unsignedPrints fuel dest 16 stack (consolePrint (chars "key=0x") (consoleSetCursor 70 0 s)) 32
    (BitVec.ofNat 32 input.toNat) (by decide) (by decide) (by decide) enough
  unfold consolePrintU32
  rw [returns]
  exact ⟨_,rfl⟩

theorem interruptReturns {s : Handler} (lively : Lively s.ports) : ∃ least, ∀ fuel, least ≤ fuel → ∀ dest stack,
    ∃ s', interruptHandleKeyboard fuel dest stack s = some s' := by
  obtain ⟨least,caps⟩ := capsLockReturns (livelyLater lively (laterRead keyboardDataRegister s.ports)) s.capsLock
  refine ⟨max least 33,fun fuel enough dest stack => ?_⟩
  have pressed : ∃ t, press fuel dest stack (s.ports.answers 0) (received s) = some t := by
    obtain ⟨console,shown⟩ := printKeyReturns (show 32 < fuel by omega) dest stack (s.ports.answers 0) (received s).console
    unfold press
    simp only [shown,Option.bind_eq_bind,Option.bind_some]
    split
    · exact ⟨_,rfl⟩
    · split
      · exact ⟨_,rfl⟩
      · split
        · exact ⟨_,rfl⟩
        · split
          · exact caps fuel (by omega) _ rfl rfl
          · exact ⟨_,rfl⟩
  obtain ⟨t,pressed⟩ := pressed
  rw [interruptBranches rfl]
  split
  · exact ⟨_,rfl⟩
  · split
    · exact ⟨_,rfl⟩
    · split
      · exact ⟨_,rfl⟩
      · rw [pressed]
        exact ⟨_,rfl⟩
end

end Kokos.Keyboard

import Kokos.FueledChecks
import Kokos.KeyboardShift

/-! What a run of keystrokes does to the console: the handler takes bytes, the reader below keeps
what the handler keeps between them, and the typist knows keys only. -/
namespace Kokos.Keyboard
open ByteMemory ByteStrings Console ConsolePrints Strings WhileLoops FueledChecks

def showKey (input : UInt8) (s : State) : State :=
  consoleSetCursor (consoleGetCursor s).1 (consoleGetCursor s).2
    (consolePrint (unsignedText 16 (BitVec.ofNat 32 input.toNat)) (consolePrint (chars "key=0x") (consoleSetCursor 70 0 s)))

def showCapsLock (on : Bool) (s : State) : State :=
  consoleSetCursor (consoleGetCursor s).1 (consoleGetCursor s).2
    (consolePrint (chars (if on then "CAPSLOCK" else "        ")) (consoleSetCursor 70 1 s))

structure Typed where
  shift : Bool
  capsLock : Bool
  console : State

def typeKey (extended : Bool) (code : UInt8) (t : Typed) : Typed :=
  let console := showKey code t.console
  if isShift code then ⟨true,t.capsLock,console⟩
  else if extended ∧ code = 0x75 then ⟨t.shift,t.capsLock,consoleScroll (-1) console⟩
  else if extended ∧ code = 0x72 then ⟨t.shift,t.capsLock,consoleScroll 1 console⟩
  else if code = 0x58 then ⟨t.shift,!t.capsLock,showCapsLock (!t.capsLock) console⟩
  else ⟨t.shift,t.capsLock,pressKey t.shift t.capsLock code console⟩

def liftKey (code : UInt8) (t : Typed) : Typed := ⟨if isShift code then false else t.shift,t.capsLock,t.console⟩

def KeyEvent.types : KeyEvent → Typed → Typed
  | .press key, t => typeKey key.extended key.code t
  | .release key, t => liftKey key.code t
  | .pause, t => liftKey 0x77 (liftKey 0x14 (typeKey false 0x77 (typeKey true 0x14 t)))

structure Reader where
  releasing : Bool
  extended : Bool
  typed : Typed

def Reader.read (r : Reader) (input : UInt8) : Reader :=
  if input = 0xF0 then { r with releasing := true }
  else if announces input then { r with extended := true }
  else if r.releasing then ⟨false,false,liftKey input r.typed⟩
  else ⟨false,false,typeKey r.extended input r.typed⟩

def typedOf (s : Handler) : Typed := ⟨s.shift,s.capsLock,s.console⟩
def readerOf (s : Handler) : Reader := ⟨s.releasing,s.extended,typedOf s⟩

def Serves (s : Handler) (input : UInt8) (s' : Handler) : Prop :=
  ∃ ports, ports.answers 0 = input ∧ ∃ fuel dest stack, interruptHandleKeyboard fuel dest stack { s with ports := ports } = some s'

def ServesAll : Handler → List UInt8 → Handler → Prop
  | s, [], s' => s' = s
  | s, input::later, s' => ∃ t, Serves s input t ∧ ServesAll t later s'

section
variable {s s' : Handler} {fuel dest : Nat} {stack : Memory} {input : UInt8}

theorem unsignedGiven {w : Nat} (dest base : Nat) (num : BitVec w) (m : Memory) (s : State) :
    ∃ results, Gives (fun fuel => consolePrintUnsigned fuel dest num base m s) results := by
  unfold consolePrintUnsigned stringFromUnsigned
  exact ⟨_,givesBind (givesBind (givesLoop _ _) fun _ _ => givesSome _) fun _ _ => givesBind (givesLoop _ _) fun _ _ => givesSome _⟩

theorem printKeyShows {s t : State} (shown : printKey fuel dest stack input s = some t) : t = showKey input s := by
  unfold printKey at shown
  obtain ⟨r,printed,same⟩ := Option.bind_eq_some_iff.mp shown
  obtain ⟨results,gives⟩ := unsignedGiven dest 16 (BitVec.ofNat 32 input.toNat) stack (consolePrint (chars "key=0x") (consoleSetCursor 70 0 s))
  -- With more fuel the call returns the same, and what it is meant to.
  obtain ⟨least,later⟩ := gives.complete r (gives.sound fuel r printed)
  obtain ⟨r',printed',prints⟩ := @unsignedPrints (max least 33) dest 16 stack (consolePrint (chars "key=0x") (consoleSetCursor 70 0 s))
    32 (BitVec.ofNat 32 input.toNat) (by decide) (by decide) (by decide) (by omega)
  have equal : r' = r := Option.some.inj (printed'.symm.trans (later _ (by omega)))
  subst equal
  rw [← Option.some.inj same,prints.console]
  rfl

theorem capsLockPressed (pressed : pressCapsLock fuel s = some s') : s'.releasing = s.releasing ∧ s'.extended = s.extended ∧
    s'.interruptsEnded = s.interruptsEnded ∧ typedOf s' = ⟨s.shift,!s.capsLock,showCapsLock (!s.capsLock) s.console⟩ := by
  unfold pressCapsLock at pressed
  simp only [Option.bind_eq_bind,Option.bind_eq_some_iff] at pressed
  obtain ⟨_,_,_,_,_,_,_,_,result⟩ := pressed
  rw [← Option.some.inj result]
  exact ⟨rfl,rfl,rfl,rfl⟩

theorem pressTypes (pressed : press fuel dest stack input s = some s') : s'.releasing = s.releasing ∧ s'.extended = s.extended ∧
    s'.interruptsEnded = s.interruptsEnded ∧ typedOf s' = typeKey s.extended input (typedOf s) := by
  unfold press at pressed
  obtain ⟨console,shown,pressed⟩ := Option.bind_eq_some_iff.mp pressed
  have shown := printKeyShows shown
  subst shown
  dsimp only at pressed
  unfold typeKey
  dsimp only [typedOf]
  split at pressed
  · rename_i shift
    rw [if_pos shift,← Option.some.inj pressed]
    exact ⟨rfl,rfl,rfl,rfl⟩
  rename_i other
  rw [if_neg other]
  split at pressed
  · rename_i up
    rw [if_pos up,← Option.some.inj pressed]
    exact ⟨rfl,rfl,rfl,rfl⟩
  rename_i notUp
  rw [if_neg notUp]
  split at pressed
  · rename_i down
    rw [if_pos down,← Option.some.inj pressed]
    exact ⟨rfl,rfl,rfl,rfl⟩
  rename_i notDown
  rw [if_neg notDown]
  split at pressed
  · rename_i caps
    rw [if_pos caps]
    exact capsLockPressed pressed
  · rename_i notCaps
    rw [if_neg notCaps,← Option.some.inj pressed]
    exact ⟨rfl,rfl,rfl,rfl⟩

theorem servesReads (serves : Serves s input s') : readerOf s' = (readerOf s).read input ∧ s'.interruptsEnded = s.interruptsEnded+1 := by
  obtain ⟨ports,byte,fuel,dest,stack,handled⟩ := serves
  rw [@interruptBranches { s with ports := ports } fuel dest stack input byte] at handled
  unfold Reader.read
  split at handled
  · rename_i isBreak
    rw [if_pos isBreak,← Option.some.inj handled]
    exact ⟨rfl,rfl⟩
  rename_i notBreak
  rw [if_neg notBreak]
  split at handled
  · rename_i extended
    rw [if_pos extended,← Option.some.inj handled]
    exact ⟨rfl,rfl⟩
  rename_i plain
  rw [if_neg plain]
  split at handled
  · rename_i releasing
    have here : (readerOf s).releasing = true := releasing
    rw [if_pos here,← Option.some.inj handled]
    exact ⟨rfl,rfl⟩
  · rename_i down
    have here : ¬ (readerOf s).releasing = true := down
    obtain ⟨t,pressed,done⟩ := Option.map_eq_some_iff.mp handled
    obtain ⟨still,_,count,typed⟩ := pressTypes pressed
    have released : t.releasing = false := still.trans (Bool.eq_false_iff.mpr down)
    rw [if_neg here,← done]
    refine ⟨?_,congrArg (· + 1) count⟩
    show Reader.mk t.releasing false (typedOf t) = _
    rw [released,typed]
    rfl

theorem servesAllReads {inputs : List UInt8} (serves : ServesAll s inputs s') :
    readerOf s' = inputs.foldl Reader.read (readerOf s) ∧ s'.interruptsEnded = s.interruptsEnded + inputs.length := by
  induction inputs generalizing s with
  | nil =>
    cases serves
    exact ⟨rfl,rfl⟩
  | cons input inputs ih =>
    obtain ⟨t,first,later⟩ := serves
    obtain ⟨read,count⟩ := servesReads first
    obtain ⟨reads,counts⟩ := ih later
    refine ⟨?_,?_⟩
    · rw [reads,read]
      rfl
    · rw [counts,count,List.length_cons]
      omega

theorem servesAllHappen (s : Handler) (inputs : List UInt8) : ∃ s', ServesAll s inputs s' := by
  induction inputs generalizing s with
  | nil => exact ⟨s,rfl⟩
  | cons input inputs ih =>
    obtain ⟨ports,t,byte,handled⟩ := byteServed s input
    obtain ⟨s',later⟩ := ih t
    exact ⟨s',t,⟨ports,byte,handled⟩,later⟩

theorem codeRead (r : Reader) (key : Key) :
    r.read key.code = ⟨false,false,if r.releasing then liftKey key.code r.typed else typeKey r.extended key.code r.typed⟩ := by
  have plain := key.plain
  have notBreak : key.code ≠ 0xF0 := by
    intro same
    rw [same] at plain
    cases plain
  unfold Reader.read
  rw [if_neg notBreak,plain]
  cases r.releasing
  · rfl
  · rfl

theorem leadRead (key : Key) (t : Typed) : key.lead.foldl Reader.read ⟨false,false,t⟩ = ⟨false,key.extended,t⟩ := by
  unfold Key.lead
  cases key.extended with
  | false => rfl
  | true => rfl

theorem eventRead (e : KeyEvent) (t : Typed) : e.bytes.foldl Reader.read ⟨false,false,t⟩ = ⟨false,false,e.types t⟩ := by
  cases e with
  | press key =>
    unfold KeyEvent.bytes
    rw [List.foldl_append,leadRead]
    exact codeRead _ key
  | release key =>
    unfold KeyEvent.bytes
    rw [List.foldl_append,leadRead]
    exact codeRead ⟨true,key.extended,t⟩ key
  | pause => rfl

theorem eventsRead (events : List KeyEvent) (t : Typed) :
    (events.flatMap KeyEvent.bytes).foldl Reader.read ⟨false,false,t⟩ = ⟨false,false,events.foldl (fun t e => e.types t) t⟩ := by
  induction events generalizing t with
  | nil => rfl
  | cons e events ih =>
    rw [List.flatMap_cons,List.foldl_append,eventRead,ih]
    rfl

theorem keysTyped (between : s.releasing = false ∧ s.extended = false) (events : List KeyEvent) :
    (∃ s', ServesAll s (events.flatMap KeyEvent.bytes) s') ∧ ∀ s', ServesAll s (events.flatMap KeyEvent.bytes) s' →
      readerOf s' = ⟨false,false,events.foldl (fun t e => e.types t) (typedOf s)⟩ ∧
      s'.interruptsEnded = s.interruptsEnded + (events.flatMap KeyEvent.bytes).length := by
  refine ⟨servesAllHappen s _,fun s' serves => ?_⟩
  obtain ⟨reads,counts⟩ := servesAllReads serves
  have first : readerOf s = ⟨false,false,typedOf s⟩ := by
    unfold readerOf
    rw [between.1,between.2]
  rw [first,eventsRead] at reads
  exact ⟨reads,counts⟩

end

theorem keysTypedLetter : ∃ s', ServesAll untouched.handler [0x12,0x1C,0xF0,0x1C] s' ∧ s'.shift = true ∧ s'.interruptsEnded = 4 := by
  have letter : announces 0x1C = false := by decide
  obtain ⟨⟨s',serves⟩,all⟩ := @keysTyped untouched.handler ⟨rfl,rfl⟩ [.press leftShift,.press ⟨false,0x1C,letter⟩,.release ⟨false,0x1C,letter⟩]
  obtain ⟨reads,counts⟩ := all s' serves
  exact ⟨s',serves,congrArg (fun r => r.typed.shift) reads,counts⟩

end Kokos.Keyboard

import Kokos.KeyboardCursor
import Kokos.KeyboardInterrupts
import Kokos.TransitionRuns

/-! The shift flag beside the shift keys, over the bytes that a keyboard sends in scan code
set 2 as its keys go down and up. -/
namespace Kokos.Keyboard
open TransitionRuns

structure Key where
  extended : Bool
  code : UInt8
  plain : announces code = false
  deriving DecidableEq

def RealShift (key : Key) : Prop := isShift key.code = true ∧ key.extended = false
def FakeShift (key : Key) : Prop := isShift key.code = true ∧ key.extended = true

/-- Pause sends its bytes at once and none when it goes up. -/
inductive KeyEvent where
  | press (key : Key)
  | release (key : Key)
  | pause

def Key.lead (key : Key) : List UInt8 := if key.extended then [0xE0] else []

def KeyEvent.bytes : KeyEvent → List UInt8
  | .press key => key.lead ++ [key.code]
  | .release key => key.lead ++ [0xF0,key.code]
  | .pause => [0xE1,0x14,0x77,0xE1,0xF0,0x14,0xF0,0x77]

def KeyEvent.Possible (down : Key → Bool) : KeyEvent → Prop
  | .press key => down key = false
  | .release key => down key = true
  | .pause => True

def KeyEvent.after (down : Key → Bool) : KeyEvent → Key → Bool
  | .press key => Function.update down key true
  | .release key => Function.update down key false
  | .pause => down

structure Machine where
  handler : Handler
  down : Key → Bool

def Interrupt (s : Handler) (input : UInt8) (s' : Handler) : Prop := ∃ console ports, ports.answers 0 = input ∧
  ∃ fuel dest stack, interruptHandleKeyboard fuel dest stack { s with console := console, ports := ports } = some s'

def Interrupts : Handler → List UInt8 → Handler → Prop
  | s, [], s' => s' = s
  | s, input::later, s' => ∃ t, Interrupt s input t ∧ Interrupts t later s'

/-- A fake shift may be down at first: some navigation keys let go of it before they press it. -/
def keyboard : System Machine KeyEvent where
  start k := flagsOf k.handler = ⟨false,false,false⟩ ∧ ∀ key, k.down key = true → FakeShift key
  step k e k' := e.Possible k.down ∧ k'.down = e.after k.down ∧ Interrupts k.handler e.bytes k'.handler

def ShiftDown (down : Key → Bool) : Prop := ∃ key, RealShift key ∧ down key = true

def ShiftFollows (k : Machine) : Prop := k.handler.shift = true ↔ ShiftDown k.down

def ShiftsApart (k : Machine) : KeyEvent → Prop
  | .press key => FakeShift key → ShiftDown k.down
  | .release key => isShift key.code = true → ∀ other, RealShift other → k.down other = true → other = key
  | .pause => True

section
variable {s s' : Handler} {k k' : Machine} {e : KeyEvent} {key : Key} {inputs : List UInt8} {down : Key → Bool}

theorem interruptsFlags (interrupts : Interrupts s inputs s') : flagsOf s' = inputs.foldl flagsAfter (flagsOf s) := by
  induction inputs generalizing s with
  | nil => exact congrArg flagsOf interrupts
  | cons input inputs ih =>
    obtain ⟨t,⟨console,ports,byte,fuel,dest,stack,handled⟩,later⟩ := interrupts
    have first := interruptFlags handled
    rw [byte] at first
    rw [ih later,first]
    rfl

theorem byteServed (s : Handler) (input : UInt8) : ∃ (ports : Ports) (s' : Handler), ports.answers 0 = input ∧
    ∃ fuel dest stack, interruptHandleKeyboard fuel dest stack { s with ports := ports } = some s' := by
  let ports : Ports := ⟨fun n => if n = 0 then input else 1,[]⟩
  have lively : Lively ports := by
    intro n
    have ready : ports.answers (n+1) = 1 := rfl
    exact ⟨⟨1,by rw [ready]; rfl⟩,1,by rw [ready]; decide⟩
  obtain ⟨least,returns⟩ := @interruptReturns { s with ports := ports } lively
  obtain ⟨s',handled⟩ := returns least (Nat.le_refl _) 0 fun _ => 0
  exact ⟨ports,s',rfl,least,0,_,handled⟩

theorem interruptsHappen (s : Handler) (inputs : List UInt8) : ∃ s', Interrupts s inputs s' := by
  induction inputs generalizing s with
  | nil => exact ⟨s,rfl⟩
  | cons input inputs ih =>
    obtain ⟨ports,t,byte,handled⟩ := byteServed s input
    obtain ⟨s',later⟩ := ih t
    exact ⟨s',t,⟨s.console,ports,byte,handled⟩,later⟩

theorem eventHappens (possible : e.Possible k.down) : ∃ k', keyboard.step k e k' := by
  obtain ⟨s',interrupts⟩ := interruptsHappen k.handler e.bytes
  exact ⟨⟨s',e.after k.down⟩,possible,rfl,interrupts⟩

def Between (k : Machine) : Prop := k.handler.releasing = false ∧ k.handler.extended = false

theorem codeFlags (f : Flags) (key : Key) :
    flagsAfter f key.code = ⟨false,if isShift key.code then !f.releasing else f.shift,false⟩ := by
  have plain := key.plain
  have notBreak : key.code ≠ 0xF0 := by
    intro same
    rw [same] at plain
    cases plain
  unfold flagsAfter
  rw [if_neg notBreak,plain]
  rfl

theorem leadFlags (key : Key) (shift : Bool) : key.lead.foldl flagsAfter ⟨false,shift,false⟩ = ⟨false,shift,key.extended⟩ := by
  unfold Key.lead
  cases key.extended with
  | false => rfl
  | true => rfl

def KeyEvent.shift (shift : Bool) : KeyEvent → Bool
  | .press key => if isShift key.code then true else shift
  | .release key => if isShift key.code then false else shift
  | .pause => shift

theorem eventFlags (e : KeyEvent) (shift : Bool) : e.bytes.foldl flagsAfter ⟨false,shift,false⟩ = ⟨false,e.shift shift,false⟩ := by
  cases e with
  | press key =>
    unfold KeyEvent.bytes
    rw [List.foldl_append,leadFlags]
    exact codeFlags _ key
  | release key =>
    unfold KeyEvent.bytes
    rw [List.foldl_append,leadFlags]
    exact codeFlags ⟨true,shift,key.extended⟩ key
  | pause => rfl

theorem stepFlags (between : Between k) (step : keyboard.step k e k') : Between k' ∧ k'.handler.shift = e.shift k.handler.shift := by
  obtain ⟨_,_,interrupts⟩ := step
  obtain ⟨releasing,extended⟩ := between
  have flags := interruptsFlags interrupts
  have before : flagsOf k.handler = ⟨false,k.handler.shift,false⟩ := by
    unfold flagsOf
    rw [releasing,extended]
  rw [before,eventFlags] at flags
  obtain ⟨releasing',shift,extended'⟩ := Flags.mk.inj flags
  exact ⟨⟨releasing',extended'⟩,shift⟩

theorem shiftsElsewhere (other : ¬ RealShift key) (value : Bool) : ShiftDown (Function.update down key value) ↔ ShiftDown down := by
  refine exists_congr fun shift => and_congr_right fun real => ?_
  have differs : shift ≠ key := by
    rintro rfl
    exact other real
  rw [Function.update_of_ne differs]

theorem shiftPressed (real : RealShift key) : ShiftDown (Function.update down key true) := ⟨key,real,Function.update_self _ _ _⟩

theorem shiftReleased : ¬ ShiftDown (Function.update down key false) ↔ ∀ other, RealShift other → down other = true → other = key := by
  constructor
  · intro none other real pressed
    by_contra differs
    exact none ⟨other,real,(Function.update_of_ne differs _ _).trans pressed⟩
  · rintro only ⟨other,real,pressed⟩
    by_cases same : other = key
    · rw [same,Function.update_self] at pressed
      cases pressed
    · rw [Function.update_of_ne same] at pressed
      exact same (only other real pressed)

theorem shiftStep (between : Between k) (follows : ShiftFollows k) (step : keyboard.step k e k') :
    ShiftFollows k' ↔ ShiftsApart k e := by
  obtain ⟨_,shift⟩ := stepFlags between step
  have moved := step.2.1
  unfold ShiftFollows at follows ⊢
  rw [shift,moved]
  cases e with
  | press key =>
    simp only [KeyEvent.shift,KeyEvent.after,ShiftsApart]
    by_cases code : isShift key.code = true
    · rw [if_pos code,eq_self_iff_true,true_iff]
      by_cases real : key.extended = false
      · exact iff_of_true (shiftPressed ⟨code,real⟩) fun fake => absurd fake.2 (by rw [real]; decide)
      · rw [shiftsElsewhere (fun shift => real shift.2)]
        exact ⟨fun pressed _ => pressed,fun apart => apart ⟨code,Bool.eq_true_of_not_eq_false real⟩⟩
    · rw [if_neg code,shiftsElsewhere (fun shift => code shift.1)]
      exact iff_of_true follows fun fake => absurd fake.1 code
  | release key =>
    simp only [KeyEvent.shift,KeyEvent.after,ShiftsApart]
    by_cases code : isShift key.code = true
    · rw [if_pos code,← shiftReleased]
      constructor
      · exact fun same _ pressed => Bool.false_ne_true (same.mpr pressed)
      · exact fun apart => iff_of_false Bool.false_ne_true (apart code)
    · rw [if_neg code,shiftsElsewhere (fun shift => code shift.1)]
      exact iff_of_true follows fun shift => absurd shift code
  | pause => exact iff_of_true follows trivial

theorem shiftFollowsIff {es : List KeyEvent} {k : Machine} :
    ((keyboard.restrict ShiftsApart).Run es k ↔ (keyboard.restrict fun k _ => ShiftFollows k).Run es k ∧ ShiftFollows k) ∧
    ∀ e, e.Possible k.down → ∃ k', keyboard.step k e k' := by
  refine ⟨?_,fun e possible => eventHappens possible⟩
  refine restrictExact (I := Between) ?_ (fun k e k' between step => (stepFlags between step).1)
    fun k e k' between follows step => shiftStep between follows step
  rintro k ⟨flags,up⟩
  obtain ⟨releasing,shift,extended⟩ := Flags.mk.inj flags
  refine ⟨⟨releasing,extended⟩,iff_of_false (by rw [shift]; decide) ?_⟩
  rintro ⟨key,real,pressed⟩
  have fake := (up key pressed).2
  rw [real.2] at fake
  cases fake
end

def leftShift : Key := ⟨false,0x12,by decide⟩
def rightShift : Key := ⟨false,0x59,by decide⟩
def fakeShift : Key := ⟨true,0x12,by decide⟩

def untouched : Machine := ⟨handlerAt 0 0 0,fun _ => false⟩

theorem untouchedStart : keyboard.start untouched := ⟨rfl,fun _ pressed => (Bool.false_ne_true pressed).elim⟩

theorem untouchedUp : ¬ ShiftDown untouched.down := by
  rintro ⟨_,_,pressed⟩
  exact Bool.false_ne_true pressed

theorem shiftFollowsLeft : ∃ k, (keyboard.restrict ShiftsApart).Run [.release leftShift,.press leftShift] k ∧ ShiftFollows k := by
  obtain ⟨k1,press⟩ := (@shiftFollowsIff [] untouched).2 (.press leftShift) rfl
  have run1 : (keyboard.restrict ShiftsApart).Run [.press leftShift] k1 :=
    .step (.start untouchedStart) ⟨fun fake => absurd fake.2 (by decide),press⟩
  have pressed : ∀ key, k1.down key = true → key = leftShift := by
    intro key down
    rw [press.2.1] at down
    by_contra differs
    exact Bool.false_ne_true ((Function.update_of_ne differs _ _).symm.trans down)
  have left : k1.down leftShift = true := by
    rw [press.2.1]
    rfl
  obtain ⟨k2,release⟩ := (@shiftFollowsIff [] k1).2 (.release leftShift) left
  have run2 : (keyboard.restrict ShiftsApart).Run [.release leftShift,.press leftShift] k2 :=
    .step run1 ⟨fun _ other _ down => pressed other down,release⟩
  exact ⟨k2,run2,(shiftFollowsIff.1.mp run2).2⟩

theorem stepRuns {es : List KeyEvent} {k : Machine} {e : KeyEvent} (run : keyboard.Run es k) (between : Between k) (follows : ShiftFollows k)
    (possible : e.Possible k.down) :
    ∃ k', keyboard.Run (e::es) k' ∧ Between k' ∧ k'.down = e.after k.down ∧ (ShiftFollows k' ↔ ShiftsApart k e) := by
  obtain ⟨k',step⟩ := eventHappens possible
  exact ⟨k',.step run step,(stepFlags between step).1,step.2.1,shiftStep between follows step⟩

theorem shiftMissed : (∃ k, keyboard.Run [.release rightShift,.press rightShift,.press leftShift] k ∧ ¬ ShiftFollows k) ∧
    ∃ k, keyboard.Run [.press fakeShift] k ∧ ¬ ShiftFollows k := by
  have run : keyboard.Run [] untouched := .start untouchedStart
  have follows : ShiftFollows untouched := iff_of_false (by decide) untouchedUp
  constructor
  · obtain ⟨k1,run1,between1,down1,apart1⟩ := @stepRuns _ _ (.press leftShift) run ⟨rfl,rfl⟩ follows rfl
    have follows1 := apart1.mpr fun fake => absurd fake.2 (by decide)
    have right1 : k1.down rightShift = false := by
      rw [down1]
      rfl
    obtain ⟨k2,run2,between2,down2,apart2⟩ := @stepRuns _ _ (.press rightShift) run1 between1 follows1 right1
    have follows2 := apart2.mpr fun fake => absurd fake.2 (by decide)
    have right : k2.down rightShift = true := by
      rw [down2]
      rfl
    have left : k2.down leftShift = true := by
      rw [down2,down1]
      rfl
    obtain ⟨k3,run3,_,_,apart3⟩ := @stepRuns _ _ (.release rightShift) run2 between2 follows2 right
    refine ⟨k3,run3,fun follows3 => ?_⟩
    exact absurd (apart3.mp follows3 rfl leftShift ⟨rfl,rfl⟩ left) (by decide)
  · obtain ⟨k,run',_,_,apart⟩ := @stepRuns _ _ (.press fakeShift) run ⟨rfl,rfl⟩ follows rfl
    exact ⟨k,run',fun follows' => untouchedUp (apart.mp follows' ⟨rfl,rfl⟩)⟩

end Kokos.Keyboard

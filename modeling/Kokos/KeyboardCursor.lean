import Kokos.ConsoleRuns
import Kokos.Keyboard

/-! Where Enter and Backspace leave the cursor, and what they leave in the history. -/
namespace Kokos.Keyboard
open ByteMemory ByteStrings Console ConsolePrints Strings

section
variable {s t : State} {str : List UInt8} {c : UInt8}

def cell (s : State) : Int := s.x + s.y*80

structure Written (s t : State) (n : Nat) : Prop where
  x : t.x = s.x+n
  y : t.y = s.y
  scroll : t.scroll = s.scroll
  color : t.currentConsoleColor = s.currentConsoleColor
  others : ∀ i, ¬ (cell s ≤ i ∧ i < cell s + n) → t.history i = s.history i

theorem putCharWritten (c : UInt8) (s : State) : Written s (putChar c s) 1 ∧ (putChar c s).history (cell s) = ⟨c,s.currentConsoleColor⟩ := by
  unfold putChar State.storeHistory State.storeVideo
  dsimp only
  by_cases shown : s.scroll ≤ s.y ∧ s.y < s.scroll+2500
  · simp only [shown,and_self,if_true]
    refine ⟨⟨rfl,rfl,rfl,rfl,fun i away => ?_⟩,Function.update_self _ _ _⟩
    exact Function.update_of_ne (fun here => away (by unfold cell; omega)) _ _
  · simp only [shown,if_false]
    refine ⟨⟨rfl,rfl,rfl,rfl,fun i away => ?_⟩,Function.update_self _ _ _⟩
    exact Function.update_of_ne (fun here => away (by unfold cell; omega)) _ _

theorem printCharRoom (ranges : Ranges s) (other : c ≠ newline) (room : s.x+1 < 80) : consolePrintChar c s = putChar c s := by
  rw [printCharCases ranges other]
  exact if_neg (by omega)

theorem writtenTrans {u : State} {n k : Nat} (first : Written s t n) (second : Written t u k) : Written s u (n+k) := by
  have next : cell t = cell s + n := by
    unfold cell
    rw [first.x,first.y]
    omega
  refine ⟨?_,second.y.trans first.y,second.scroll.trans first.scroll,second.color.trans first.color,fun i away => ?_⟩
  · rw [second.x,first.x,Nat.add_assoc]
  · rw [second.others i (by rw [next]; omega),first.others i (by omega)]

theorem writtenRanges {n : Nat} (ranges : Ranges s) (written : Written s t n) (room : s.x+n < 80) : Ranges t := by
  obtain ⟨x,y,scroll,_,_⟩ := written
  exact ⟨by omega,y ▸ ranges.y,scroll ▸ ranges.low,scroll ▸ ranges.high⟩

theorem printRow (ranges : Ranges s) (plain : ∀ c ∈ str, c ≠ 0 ∧ c ≠ newline) (room : s.x + str.length < 80) :
    Written s (consolePrint str s) str.length := by
  induction str generalizing s with
  | nil => exact ⟨rfl,rfl,rfl,rfl,fun _ _ => rfl⟩
  | cons c str ih =>
    obtain ⟨nonzero,other⟩ := plain c List.mem_cons_self
    rw [List.length_cons] at room
    have first := (putCharWritten c s).1
    have ranges' := writtenRanges ranges first (by omega)
    have column := first.x
    have later := ih ranges' (fun d member => plain d (List.mem_cons_of_mem _ member)) (by omega)
    unfold consolePrint
    rw [if_neg nonzero,printCharRoom ranges other (by omega),List.length_cons,Nat.add_comm]
    exact writtenTrans first later

/-! The byte of the key. -/

structure Placed (s : State) : Prop where
  x : s.x < 80
  low : 0 ≤ s.scroll
  high : s.scroll ≤ 2475
  visible : s.scroll ≤ s.y ∧ s.y < s.scroll+25
  y : s.y < 2499

structure Restored (s t : State) : Prop where
  x : t.x = s.x
  y : t.y = s.y
  scroll : t.scroll = s.scroll
  color : t.currentConsoleColor = s.currentConsoleColor
  others : ∀ i, ¬ (70 + s.scroll*80 ≤ i ∧ i < 78 + s.scroll*80) → t.history i = s.history i

theorem restoreCursor (placed : Placed s) (scroll : t.scroll = s.scroll) (x : Nat) :
    (consoleSetCursor x (consoleGetCursor s).2 t).y = s.y := by
  obtain ⟨_,low,high,visible,y⟩ := placed
  have row : (unsigned (s.y - s.scroll) : Int) = s.y - s.scroll := unsignedOf (by omega) (by omega)
  have back : (unsigned ((unsigned (s.y - s.scroll) : Int) + t.scroll) : Int) = unsigned (s.y - s.scroll) + t.scroll :=
    unsignedOf (by omega) (by omega)
  show unsigned (unsigned (s.y - s.scroll) + t.scroll) = s.y
  omega

theorem keyText (input : UInt8) : (unsignedText 16 (BitVec.ofNat 32 input.toNat)).length ≤ 2 ∧
    ∀ c ∈ unsignedText 16 (BitVec.ofNat 32 input.toNat), c ≠ 0 ∧ c ≠ newline := by
  have small : input.toNat < 256 := input.toNat_lt
  constructor
  · refine (magnitudeLength (by decide) (by decide) _).mpr ?_
    rw [BitVec.toNat_ofNat,Nat.mod_eq_of_lt (by omega)]
    exact small
  · intro c member
    obtain ⟨d,less,rfl⟩ := (numeralText (by decide) (by decide) _).digits c member
    have digit := (digitTable ⟨d,by omega⟩).2
    constructor
    · intro same
      rw [same] at digit
      exact absurd digit (by decide)
    · intro same
      rw [same] at digit
      exact absurd digit (by decide)

theorem statusRestores {n : Nat} (placed : Placed s) (written : Written (consoleSetCursor 70 0 s) t n) (short : n ≤ 8) :
    Restored s (consoleSetCursor (consoleGetCursor s).1 (consoleGetCursor s).2 t) := by
  obtain ⟨_,_,scroll,color,others⟩ := written
  have low := placed.low
  have high := placed.high
  have top : (unsigned ((0 : Nat) + s.scroll) : Int) = s.scroll := (unsignedOf (by omega) (by omega)).trans (by omega)
  have start : cell (consoleSetCursor 70 0 s) = 70 + s.scroll*80 := by
    show ((70 : Nat) : Int) + unsigned ((0 : Nat) + s.scroll)*80 = 70 + s.scroll*80
    rw [top]
    rfl
  refine ⟨rfl,restoreCursor placed scroll _,scroll,color,fun i away => others i ?_⟩
  rw [start]
  omega

theorem keyChars : (chars "key=0x").length = 6 ∧ ∀ c ∈ chars "key=0x", c ≠ 0 ∧ c ≠ newline := ⟨by decide,eachOf (by decide)⟩

theorem printKeyRestores {fuel : Nat} (placed : Placed s) (enough : 32 < fuel) (dest : Nat) (stack : Memory) (input : UInt8) :
    ∃ t, printKey fuel dest stack input s = some t ∧ Restored s t := by
  obtain ⟨short,plain⟩ := keyText input
  obtain ⟨six,plainKey⟩ := keyChars
  have low := placed.low
  have high := placed.high
  have top : (unsigned ((0 : Nat) + s.scroll) : Int) = s.scroll := (unsignedOf (by omega) (by omega)).trans (by omega)
  have column : (consoleSetCursor 70 0 s).x = 70 := rfl
  have ranges : Ranges (consoleSetCursor 70 0 s) := by
    refine ⟨by omega,?_,low,?_⟩
    · show unsigned ((0 : Nat) + s.scroll) < 2524
      omega
    · show s.scroll ≤ 2499
      omega
  have first := printRow ranges plainKey (by omega)
  have ranges1 := writtenRanges ranges first (by omega)
  have column1 := first.x
  unfold printKey
  dsimp only
  generalize consolePrint (chars "key=0x") (consoleSetCursor 70 0 s) = s1 at *
  have second := printRow ranges1 plain (by omega)
  obtain ⟨r,returns,prints⟩ := @unsignedPrints fuel dest 16 stack s1 32 (BitVec.ofNat 32 input.toNat) (by decide) (by decide) (by decide) enough
  rw [← prints.console] at second
  have restored := statusRestores placed (writtenTrans first second) (by omega)
  unfold consolePrintU32
  rw [returns]
  exact ⟨_,rfl,restored⟩

/-! Enter. -/

theorem restoredPlaced (placed : Placed s) (restored : Restored s t) : Placed t := by
  obtain ⟨x,y,scroll,_,_⟩ := restored
  exact ⟨x ▸ placed.x,scroll ▸ placed.low,scroll ▸ placed.high,by rw [y,scroll]; exact placed.visible,y ▸ placed.y⟩

theorem placedRanges (placed : Placed s) : Ranges s := by
  obtain ⟨x,low,high,_,y⟩ := placed
  exact ⟨x,by omega,low,by omega⟩

structure Advanced (s t : State) : Prop where
  x : t.x = 0
  y : t.y = s.y+1
  scroll : t.scroll = if s.scroll+25 ≤ s.y+1 then s.scroll+1 else s.scroll
  color : t.currentConsoleColor = s.currentConsoleColor
  history : t.history = s.history

theorem newLineAdvances (room : s.y+1 < 2500) (after : NewLine s t) : Advanced s t := by
  cases after with
  | wipe full => omega
  | scroll _ under =>
    rw [(updateScreenShown _).same]
    exact ⟨rfl,rfl,(if_pos under).symm,rfl,rfl⟩
  | move _ on => exact ⟨rfl,rfl,(if_neg (by omega)).symm,rfl,rfl⟩

theorem blankAfter (placed : Placed s) :
    s.x ≠ 79 ∧ consolePrintChar (char ' ') s = putChar (char ' ') s ∨
    s.x = 79 ∧ Advanced (putChar (char ' ') s) (consolePrintChar (char ' ') s) := by
  have blank : char ' ' ≠ newline := by decide
  obtain ⟨x,y,_⟩ := putCharFrame (char ' ') s
  have column := placed.x
  have row := placed.y
  rcases printCharAfter (placedRanges placed) (char ' ') with ⟨line,_⟩ | ⟨_,after | ⟨room,same⟩⟩
  · exact absurd line blank
  · by_cases last : s.x = 79
    · exact Or.inr ⟨last,newLineAdvances (by omega) after⟩
    · exact Or.inl ⟨last,printCharRoom (placedRanges placed) blank (by omega)⟩
  · exact Or.inl ⟨by omega,same⟩

theorem newLineLeaves (after : NewLine s t) : t.y ≠ s.y := by
  cases after with
  | wipe full =>
    have top := (clearCursor { s with y := s.y+1 }).2.1
    dsimp only
    omega
  | scroll room under =>
    rw [(updateScreenShown _).same]
    exact Nat.succ_ne_self s.y
  | move room on => exact Nat.succ_ne_self s.y

theorem enterCursor (placed : Placed s) : (pressEnter false s).x = 0 ∧ (pressEnter false s).y = s.y+1 ↔ s.x ≠ 79 := by
  obtain ⟨_,y,scroll⟩ := putCharFrame (char ' ') s
  have row := placed.y
  have low := placed.low
  have high := placed.high
  unfold pressEnter
  rw [if_neg Bool.false_ne_true]
  rcases blankAfter placed with ⟨inner,same⟩ | ⟨last,advanced⟩
  · rw [same]
    have after := newLineCases (s := putChar (char ' ') s) (by omega) (by omega) (by omega)
    obtain ⟨column,next,_,_,_⟩ := newLineAdvances (by omega) after
    exact iff_of_true ⟨column,by rw [next,y]⟩ inner
  · have scrolled := advanced.scroll
    have below := advanced.y
    generalize consolePrintChar (char ' ') s = t at *
    rw [scroll,y] at scrolled
    have range : 0 ≤ t.scroll ∧ t.scroll ≤ 2476 := by
      rw [scrolled]
      split <;> omega
    -- The new line of the wrap comes first, and the one of the key starts from there.
    have after := newLineCases (s := t) (by omega) range.1 (by omega)
    have leaves := newLineLeaves after
    rw [below,y] at leaves
    exact iff_of_false (fun both => leaves both.2) (not_not_intro last)

/-! Backspace. -/

def blankOf (s : State) : ConsoleVideoChar := ⟨char ' ',s.currentConsoleColor⟩

structure Erased (spared : Int → Prop) (s t : State) : Prop where
  x : t.x = s.x-1
  y : t.y = s.y
  scroll : t.scroll = s.scroll
  here : t.history (cell s) = blankOf s
  before : t.history (cell s - 1) = blankOf s
  others : ∀ i, spared i → i ≠ cell s → i ≠ cell s - 1 → t.history i = s.history i

theorem printLeft (placed : Placed s) (some : 0 < s.x) (low : 0 ≤ t.scroll) (high : t.scroll ≤ s.scroll+1) :
    consolePrintChar (char ' ') (consoleSetCursor (s.x-1) (consoleGetCursor s).2 t) =
      putChar (char ' ') (consoleSetCursor (s.x-1) (consoleGetCursor s).2 t) := by
  obtain ⟨x,low',high',visible,_⟩ := placed
  have row : (unsigned (s.y - s.scroll) : Int) = s.y - s.scroll := unsignedOf (by omega) (by omega)
  have line : (unsigned ((unsigned (s.y - s.scroll) : Int) + t.scroll) : Int) = unsigned (s.y - s.scroll) + t.scroll :=
    unsignedOf (by omega) (by omega)
  refine printCharRoom ⟨show s.x-1 < 80 by omega,?_,low,show t.scroll ≤ 2499 by omega⟩ (by decide) (show s.x-1+1 < 80 by omega)
  show unsigned (unsigned (s.y - s.scroll) + t.scroll) < 2524
  omega

theorem secondBlank (placed : Placed s) (some : 0 < s.x) (scroll : t.scroll = s.scroll) (color : t.currentConsoleColor = s.currentConsoleColor)
    (here : t.history (cell s) = blankOf s) (others : ∀ i, i ≠ cell s → t.history i = s.history i) :
    Erased (fun _ => True) s (consoleSetCursor (s.x-1) (consoleGetCursor s).2
      (consolePrintChar (char ' ') (consoleSetCursor (s.x-1) (consoleGetCursor s).2 t))) := by
  have row := restoreCursor placed scroll (s.x-1)
  have low := placed.low
  rw [printLeft placed some (by omega) (by omega)]
  have column : (consoleSetCursor (s.x-1) (consoleGetCursor s).2 t).x = s.x-1 := rfl
  have scroll' : (consoleSetCursor (s.x-1) (consoleGetCursor s).2 t).scroll = s.scroll := scroll
  have history : (consoleSetCursor (s.x-1) (consoleGetCursor s).2 t).history = t.history := rfl
  have color' : (consoleSetCursor (s.x-1) (consoleGetCursor s).2 t).currentConsoleColor = s.currentConsoleColor := color
  generalize consoleSetCursor (s.x-1) (consoleGetCursor s).2 t = u at *
  have left : cell u = cell s - 1 := by
    unfold cell
    rw [column,row]
    omega
  obtain ⟨written,put⟩ := putCharWritten (char ' ') u
  have scrolled := written.scroll.trans scroll'
  have untouched : ∀ i, i ≠ cell s - 1 → (putChar (char ' ') u).history i = t.history i := by
    intro i away
    rw [written.others i (by rw [left]; omega),history]
  rw [left,color'] at put
  refine ⟨rfl,restoreCursor placed scrolled _,scrolled,?_,put,fun i _ first second => ?_⟩
  · exact (untouched _ (by omega)).trans here
  · exact (untouched i second).trans (others i first)

theorem backspaceErases (placed : Placed s) (some : 0 < s.x) :
    (¬ (s.x = 79 ∧ s.y = s.scroll+24) → Erased (fun _ => True) s (pressBackspace s)) ∧
    (s.x = 79 ∧ s.y = s.scroll+24 → (pressBackspace s).scroll = s.scroll+1) := by
  obtain ⟨written,put⟩ := putCharWritten (char ' ') s
  obtain ⟨_,row,scroll,color,others⟩ := written
  have others' : ∀ i, i ≠ cell s → (putChar (char ' ') s).history i = s.history i := fun i away => others i (by omega)
  have press : pressBackspace s = consoleSetCursor (s.x-1) (consoleGetCursor s).2
      (consolePrintChar (char ' ') (consoleSetCursor (s.x-1) (consoleGetCursor s).2 (consolePrintChar (char ' ') s))) := if_pos some
  rw [press]
  rcases blankAfter placed with ⟨inner,same⟩ | ⟨last,advanced⟩
  · rw [same]
    exact ⟨fun _ => secondBlank placed some scroll color put others',fun corner => absurd corner.1 inner⟩
  · obtain ⟨_,_,scrolled,color1,history⟩ := advanced
    rw [row,scroll] at scrolled
    constructor
    · intro inner
      have stays : (consolePrintChar (char ' ') s).scroll = s.scroll := by
        rw [scrolled,if_neg]
        have visible := placed.visible.2
        omega
      exact secondBlank placed some stays (color1.trans color) (history ▸ put) (fun i away => history ▸ others' i away)
    · rintro ⟨_,bottom⟩
      rw [if_pos (by omega)] at scrolled
      have low := placed.low
      rw [printLeft placed some (by omega) (by omega)]
      exact (putCharFrame _ _).2.2.trans scrolled

end

/-! The keys. -/

section
variable {s : Handler} {t : State} {input : UInt8} {fuel dest : Nat} {stack : Memory} {right : State → Prop}

def Pressed (s : Handler) (input : UInt8) : Prop := s.releasing = false ∧ s.ports.answers 0 = input

def Handles (s : Handler) (right : State → Prop) : Prop :=
  ∃ least, ∀ fuel, least ≤ fuel → ∀ dest stack, ∃ s', interruptHandleKeyboard fuel dest stack s = some s' ∧ right s'.console

def enter : UInt8 := 0x5a
def backspace : UInt8 := 0x66

theorem keyNamed (key : input = enter ∨ input = backspace) (shifted : Bool) :
    ∃ scancode, (if shifted then scancodesShift else scancodesNormal) input.toNat = some scancode := by
  rw [← Option.isSome_iff_exists]
  rcases key with rfl | rfl
  · revert shifted
    decide
  · revert shifted
    decide

theorem keyPlain (key : input = enter ∨ input = backspace) : input ≠ 0xF0 ∧ ¬ (input = 0xE0 ∨ input = 0xE1 ∨ input = 0xE2) ∧
    isShift input = false ∧ input ≠ 0x75 ∧ input ≠ 0x72 ∧ input ≠ 0x58 := by
  rcases key with rfl | rfl
  · decide
  · decide

theorem keyHandled (key : input = enter ∨ input = backspace) (pressed : Pressed s input)
    (shown : printKey fuel dest stack input s.console = some t) :
    ∃ s', interruptHandleKeyboard fuel dest stack s = some s' ∧
      s'.console = if input = enter then pressEnter s.shift t else pressBackspace t := by
  obtain ⟨down,byte⟩ := pressed
  obtain ⟨notBreak,notExtended,notShift,notUp,notDown,notCaps⟩ := keyPlain key
  obtain ⟨scancode,named⟩ := keyNamed key (s.shift || s.capsLock)
  have typed : pressKey s.shift s.capsLock input t = if input = enter then pressEnter s.shift t else pressBackspace t := by
    unfold pressKey
    rw [named]
    rcases key with rfl | rfl
    · rfl
    · rfl
  unfold interruptHandleKeyboard press
  simp only [portIn8,byte,down,notBreak,notExtended,notShift,notUp,notDown,notCaps,shown,typed,and_false,if_false,Bool.false_eq_true,
    Option.bind_eq_bind,Option.bind_some]
  exact ⟨_,rfl,rfl⟩

theorem handlesIff (key : input = enter ∨ input = backspace) (pressed : Pressed s input) (placed : Placed s.console) {good : Prop}
    (acts : ∀ t, Restored s.console t → (right (if input = enter then pressEnter s.shift t else pressBackspace t) ↔ good)) :
    Handles s right ↔ good := by
  constructor
  · rintro ⟨least,handles⟩
    have enough : 32 < max least 33 := by omega
    obtain ⟨t,shown,restored⟩ := printKeyRestores placed enough 0 (fun _ => 0) input
    obtain ⟨s1,handled,result⟩ := handles (max least 33) (by omega) 0 fun _ => 0
    obtain ⟨s2,handled',console⟩ := keyHandled key pressed shown
    rw [handled] at handled'
    cases handled'
    rw [console] at result
    exact (acts t restored).mp result
  · intro condition
    refine ⟨33,fun fuel enough dest stack => ?_⟩
    obtain ⟨t,shown,restored⟩ := printKeyRestores placed enough dest stack input
    obtain ⟨s1,handled,console⟩ := keyHandled key pressed shown
    exact ⟨s1,handled,console ▸ (acts t restored).mpr condition⟩

theorem enterIff (placed : Placed s.console) (pressed : Pressed s enter) (unshifted : s.shift = false) :
    Handles s (fun t => t.x = 0 ∧ t.y = s.console.y+1) ↔ s.console.x ≠ 79 := by
  refine handlesIff (Or.inl rfl) pressed placed fun t restored => ?_
  have cursor := enterCursor (restoredPlaced placed restored)
  rw [restored.x,restored.y] at cursor
  rw [if_pos rfl,unshifted]
  exact cursor

def Spared (s : State) (i : Int) : Prop := ¬ (70 + s.scroll*80 ≤ i ∧ i < 78 + s.scroll*80)

theorem erasedRestored {s t u : State} (restored : Restored s t) (erased : Erased (fun _ => True) t u) : Erased (Spared s) s u := by
  obtain ⟨x,y,scroll,color,others⟩ := restored
  obtain ⟨x',y',scroll',here,before,others'⟩ := erased
  have same : cell t = cell s := by
    unfold cell
    rw [x,y]
  have blank : blankOf t = blankOf s := by
    unfold blankOf
    rw [color]
  rw [same,blank] at here before
  rw [same] at others'
  refine ⟨?_,y'.trans y,scroll'.trans scroll,here,before,
    fun i spared first second => (others' i trivial first second).trans (others i spared)⟩
  rw [x',x]

theorem backspaceIff (placed : Placed s.console) (pressed : Pressed s backspace) (some : 0 < s.console.x) :
    Handles s (Erased (Spared s.console) s.console) ↔ ¬ (s.console.x = 79 ∧ s.console.y = s.console.scroll+24) := by
  refine handlesIff (Or.inr rfl) pressed placed fun t restored => ?_
  obtain ⟨erases,scrolls⟩ := backspaceErases (restoredPlaced placed restored) (restored.x ▸ some)
  rw [if_neg (by decide)]
  rw [restored.x,restored.y,restored.scroll] at erases scrolls
  constructor
  · intro erased corner
    have stayed := erased.scroll
    have moved := scrolls corner
    omega
  · exact fun inner => erasedRestored restored (erases inner)

theorem keysIff (placed : Placed s.console) :
    (Pressed s enter → s.shift = false → (Handles s (fun t => t.x = 0 ∧ t.y = s.console.y+1) ↔ s.console.x ≠ 79)) ∧
    (Pressed s backspace → 0 < s.console.x → (Handles s (Erased (Spared s.console) s.console) ↔
      ¬ (s.console.x = 79 ∧ s.console.y = s.console.scroll+24))) :=
  ⟨enterIff placed,backspaceIff placed⟩

end

def handlerAt (x y : Nat) (input : UInt8) : Handler where
  releasing := false
  shift := false
  capsLock := false
  extended := false
  console := { bootState with x := x, y := y }
  ports := ⟨fun _ => input,[]⟩
  interruptsEnded := 0

theorem handlerPlaced {x y : Nat} (column : x < 80) (row : y < 25) (input : UInt8) : Placed (handlerAt x y input).console :=
  ⟨column,Int.le_refl 0,show (0 : Int) ≤ 2475 by decide,⟨Int.natCast_nonneg y,show (y : Int) < 0+25 by omega⟩,show y < 2499 by omega⟩

theorem lastColumnWrong : ¬ Handles (handlerAt 79 0 enter) (fun t => t.x = 0 ∧ t.y = 1) ∧
    ¬ Handles (handlerAt 79 24 backspace) (Erased (Spared (handlerAt 79 24 backspace).console) (handlerAt 79 24 backspace).console) := by
  constructor
  · intro handles
    exact (enterIff (handlerPlaced (by decide) (by decide) enter) ⟨rfl,rfl⟩ rfl).mp handles rfl
  · intro handles
    exact (backspaceIff (handlerPlaced (by decide) (by decide) backspace) ⟨rfl,rfl⟩ (by decide)).mp handles ⟨rfl,rfl⟩

theorem keysIffInner :
    Handles (handlerAt 5 3 enter) (fun t => t.x = 0 ∧ t.y = (handlerAt 5 3 enter).console.y+1) ∧
    Handles (handlerAt 5 3 backspace)
      (Erased (Spared (handlerAt 5 3 backspace).console) (handlerAt 5 3 backspace).console) := by
  constructor
  · exact ((keysIff (handlerPlaced (by decide) (by decide) enter)).1 ⟨rfl,rfl⟩ rfl).mpr (by decide)
  · exact ((keysIff (handlerPlaced (by decide) (by decide) backspace)).2 ⟨rfl,rfl⟩ (by decide)).mpr (by decide)

end Kokos.Keyboard

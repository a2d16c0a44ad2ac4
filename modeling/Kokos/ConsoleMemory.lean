import Kokos.ConsoleRuns
import Kokos.ByteMemory

/-! The console's calls over one memory, in which the variables of console.c and the screen
lie apart from each other. An index that leaves its array finds whatever lies there. -/
namespace Kokos.ConsoleMemory
open ByteMemory CountedLoops TransitionRuns Console

inductive Object where
  | videoMemory
  | currentConsoleColor
  | x
  | y
  | scroll
  | history
  | screen
  deriving DecidableEq, Repr

def sizeofVideoChar : Nat := 2

def Object.size : Object → Nat
  | .videoMemory => 8
  | .currentConsoleColor => 1
  | .x => 4
  | .y => 4
  | .scroll => 4
  | .history => sizeofVideoChar*(consoleBufferWidth*consoleBufferHeight)
  | .screen => sizeofVideoChar*(consoleBufferWidth*consoleVisibleHeight)

def screenAddress : Nat := 0xb8000

structure Layout where
  address : Object → Nat
  screen : address .screen = screenAddress
  bounded : ∀ o, address o + o.size ≤ 2^64
  apart : ∀ o p, o ≠ p → address o + o.size ≤ address p ∨ address p + p.size ≤ address o

/-! One statement at a time. Every use of a variable reads it again. -/

def charater : Nat := 0
def color : Nat := 1

def fieldAddress (array : Nat) (index : Int) (field : Nat) : Nat := ((array + sizeofVideoChar*index + field) % 2^64).toNat

def loadChar (m : Memory) (array : Nat) (index : Int) : ConsoleVideoChar :=
  ⟨m (fieldAddress array index charater),m (fieldAddress array index color)⟩

def storeField (m : Memory) (array : Nat) (index : Int) (field : Nat) (value : UInt8) : Memory :=
  Function.update m (fieldAddress array index field) value

def storeChar (m : Memory) (array : Nat) (index : Int) (c : ConsoleVideoChar) : Memory :=
  storeField (storeField m array index charater c.charater) array index color c.color

namespace Layout
variable (layout : Layout) (m : Memory)

def videoMemory : Nat := readWord m (layout.address .videoMemory)
def currentConsoleColor : UInt8 := m (layout.address .currentConsoleColor)
def x : Nat := readUnsigned m (layout.address .x)
def y : Nat := readUnsigned m (layout.address .y)
def scroll : Int := readInt m (layout.address .scroll)
def history : Nat := layout.address .history

def setX (v : Nat) : Memory := writeInt m (layout.address .x) v
def setY (v : Nat) : Memory := writeInt m (layout.address .y) v
def setScroll (v : Int) : Memory := writeInt m (layout.address .scroll) v

def consoleUpdateScreen : Memory :=
  countUp consoleVisibleHeight (fun iy => countUp consoleBufferWidth fun ix m =>
    storeChar m (layout.videoMemory m) (ix + iy*consoleBufferWidth)
      (loadChar m layout.history (ix + (iy + layout.scroll m)*consoleBufferWidth))) m

def consoleSetColor (foreground background : UInt8) : Memory :=
  Function.update m (layout.address .currentConsoleColor)
    ((foreground &&& (0xF : UInt8)) ||| ((background &&& (0xF : UInt8)) <<< (4 : UInt8)))

def clearHistory : Memory :=
  countUp consoleBufferWidth (fun ix => countUp consoleBufferHeight fun iy m =>
    let m := storeField m layout.history (ix + iy*consoleBufferWidth) charater 0
    storeField m layout.history (ix + iy*consoleBufferWidth) color 0) m

def consoleClear : Memory :=
  let m := layout.clearHistory m
  let m := layout.setX m 0
  let m := layout.setY m 0
  let m := layout.setScroll m 0
  layout.consoleUpdateScreen m

def consoleNewLine : Memory :=
  let m := layout.setY m (layout.y m + 1)
  let m := if consoleBufferHeight ≤ layout.y m then layout.consoleClear m else m
  let m := layout.setX m 0
  if unsigned (layout.scroll m + consoleVisibleHeight) ≤ layout.y m ∧ layout.scroll m < (consoleBufferHeight : Int) - 1 then
    layout.consoleUpdateScreen (layout.setScroll m (layout.scroll m + 1))
  else m

/-- `x + y * CONSOLE_BUFFER_WIDTH`, and the same of a row counted from the window's first. -/
def historyIndex : Int := ((layout.x m + layout.y m*consoleBufferWidth) % 2^32 : Nat)

def screenIndex : Int := ((layout.x m + unsigned (layout.y m - layout.scroll m)*consoleBufferWidth) % 2^32 : Nat)

def consolePrintChar (c : UInt8) : Memory :=
  if c = newline then layout.consoleNewLine m
  else
    let m := storeField m layout.history (layout.historyIndex m) charater c
    let m := storeField m layout.history (layout.historyIndex m) color (layout.currentConsoleColor m)
    let m :=
      if unsigned (layout.scroll m) ≤ layout.y m ∧ layout.y m < unsigned (layout.scroll m + consoleBufferHeight) then
        let m := storeField m (layout.videoMemory m) (layout.screenIndex m) charater c
        storeField m (layout.videoMemory m) (layout.screenIndex m) color (layout.currentConsoleColor m)
      else m
    let m := layout.setX m (layout.x m + 1)
    if consoleBufferWidth ≤ layout.x m then layout.consoleNewLine m else m

def consolePrint : List UInt8 → Memory → Memory
  | [], m => m
  | c::str, m => if c = 0 then m else consolePrint str (layout.consolePrintChar m c)

def consoleSetCursor (newX newY : Nat) : Memory :=
  let m := layout.setX m newX
  layout.setY m (unsigned (newY + layout.scroll m))

def consoleScroll (amount : Int) : Memory :=
  let m := layout.setScroll m (layout.scroll m + amount)
  let m :=
    if layout.scroll m < 0 then layout.setScroll m 0
    else if (consoleBufferHeight : Int) ≤ layout.scroll m then layout.setScroll m ((consoleBufferHeight : Int) - 1)
    else m
  layout.consoleUpdateScreen m

def execute : Call → Memory
  | .printChar c => layout.consolePrintChar m c
  | .print str => layout.consolePrint str m
  | .newLine => layout.consoleNewLine m
  | .clear => layout.consoleClear m
  | .setColor foreground background => layout.consoleSetColor m foreground background
  | .setCursor x y => layout.consoleSetCursor m x y
  | .scroll amount => layout.consoleScroll m amount

def Allowed : Call → Prop
  | .setCursor x y => x < consoleBufferWidth ∧ y < consoleVisibleHeight
  | .scroll amount => -2^31 ≤ layout.scroll m + amount ∧ layout.scroll m + amount < 2^31
  | _ => True

/-- Runs from the memory after a console_clear, which finds the pointer as it was loaded. -/
def system : System Memory Call where
  start m := ∃ m0, layout.videoMemory m0 = screenAddress ∧ m = layout.consoleClear m0
  step m call m' := layout.Allowed m call ∧ m' = layout.execute m call

end Layout

/-! What the memory holds of a state whose arrays lie apart. -/

def Layout.viewed (layout : Layout) (m : Memory) : State where
  videoMemory := loadChar m screenAddress
  history := loadChar m layout.history
  currentConsoleColor := layout.currentConsoleColor m
  x := layout.x m
  y := layout.y m
  scroll := layout.scroll m
  accesses := []

def Holds (layout : Layout) (m : Memory) (s : State) : Object → Prop
  | .videoMemory => layout.videoMemory m = screenAddress
  | .currentConsoleColor => layout.currentConsoleColor m = s.currentConsoleColor
  | .x => layout.x m = s.x
  | .y => layout.y m = s.y
  | .scroll => layout.scroll m = s.scroll
  | .history => ∀ i : Int, 0 ≤ i → i < 80*2500 → loadChar m layout.history i = s.history i
  | .screen => ∀ i : Int, 0 ≤ i → i < 80*25 → loadChar m screenAddress i = s.videoMemory i

def Represents (layout : Layout) (m : Memory) (s : State) : Prop := ∀ o, Holds layout m s o

def Only (layout : Layout) (o : Object) (m m' : Memory) : Prop :=
  ∀ p, p ≠ o → SameBytes m m' (layout.address p) p.size

section
variable {layout : Layout} {m m' m'' : Memory} {s s' : State} {o : Object} {i j : Int} {n field : Nat}

theorem viewedHeld (pointer : layout.videoMemory m = screenAddress) : Represents layout m (layout.viewed m) := by
  intro o
  cases o with
  | videoMemory => exact pointer
  | history | screen =>
    intro i low high
    rfl
  | currentConsoleColor | x | y | scroll => simp only [Holds,Layout.viewed]

theorem onlySelf (layout : Layout) (o : Object) (m : Memory) : Only layout o m m := fun _ _ _ _ _ => rfl

theorem onlyTrans (first : Only layout o m m') (second : Only layout o m' m'') : Only layout o m m'' :=
  fun p other => sameTrans (first p other) (second p other)

theorem onlyWithin {a k : Nat} (inside : layout.address o ≤ a ∧ a+k ≤ layout.address o + o.size)
    (others : ∀ x, ¬ (a ≤ x ∧ x < a+k) → m' x = m x) : Only layout o m m' := by
  intro p other x low high
  have apart := layout.apart o p (Ne.symm other)
  exact others x (by omega)

theorem fieldAddressInside {array : Nat} (bounded : array + sizeofVideoChar*n ≤ 2^64) (low : 0 ≤ i) (high : i < n)
    (small : field < sizeofVideoChar) : fieldAddress array i field = array + sizeofVideoChar*i.toNat + field := by
  unfold fieldAddress
  unfold sizeofVideoChar at *
  omega

theorem storeFieldOnly (size : o.size = sizeofVideoChar*n) (low : 0 ≤ i) (high : i < n) (small : field < sizeofVideoChar)
    (value : UInt8) : Only layout o m (storeField m (layout.address o) i field value) := by
  have bounded := layout.bounded o
  rw [size] at bounded
  have here := fieldAddressInside bounded low high small
  refine onlyWithin (a := fieldAddress (layout.address o) i field) (k := 1) ?_ fun x outside => ?_
  · rw [here,size]
    unfold sizeofVideoChar at *
    omega
  · exact Function.update_of_ne (by omega) _ _

theorem storeCharOnly (size : o.size = sizeofVideoChar*n) (low : 0 ≤ i) (high : i < n) (c : ConsoleVideoChar) :
    Only layout o m (storeChar m (layout.address o) i c) :=
  onlyTrans (storeFieldOnly size low high (by decide) _) (storeFieldOnly size low high (by decide) _)

theorem loadStoreChar {array : Nat} (bounded : array + sizeofVideoChar*n ≤ 2^64) (low : 0 ≤ i) (high : i < n)
    (low' : 0 ≤ j) (high' : j < n) (c : ConsoleVideoChar) :
    loadChar (storeChar m array i c) array j = Function.update (loadChar m array) i c j := by
  have first (k : Int) (low : 0 ≤ k) (high : k < n) := fieldAddressInside bounded low high (show charater < sizeofVideoChar by decide)
  have second (k : Int) (low : 0 ≤ k) (high : k < n) := fieldAddressInside bounded low high (show color < sizeofVideoChar by decide)
  unfold loadChar storeChar storeField
  rw [first i low high,second i low high,first j low' high',second j low' high']
  by_cases same : j = i
  · subst same
    unfold charater color
    rw [Function.update_self,Function.update_of_ne (by omega),Function.update_self,Function.update_self]
  · have : j.toNat ≠ i.toNat := by omega
    rw [Function.update_of_ne same,first j low' high',second j low' high']
    unfold charater color sizeofVideoChar
    rw [Function.update_of_ne (by omega),Function.update_of_ne (by omega),Function.update_of_ne (by omega),
      Function.update_of_ne (by omega)]

theorem loadCharCongr {array : Nat} (bounded : array + sizeofVideoChar*n ≤ 2^64) (low : 0 ≤ i) (high : i < n)
    (same : SameBytes m m' array (sizeofVideoChar*n)) : loadChar m' array i = loadChar m array i := by
  unfold loadChar
  rw [fieldAddressInside bounded low high (by decide),fieldAddressInside bounded low high (by decide)]
  unfold charater color
  unfold sizeofVideoChar at *
  rw [same _ (by omega) (by omega),same _ (by omega) (by omega)]

theorem historyBounded (layout : Layout) : layout.history + sizeofVideoChar*(80*2500 : Nat) ≤ 2^64 := layout.bounded .history

theorem screenBounded : screenAddress + sizeofVideoChar*(80*25 : Nat) ≤ 2^64 := by decide

structure SameScalars (layout : Layout) (m m' : Memory) : Prop where
  videoMemory : layout.videoMemory m' = layout.videoMemory m
  currentConsoleColor : layout.currentConsoleColor m' = layout.currentConsoleColor m
  x : layout.x m' = layout.x m
  y : layout.y m' = layout.y m
  scroll : layout.scroll m' = layout.scroll m

theorem scalarsSame (array : o = .history ∨ o = .screen) (only : Only layout o m m') : SameScalars layout m m' where
  videoMemory := by
    have same := only .videoMemory (by rintro rfl; simp at array)
    exact readWordCongr fun x low high => same x low high
  currentConsoleColor := by
    have same := only .currentConsoleColor (by rintro rfl; simp at array)
    exact same _ (Nat.le_refl _) (Nat.lt_succ_self _)
  x := readUnsignedCongr (only .x (by rintro rfl; simp at array)) ⟨Nat.le_refl _,Nat.le_refl _⟩
  y := readUnsignedCongr (only .y (by rintro rfl; simp at array)) ⟨Nat.le_refl _,Nat.le_refl _⟩
  scroll := readIntCongr (only .scroll (by rintro rfl; simp at array)) ⟨Nat.le_refl _,Nat.le_refl _⟩

theorem holdsCongr (same : SameBytes m m' (layout.address o) o.size) (holds : Holds layout m s o) : Holds layout m' s o := by
  cases o with
  | videoMemory => exact (readWordCongr fun x low high => same x low high).trans holds
  | currentConsoleColor => exact (same _ (Nat.le_refl _) (Nat.lt_succ_self _)).trans holds
  | x | y => exact (readUnsignedCongr same ⟨Nat.le_refl _,Nat.le_refl _⟩).trans holds
  | scroll => exact (readIntCongr same ⟨Nat.le_refl _,Nat.le_refl _⟩).trans holds
  | history => exact fun i low high => (loadCharCongr (historyBounded layout) low high same).trans (holds i low high)
  | screen =>
    rw [layout.screen] at same
    exact fun i low high => (loadCharCongr screenBounded low high same).trans (holds i low high)

theorem heldOnly (rep : Represents layout m s) (only : Only layout o m m')
    (frame : ∀ p, p ≠ o → Holds layout m s p → Holds layout m s' p) (here : Holds layout m' s' o) : Represents layout m' s' := by
  intro p
  by_cases same : p = o
  · exact same ▸ here
  · exact holdsCongr (only p same) (frame p same (rep p))

theorem writeIntOnly (size : o.size = 4) (v : Int) : Only layout o m (writeInt m (layout.address o) v) := by
  refine onlyWithin (a := layout.address o) (k := 4) (by omega) fun x outside => ?_
  exact if_neg outside

theorem setXHeld (rep : Represents layout m s) {v : Nat} (bound : v < 2^32) : Represents layout (layout.setX m v) { s with x := v } := by
  refine heldOnly rep (writeIntOnly (o := .x) rfl v) (fun p other holds => ?_) ?_
  · cases p with
    | x => exact absurd rfl other
    | _ => exact holds
  · exact (readUnsignedSame m _ v).trans (show ((v : Int) % 2^32).toNat = v by omega)

theorem setYHeld (rep : Represents layout m s) {v : Nat} (bound : v < 2^32) : Represents layout (layout.setY m v) { s with y := v } := by
  refine heldOnly rep (writeIntOnly (o := .y) rfl v) (fun p other holds => ?_) ?_
  · cases p with
    | y => exact absurd rfl other
    | _ => exact holds
  · exact (readUnsignedSame m _ v).trans (show ((v : Int) % 2^32).toNat = v by omega)

theorem setScrollHeld (rep : Represents layout m s) {v : Int} (low : -2^31 ≤ v) (high : v < 2^31) :
    Represents layout (layout.setScroll m v) { s with scroll := v } := by
  refine heldOnly rep (writeIntOnly (o := .scroll) rfl v) (fun p other holds => ?_) ?_
  · cases p with
    | scroll => exact absurd rfl other
    | _ => exact holds
  · exact readIntSame m _ low high

theorem storeHistoryHeld (rep : Represents layout m s) (low : 0 ≤ i) (high : i < 80*2500) (c : ConsoleVideoChar) :
    Represents layout (storeChar m layout.history i c) (s.storeHistory i c) := by
  refine heldOnly (o := .history) rep (storeCharOnly (n := 80*2500) rfl low high c) (fun p other holds => ?_) fun j low' high' => ?_
  · cases p with
    | history => exact absurd rfl other
    | _ => exact holds
  · have cell := rep .history j low' high'
    rw [loadStoreChar (historyBounded layout) low high low' high']
    simp only [State.storeHistory,Function.update_apply]
    rw [cell]

theorem storeScreenHeld (rep : Represents layout m s) (low : 0 ≤ i) (high : i < 80*25) (c : ConsoleVideoChar) :
    Represents layout (storeChar m screenAddress i c) (s.storeVideo i c) := by
  have only : Only layout .screen m (storeChar m (layout.address .screen) i c) := storeCharOnly (n := 80*25) rfl low high c
  rw [layout.screen] at only
  refine heldOnly rep only (fun p other holds => ?_) fun j low' high' => ?_
  · cases p with
    | screen => exact absurd rfl other
    | _ => exact holds
  · have cell := rep .screen j low' high'
    rw [loadStoreChar screenBounded low high low' high']
    simp only [State.storeVideo,Function.update_apply]
    rw [cell]

end

end Kokos.ConsoleMemory

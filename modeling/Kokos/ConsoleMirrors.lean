import Kokos.ConsoleMemory

/-! The calls over the memory against the calls over arrays that lie apart, and for how long
the screen mirrors the history. -/
namespace Kokos.ConsoleMemory
open ByteMemory CountedLoops TransitionRuns Console

section
variable {layout : Layout} {m m' : Memory} {s t : State} {es : List Call}

theorem updateScreenOnly (pointer : layout.videoMemory m = screenAddress) : Only layout .screen m (layout.consoleUpdateScreen m) := by
  refine countRule (I := fun _ t => Only layout .screen m t) (onlySelf layout .screen m) fun iy t row before => ?_
  refine countRule (I := fun _ t => Only layout .screen m t) before fun ix t column only => onlyTrans only ?_
  rw [(scalarsSame (Or.inr rfl) only).videoMemory,pointer,← layout.screen]
  unfold consoleVisibleHeight at row
  unfold consoleBufferWidth at column ⊢
  exact storeCharOnly (n := 80*25) rfl (by omega) (by omega) _

theorem accessesHeld {accesses : List Access} (rep : Represents layout m s) : Represents layout m { s with accesses } := by
  intro o
  have holds := rep o
  cases o <;> exact holds

def Stays (layout : Layout) (scroll : Int) (m : Memory) (s : State) : Prop := Represents layout m s ∧ s.scroll = scroll

theorem copyCellHeld {scroll : Int} {ix iy : Nat} (stays : Stays layout scroll m s) (low : 0 ≤ scroll) (window : scroll ≤ 2475)
    (row : iy < 25) (column : ix < 80) :
    Stays layout scroll
      (storeChar m (layout.videoMemory m) (ix + iy*(80 : Nat)) (loadChar m layout.history (ix + (iy + layout.scroll m)*(80 : Nat))))
      (s.copyCell (ix + iy*(80 : Nat)) (ix + (iy + s.scroll)*(80 : Nat))) := by
  obtain ⟨rep,rfl⟩ := stays
  have pointer : layout.videoMemory m = screenAddress := rep .videoMemory
  have scroll : layout.scroll m = s.scroll := rep .scroll
  rw [pointer,scroll,rep .history (ix + (iy + s.scroll)*(80 : Nat)) (by omega) (by omega)]
  exact ⟨storeScreenHeld (accessesHeld rep) (by omega) (by omega) _,rfl⟩

theorem updateScreenHeld (rep : Represents layout m s) (low : 0 ≤ s.scroll) (window : s.scroll ≤ 2475) :
    Represents layout (layout.consoleUpdateScreen m) (consoleUpdateScreen s) := by
  have rows : Stays layout s.scroll (layout.consoleUpdateScreen m) (consoleUpdateScreen s) := by
    refine countRelated ⟨rep,rfl⟩ fun iy m t row before => ?_
    refine countRelated before fun ix m t column stays => ?_
    exact copyCellHeld stays low window row column
  exact rows.1

theorem clearHistoryHeld (rep : Represents layout m s) : Represents layout (layout.clearHistory m) (clearHistory s) := by
  refine countRelated rep fun ix m t column before => countRelated before fun iy m t row rep => ?_
  unfold consoleBufferHeight at row
  unfold consoleBufferWidth at column ⊢
  exact storeHistoryHeld rep (by omega) (by omega) ⟨0,0⟩

theorem topHeld (rep : Represents layout m s) :
    Represents layout (layout.setScroll (layout.setY (layout.setX m 0) 0) 0) { s with x := 0, y := 0, scroll := 0 } :=
  setScrollHeld (setYHeld (setXHeld rep (v := 0) (by decide)) (v := 0) (by decide)) (v := 0) (by decide) (by decide)

theorem clearHeld (rep : Represents layout m s) : Represents layout (layout.consoleClear m) (consoleClear s) :=
  updateScreenHeld (topHeld (clearHistoryHeld rep)) (Int.le_refl 0) (show (0 : Int) ≤ 2475 by decide)

/-! The two conditions of console_new_line, each with what depends on it. -/

def wipeFull (s : State) : State := if consoleBufferHeight ≤ s.y then consoleClear s else s

def startLine (s : State) : State :=
  if unsigned (s.scroll + consoleVisibleHeight) ≤ s.y ∧ s.scroll < (consoleBufferHeight : Int) - 1 then
    consoleUpdateScreen { s with x := 0, scroll := s.scroll + 1 }
  else { s with x := 0 }

def Layout.wipeFull (layout : Layout) (m : Memory) : Memory := if consoleBufferHeight ≤ layout.y m then layout.consoleClear m else m

def Layout.startLine (layout : Layout) (m : Memory) : Memory :=
  let m := layout.setX m 0
  if unsigned (layout.scroll m + consoleVisibleHeight) ≤ layout.y m ∧ layout.scroll m < (consoleBufferHeight : Int) - 1 then
    layout.consoleUpdateScreen (layout.setScroll m (layout.scroll m + 1))
  else m

theorem newLineParts (s : State) : consoleNewLine s = startLine (wipeFull { s with y := (s.y+1) % 2^32 }) := rfl

theorem newLinePartsAt (layout : Layout) (m : Memory) :
    layout.consoleNewLine m = layout.startLine (layout.wipeFull (layout.setY m (layout.y m + 1 : Nat))) := rfl

theorem startLineHeld (rep : Represents layout m s) (y : s.y < 2500) (low : 0 ≤ s.scroll) (window : s.scroll ≤ 2475) :
    Represents layout (layout.startLine m) (startLine s) := by
  have home := setXHeld rep (v := 0) (by decide)
  have scroll : layout.scroll (layout.setX m 0) = s.scroll := home .scroll
  have line : layout.y (layout.setX m 0) = s.y := home .y
  have bottom : (unsigned (s.scroll + (25 : Nat)) : Int) = s.scroll+25 := unsignedOf (by omega) (by omega)
  unfold Layout.startLine startLine consoleVisibleHeight
  dsimp only
  rw [scroll,line]
  split
  · next under => exact updateScreenHeld (setScrollHeld home (by omega) (by omega)) (by dsimp only; omega) (by dsimp only; omega)
  · exact home

theorem wipeFullHeld (rep : Represents layout m s) (y : s.y ≤ 2500) (low : 0 ≤ s.scroll) (window : s.scroll ≤ 2475) :
    Represents layout (layout.wipeFull m) (wipeFull s) ∧ Whole (wipeFull s) ∧ 0 ≤ (wipeFull s).scroll := by
  unfold Layout.wipeFull wipeFull
  rw [show layout.y m = s.y from rep .y]
  split
  · obtain ⟨_,y,scroll⟩ := clearCursor s
    exact ⟨clearHeld rep,⟨by omega,by omega⟩,by omega⟩
  · next room =>
    unfold consoleBufferHeight at room
    exact ⟨rep,⟨window,by omega⟩,low⟩

theorem newLineHeld (rep : Represents layout m s) (y : s.y < 2500) (low : 0 ≤ s.scroll) (window : s.scroll ≤ 2475) :
    Represents layout (layout.consoleNewLine m) (consoleNewLine s) := by
  have moved := setYHeld rep (v := s.y+1) (by omega)
  rw [newLineParts,newLinePartsAt,Nat.mod_eq_of_lt (by omega),show layout.y m = s.y from rep .y]
  obtain ⟨wiped,whole,low⟩ := wipeFullHeld moved y low window
  exact startLineHeld wiped whole.y low whole.scroll

/-! The same of console_print_char. -/

def Layout.putHistory (layout : Layout) (m : Memory) (c : UInt8) : Memory :=
  let m := storeField m layout.history (layout.historyIndex m) charater c
  storeField m layout.history (layout.historyIndex m) color (layout.currentConsoleColor m)

def Layout.putScreen (layout : Layout) (m : Memory) (c : UInt8) : Memory :=
  let m := storeField m (layout.videoMemory m) (layout.screenIndex m) charater c
  storeField m (layout.videoMemory m) (layout.screenIndex m) color (layout.currentConsoleColor m)

def showChar (c : UInt8) (s : State) : State :=
  if s.scroll ≤ s.y ∧ s.y < s.scroll+2500 then s.storeVideo (s.x + (s.y-s.scroll)*80) ⟨c,s.currentConsoleColor⟩ else s

def Layout.showChar (layout : Layout) (m : Memory) (c : UInt8) : Memory :=
  if unsigned (layout.scroll m) ≤ layout.y m ∧ layout.y m < unsigned (layout.scroll m + consoleBufferHeight) then layout.putScreen m c
  else m

def Layout.putChar (layout : Layout) (m : Memory) (c : UInt8) : Memory :=
  let m := layout.showChar (layout.putHistory m c) c
  layout.setX m (layout.x m + 1 : Nat)

theorem putCharParts (c : UInt8) (s : State) : putChar c s =
    { showChar c (s.storeHistory (s.x + s.y*80) ⟨c,s.currentConsoleColor⟩) with
      x := (showChar c (s.storeHistory (s.x + s.y*80) ⟨c,s.currentConsoleColor⟩)).x + 1 } := rfl

theorem printCharParts (layout : Layout) (m : Memory) {c : UInt8} (other : c ≠ newline) : layout.consolePrintChar m c =
    if consoleBufferWidth ≤ layout.x (layout.putChar m c) then layout.consoleNewLine (layout.putChar m c) else layout.putChar m c :=
  if_neg other

theorem historyIndexOf (rep : Represents layout m s) (ranges : Ranges s) : layout.historyIndex m = s.x + s.y*80 := by
  have x := ranges.x
  have y := ranges.y
  unfold Layout.historyIndex consoleBufferWidth
  rw [show layout.x m = s.x from rep .x,show layout.y m = s.y from rep .y]
  omega

theorem screenIndexOf (rep : Represents layout m s) (ranges : Ranges s) (below : s.scroll ≤ s.y) :
    layout.screenIndex m = s.x + (s.y-s.scroll)*80 := by
  have x := ranges.x
  have y := ranges.y
  have low := ranges.low
  have row : (unsigned (s.y-s.scroll) : Int) = s.y-s.scroll := unsignedOf (by omega) (by omega)
  unfold Layout.screenIndex consoleBufferWidth
  rw [show layout.x m = s.x from rep .x,show layout.y m = s.y from rep .y,show layout.scroll m = s.scroll from rep .scroll]
  omega

theorem putHistoryChar {i : Int} {c : UInt8} (index : layout.historyIndex m = i)
    (same : SameScalars layout m (storeField m layout.history i charater c)) :
    layout.putHistory m c = storeChar m layout.history i ⟨c,layout.currentConsoleColor m⟩ := by
  subst index
  have again : layout.historyIndex (storeField m layout.history (layout.historyIndex m) charater c) = layout.historyIndex m := by
    unfold Layout.historyIndex at same ⊢
    rw [same.x,same.y]
  unfold Layout.putHistory
  dsimp only
  rw [again,same.currentConsoleColor]
  rfl

theorem putScreenChar {i : Int} {c : UInt8} (pointer : layout.videoMemory m = screenAddress) (index : layout.screenIndex m = i)
    (same : SameScalars layout m (storeField m screenAddress i charater c)) :
    layout.putScreen m c = storeChar m screenAddress i ⟨c,layout.currentConsoleColor m⟩ := by
  subst index
  have again : layout.screenIndex (storeField m screenAddress (layout.screenIndex m) charater c) = layout.screenIndex m := by
    unfold Layout.screenIndex at same ⊢
    rw [same.x,same.y,same.scroll]
  unfold Layout.putScreen
  dsimp only
  rw [pointer,again,same.currentConsoleColor,same.videoMemory,pointer]
  rfl

theorem putHistoryHeld (rep : Represents layout m s) (ranges : Ranges s) (y : s.y < 2500) (c : UInt8) :
    Represents layout (layout.putHistory m c) (s.storeHistory (s.x + s.y*80) ⟨c,s.currentConsoleColor⟩) := by
  have x := ranges.x
  have only : Only layout .history m (storeField m layout.history (s.x + s.y*80) charater c) :=
    storeFieldOnly (n := 80*2500) rfl (by omega) (by omega) (by decide) c
  rw [putHistoryChar (historyIndexOf rep ranges) (scalarsSame (Or.inl rfl) only),show layout.currentConsoleColor m = _ from rep .currentConsoleColor]
  exact storeHistoryHeld rep (by omega) (by omega) ⟨c,s.currentConsoleColor⟩

theorem putScreenHeld (rep : Represents layout m s) (ranges : Ranges s) (below : s.scroll ≤ s.y) (ahead : Ahead s) (c : UInt8) :
    Represents layout (layout.putScreen m c) (s.storeVideo (s.x + (s.y-s.scroll)*80) ⟨c,s.currentConsoleColor⟩) := by
  have x := ranges.x
  unfold Ahead at ahead
  have only : Only layout .screen m (storeField m (layout.address .screen) (s.x + (s.y-s.scroll)*80) charater c) :=
    storeFieldOnly (n := 80*25) rfl (by omega) (by omega) (by decide) c
  rw [layout.screen] at only
  rw [putScreenChar (rep .videoMemory) (screenIndexOf rep ranges below) (scalarsSame (Or.inr rfl) only),
    show layout.currentConsoleColor m = _ from rep .currentConsoleColor]
  exact storeScreenHeld rep (by omega) (by omega) ⟨c,s.currentConsoleColor⟩

theorem showCharHeld (rep : Represents layout m s) (ranges : Ranges s) (ahead : Ahead s) (c : UInt8) :
    Represents layout (layout.showChar m c) (showChar c s) ∧ (showChar c s).x = s.x := by
  have low := ranges.low
  have high := ranges.high
  have top : (unsigned s.scroll : Int) = s.scroll := unsignedOf (by omega) (by omega)
  have bottom : (unsigned (s.scroll + (25*100 : Nat)) : Int) = s.scroll+2500 := unsignedOf (by omega) (by omega)
  unfold Layout.showChar showChar consoleBufferHeight
  rw [show layout.scroll m = s.scroll from rep .scroll,show layout.y m = s.y from rep .y]
  by_cases shown : s.scroll ≤ s.y ∧ (s.y : Int) < s.scroll+2500
  · rw [if_pos (by omega),if_pos shown]
    exact ⟨putScreenHeld rep ranges shown.1 ahead c,rfl⟩
  · rw [if_neg (by omega),if_neg shown]
    exact ⟨rep,rfl⟩

theorem putCharHeld (rep : Represents layout m s) (ranges : Ranges s) (y : s.y < 2500) (ahead : Ahead s) (c : UInt8) :
    Represents layout (layout.putChar m c) (putChar c s) := by
  have x := ranges.x
  obtain ⟨shown,column⟩ := showCharHeld (putHistoryHeld rep ranges y c) ⟨x,ranges.y,ranges.low,ranges.high⟩ ahead c
  unfold Layout.putChar
  rw [putCharParts]
  generalize showChar c (s.storeHistory (s.x + s.y*80) ⟨c,s.currentConsoleColor⟩) = t at shown column
  have column : t.x = s.x := column
  dsimp only
  rw [show layout.x (layout.showChar (layout.putHistory m c) c) = t.x from shown .x]
  exact setXHeld shown (v := t.x+1) (by omega)

theorem printCharHeld (rep : Represents layout m s) (kept : Kept s) (whole : Whole s) {c : UInt8} (visible : c = newline ∨ Ahead s) :
    Represents layout (layout.consolePrintChar m c) (consolePrintChar c s) := by
  by_cases line : c = newline
  · unfold Layout.consolePrintChar consolePrintChar
    rw [if_pos line,if_pos line]
    exact newLineHeld rep whole.y kept.ranges.low whole.scroll
  · have put := putCharHeld rep kept.ranges whole.y (visible.resolve_left line) c
    obtain ⟨x,y,scroll⟩ := putCharFrame c s
    have column : layout.x (layout.putChar m c) = s.x+1 := (put .x).trans x
    rw [printCharParts layout m line,printCharCases kept.ranges line,column]
    unfold consoleBufferWidth
    split
    · exact newLineHeld put (y ▸ whole.y) (scroll ▸ kept.ranges.low) (scroll ▸ whole.scroll)
    · exact put

theorem printHeld {str : List UInt8} (rep : Represents layout m s) (kept : Kept s) (whole : Whole s) (fits : FitsText s str) :
    Represents layout (layout.consolePrint str m) (consolePrint str s) := by
  induction str generalizing m s with
  | nil => exact rep
  | cons c str ih =>
    unfold Layout.consolePrint consolePrint
    split
    · exact rep
    · next proper =>
      obtain ⟨visible,rest⟩ := (fitsCons kept whole proper).mp fits
      exact ih (printCharHeld rep kept whole visible) (printCharKept kept c) (printCharWhole kept.ranges whole c).1 rest

/-! The other calls. -/

theorem setColorHeld (rep : Represents layout m s) (foreground background : UInt8) :
    Represents layout (layout.consoleSetColor m foreground background) (consoleSetColor foreground background s) := by
  refine heldOnly (o := .currentConsoleColor) rep ?_ (fun p other holds => ?_) ?_
  · refine onlyWithin (a := layout.address .currentConsoleColor) (k := 1) ⟨Nat.le_refl _,Nat.le_refl _⟩ fun x outside => ?_
    exact Function.update_of_ne (by omega) _ _
  · cases p with
    | currentConsoleColor => exact absurd rfl other
    | _ => exact holds
  · exact Function.update_self _ _ _

theorem setCursorHeld (rep : Represents layout m s) {x y : Nat} (column : x < 80) :
    Represents layout (layout.consoleSetCursor m x y) (consoleSetCursor x y s) := by
  have moved := setXHeld rep (v := x) (by omega)
  unfold Layout.consoleSetCursor consoleSetCursor
  dsimp only
  rw [show layout.scroll (layout.setX m x) = s.scroll from moved .scroll]
  exact setYHeld moved (v := unsigned (y + s.scroll)) (by unfold unsigned; omega)

def Layout.clampScroll (layout : Layout) (m : Memory) (amount : Int) : Memory :=
  let m := layout.setScroll m (layout.scroll m + amount)
  if layout.scroll m < 0 then layout.setScroll m 0
  else if (consoleBufferHeight : Int) ≤ layout.scroll m then layout.setScroll m ((consoleBufferHeight : Int) - 1)
  else m

theorem scrollParts (layout : Layout) (m : Memory) (amount : Int) :
    layout.consoleScroll m amount = layout.consoleUpdateScreen (layout.clampScroll m amount) := rfl

theorem clampScrollHeld (rep : Represents layout m s) {amount : Int} (low : -2^31 ≤ s.scroll + amount) (high : s.scroll + amount < 2^31) :
    Represents layout (layout.clampScroll m amount) { s with scroll := max 0 (min (s.scroll + amount) 2499) } := by
  have moved := setScrollHeld rep low high
  unfold Layout.clampScroll consoleBufferHeight
  dsimp only
  rw [show layout.scroll m = s.scroll from rep .scroll,show layout.scroll (layout.setScroll m (s.scroll + amount)) = _ from moved .scroll]
  dsimp only
  by_cases above : s.scroll + amount < 0
  · rw [if_pos above,show max 0 (min (s.scroll + amount) 2499) = 0 by omega]
    exact setScrollHeld moved (by decide) (by decide)
  · rw [if_neg above]
    by_cases below : ((25*100 : Nat) : Int) ≤ s.scroll + amount
    · rw [if_pos below,show max 0 (min (s.scroll + amount) 2499) = 2499 by omega]
      exact setScrollHeld moved (by decide) (by decide)
    · rw [if_neg below,show max 0 (min (s.scroll + amount) 2499) = s.scroll + amount by omega]
      exact moved

theorem scrollWindow (rep : Represents layout m s) {amount : Int} (low : -2^31 ≤ s.scroll + amount) (high : s.scroll + amount < 2^31) :
    layout.scroll (layout.consoleScroll m amount) = max 0 (min (s.scroll + amount) 2499) := by
  have clamped := clampScrollHeld rep low high
  rw [scrollParts,(scalarsSame (Or.inr rfl) (updateScreenOnly (clamped .videoMemory))).scroll]
  exact clamped .scroll

theorem scrollHeld (rep : Represents layout m s) {amount : Int} (low : -2^31 ≤ s.scroll + amount) (high : s.scroll + amount < 2^31)
    (window : s.scroll + amount ≤ 2475) : Represents layout (layout.consoleScroll m amount) (consoleScroll amount s) := by
  rw [scrollParts,scrollEq]
  refine updateScreenHeld (clampScrollHeld rep low high) (Int.le_max_left _ _) ?_
  dsimp only
  omega

/-! The runs. -/

def Windowed (layout : Layout) (m : Memory) : Call → Prop
  | .print str => ∀ part, part <+: str → layout.scroll (layout.consolePrint part m) ≤ 2475
  | call => layout.scroll (layout.execute m call) ≤ 2475

def Visible (layout : Layout) (m : Memory) : Call → Prop
  | .printChar c => c = newline ∨ Ahead (layout.viewed m)
  | .print str => FitsText (layout.viewed m) str
  | _ => True

theorem allowedHeld (rep : Represents layout m s) {call : Call} : layout.Allowed m call ↔ Allowed s call := by
  cases call with
  | scroll amount =>
    unfold Layout.Allowed
    rw [show layout.scroll m = s.scroll from rep .scroll]
    rfl
  | _ => exact Iff.rfl

theorem visibleFits (rep : Represents layout m s) {call : Call} (allowed : layout.Allowed m call) (windowed : Windowed layout m call)
    (visible : Visible layout m call) : Fits s call := by
  have y : layout.y m = s.y := rep .y
  have scroll : layout.scroll m = s.scroll := rep .scroll
  cases call with
  | printChar c =>
    simp only [Visible,Ahead,Layout.viewed,y,scroll] at visible
    exact visible
  | print str =>
    simp only [Visible,FitsText,Ahead,Layout.viewed,y,scroll] at visible
    exact visible
  | scroll amount =>
    have range := (allowedHeld rep).mp allowed
    simp only [Windowed,Layout.execute,scrollWindow rep range.1 range.2] at windowed
    show s.scroll + amount ≤ 2475
    omega
  | _ => trivial

theorem executeHeld (rep : Represents layout m s) (kept : Kept s) (whole : Whole s) {call : Call} (allowed : Allowed s call)
    (fits : Fits s call) : Represents layout (layout.execute m call) (execute s call) := by
  cases call <;> simp only [Layout.execute,execute]
  case printChar c => exact printCharHeld rep kept whole fits
  case print str => exact printHeld rep kept whole fits
  case newLine => exact newLineHeld rep whole.y kept.ranges.low whole.scroll
  case clear => exact clearHeld rep
  case setColor foreground background => exact setColorHeld rep foreground background
  case setCursor x y => exact setCursorHeld rep allowed.1
  case scroll amount => exact scrollHeld rep allowed.1 allowed.2 fits

theorem visibleRun (run : (layout.system.restrict fun m call => Windowed layout m call ∧ Visible layout m call).Run es m) :
    ∃ s, Represents layout m s ∧ Kept s ∧ Whole s := by
  refine invariant (I := fun m => ∃ s, Represents layout m s ∧ Kept s ∧ Whole s) ?_ ?_ run
  · rintro m ⟨m0,pointer,rfl⟩
    obtain ⟨_,y,scroll⟩ := clearCursor (layout.viewed m0)
    exact ⟨_,clearHeld (viewedHeld pointer),⟨clearRanges _,clearMirrors _⟩,⟨by omega,by omega⟩⟩
  · rintro m call m' ⟨s,rep,kept,whole⟩ ⟨⟨windowed,visible⟩,allowed,rfl⟩
    have fits := visibleFits rep allowed windowed visible
    have allowed := (allowedHeld rep).mp allowed
    exact ⟨_,executeHeld rep kept whole allowed fits,executeKept kept allowed,executeWhole kept whole allowed fits⟩

def Mirroring (layout : Layout) (m : Memory) : Prop := ∀ ix iy : Nat, ix < 80 → iy < 25 →
  (0 ≤ ix + (iy + layout.scroll m)*80 ∧ ix + (iy + layout.scroll m)*80 < 80*2500) ∧
  loadChar m (layout.videoMemory m) (ix + iy*80 : Nat) = loadChar m layout.history (ix + (iy + layout.scroll m)*80)

theorem screenMirrors (run : (layout.system.restrict fun m call => Windowed layout m call ∧ Visible layout m call).Run es m) :
    Mirroring layout m := by
  obtain ⟨s,rep,kept,whole⟩ := visibleRun run
  have low := kept.ranges.low
  have window := whole.scroll
  intro ix iy column row
  rw [show layout.scroll m = s.scroll from rep .scroll,show layout.videoMemory m = screenAddress from rep .videoMemory]
  have cell := rep .screen (ix + iy*80 : Nat) (by omega) (by omega)
  have shown := rep .history (ix + (iy + s.scroll)*80) (by omega) (by omega)
  refine ⟨by omega,?_⟩
  rw [cell,shown,kept.mirrors _ (by omega) (by omega)]
  congr 1
  omega

theorem windowedCall {call : Call} (single : ∀ str, call ≠ .print str) (windowed : layout.scroll (layout.execute m call) ≤ 2475) :
    Windowed layout m call := by
  cases call with
  | print str => exact absurd rfl (single str)
  | _ => exact windowed

structure Reached (layout : Layout) (es : List Call) (m : Memory) (s : State) : Prop where
  run : (layout.system.restrict (Windowed layout)).Run es m
  rep : Represents layout m s
  kept : Kept s
  whole : Whole s

theorem reachedClear (pointer : layout.videoMemory m = screenAddress) :
    Reached layout [] (layout.consoleClear m) (consoleClear (layout.viewed m)) := by
  obtain ⟨_,y,scroll⟩ := clearCursor (layout.viewed m)
  exact ⟨.start ⟨m,pointer,rfl⟩,clearHeld (viewedHeld pointer),⟨clearRanges _,clearMirrors _⟩,⟨by omega,by omega⟩⟩

theorem reachedCall (reached : Reached layout es m s) (call : Call) (single : ∀ str, call ≠ .print str) (allowed : Allowed s call)
    (fits : Fits s call) : Reached layout (call::es) (layout.execute m call) (execute s call) := by
  obtain ⟨run,rep,kept,whole⟩ := reached
  have after := executeHeld rep kept whole allowed fits
  have inside := executeWhole kept whole allowed fits
  have windowed : layout.scroll (layout.execute m call) ≤ 2475 := by
    rw [show layout.scroll (layout.execute m call) = (execute s call).scroll from after .scroll]
    exact inside.scroll
  exact ⟨.step run ⟨windowedCall single windowed,(allowedHeld rep).mpr allowed,rfl⟩,after,executeKept kept allowed,inside⟩

/-! What is printed below the window goes past the screen. -/

theorem fieldAddressOver {array array' : Nat} {i k : Int} {field : Nat} (shift : (array' : Int) = array + sizeofVideoChar*k) :
    fieldAddress array i field = fieldAddress array' (i-k) field := by
  unfold fieldAddress
  unfold sizeofVideoChar at *
  rw [shift]
  congr 2
  omega

theorem strayHeld (rep : Represents layout m s) (ranges : Ranges s) (below : s.scroll ≤ s.y) (row : s.y < s.scroll+2500) {k : Int}
    (shift : (layout.history : Int) = screenAddress + sizeofVideoChar*k) (first : k ≤ s.x + (s.y-s.scroll)*80)
    (last : s.x + (s.y-s.scroll)*80 < k + 80*2500) (c : UInt8) :
    Represents layout (layout.showChar m c) (s.storeHistory (s.x + (s.y-s.scroll)*80 - k) ⟨c,s.currentConsoleColor⟩) := by
  have low := ranges.low
  have high := ranges.high
  have top : (unsigned s.scroll : Int) = s.scroll := unsignedOf (by omega) (by omega)
  have bottom : (unsigned (s.scroll + (25*100 : Nat)) : Int) = s.scroll+2500 := unsignedOf (by omega) (by omega)
  have only : Only layout .history m (storeField m layout.history (s.x + (s.y-s.scroll)*80 - k) charater c) :=
    storeFieldOnly (n := 80*2500) rfl (by omega) (by omega) (by decide) c
  have same := scalarsSame (Or.inl rfl) only
  unfold storeField at same
  rw [← fieldAddressOver shift] at same
  unfold Layout.showChar consoleBufferHeight
  rw [show layout.scroll m = s.scroll from rep .scroll,show layout.y m = s.y from rep .y,if_pos (by omega),
    putScreenChar (rep .videoMemory) (screenIndexOf rep ranges below) same,show layout.currentConsoleColor m = _ from rep .currentConsoleColor]
  have stored := storeHistoryHeld rep (i := s.x + (s.y-s.scroll)*80 - k) (by omega) (by omega) ⟨c,s.currentConsoleColor⟩
  unfold storeChar storeField at stored ⊢
  rwa [fieldAddressOver shift,fieldAddressOver shift]

theorem strayBreaks (rep : Represents layout m s) (kept : Kept s) (whole : Whole s) (top : s.scroll = 0) (room : s.x+1 < 80) {k : Int} {j : Nat}
    (shift : (layout.history : Int) = screenAddress + sizeofVideoChar*k) (hit : (s.x + s.y*80 : Int) - k = j) (inside : j < 80*25)
    (blank : s.history j = ⟨0,0⟩) {c : UInt8} (other : c ≠ newline) (proper : c ≠ 0) :
    layout.scroll (layout.consolePrintChar m c) = 0 ∧ ¬ Mirroring layout (layout.consolePrintChar m c) := by
  have y := whole.y
  have written := putHistoryHeld rep kept.ranges y c
  have stray := strayHeld written ⟨kept.ranges.x,kept.ranges.y,kept.ranges.low,kept.ranges.high⟩
    (show s.scroll ≤ s.y by omega) (show (s.y : Int) < s.scroll+2500 by omega) shift
    (show k ≤ s.x + (s.y-s.scroll)*80 by omega) (show s.x + (s.y-s.scroll)*80 < k + 80*2500 by omega) c
  have column : layout.x (layout.showChar (layout.putHistory m c) c) = s.x := stray .x
  have put := setXHeld stray (v := s.x+1) (by omega)
  rw [← column] at put
  have here : (s.x + (s.y-s.scroll)*80 - k : Int) = j := by omega
  change Represents layout (layout.putChar m c) { (s.storeHistory _ _).storeHistory (s.x + (s.y-s.scroll)*80 - k) _ with x := _ } at put
  rw [here] at put
  have narrow : ¬ consoleBufferWidth ≤ layout.x (layout.putChar m c) := by
    rw [show layout.x (layout.putChar m c) = layout.x (layout.showChar (layout.putHistory m c) c) + 1 from put .x,column]
    unfold consoleBufferWidth
    omega
  rw [printCharParts layout m other,if_neg narrow]
  have scroll : layout.scroll (layout.putChar m c) = 0 := (put .scroll).trans top
  refine ⟨scroll,fun mirroring => proper ?_⟩
  have cell := (mirroring (j % 80) (j / 80) (by omega) (by omega)).2
  rw [scroll,show layout.videoMemory (layout.putChar m c) = screenAddress from put .videoMemory,
    show (((j % 80) + (j / 80)*80 : Nat) : Int) = j by omega,show ((j % 80 : Nat) + ((j / 80 : Nat) + 0)*80 : Int) = j by omega,
    put .screen j (by omega) (by omega),put .history j (by omega) (by omega)] at cell
  have shown : s.videoMemory j = s.history j := by
    rw [kept.mirrors j (by omega) (by omega),top,Int.zero_mul,Int.add_zero]
  change s.videoMemory j = (Function.update _ (j : Int) _ : Int → ConsoleVideoChar) j at cell
  rw [shown,blank,Function.update_self] at cell
  exact (congrArg ConsoleVideoChar.charater cell).symm

end

def kernelLayout : Layout where
  address
    | .videoMemory => 0x180000
    | .currentConsoleColor => 0x180008
    | .x => 0x110020
    | .y => 0x110024
    | .scroll => 0x110028
    | .history => 0x110040
    | .screen => screenAddress
  screen := rfl
  bounded o := by cases o <;> decide
  apart o p other := by cases o <;> cases p <;> first | exact absurd rfl other | decide

theorem kernelReached : ∃ m s, Reached kernelLayout [] m s ∧ s.x = 0 ∧ s.y = 0 ∧ s.scroll = 0 ∧ ∀ j : Nat, j < 80*2500 → s.history j = ⟨0,0⟩ := by
  have pointer : kernelLayout.videoMemory (writeWord (fun _ => 0) 0x180000 screenAddress) = screenAddress :=
    readWriteSame _ _ (by decide)
  obtain ⟨x,y,scroll⟩ := clearCursor (kernelLayout.viewed (writeWord (fun _ => 0) 0x180000 screenAddress))
  exact ⟨_,_,reachedClear pointer,x,y,scroll,fun j inside => clearBlank _ (by omega) (by omega)⟩

theorem screenMirrorsChar : ∃ m, (kernelLayout.system.restrict fun m call => Windowed kernelLayout m call ∧ Visible kernelLayout m call).Run
    [.printChar 97] m ∧ Mirroring kernelLayout m := by
  obtain ⟨m0,s0,reached,_,y,scroll,_⟩ := kernelReached
  obtain ⟨run,rep,kept,whole⟩ := reached
  have ahead : Ahead s0 := by
    unfold Ahead
    omega
  have visible : Visible kernelLayout m0 (.printChar 97) := by
    refine Or.inr ?_
    unfold Ahead Layout.viewed at *
    rwa [show kernelLayout.y m0 = s0.y from rep .y,show kernelLayout.scroll m0 = s0.scroll from rep .scroll]
  have windowed : Windowed kernelLayout m0 (.printChar 97) := by
    have after := printCharHeld rep kept whole (c := 97) (Or.inr ahead)
    refine windowedCall nofun ?_
    simp only [Layout.execute]
    rw [show kernelLayout.scroll (kernelLayout.consolePrintChar m0 97) = (consolePrintChar 97 s0).scroll from after .scroll]
    exact (printCharWhole kept.ranges whole 97).1.scroll
  cases run with
  | start first =>
    have run : (kernelLayout.system.restrict fun m call => Windowed kernelLayout m call ∧ Visible kernelLayout m call).Run
        [.printChar 97] (kernelLayout.execute m0 (.printChar 97)) := .step (.start first) ⟨⟨windowed,visible⟩,trivial,rfl⟩
    exact ⟨_,run,screenMirrors run⟩

/-- What is printed 2260 rows below the first one of the window also goes to row 6. -/
theorem strayCharacter : ∃ m, (kernelLayout.system.restrict (Windowed kernelLayout)).Run
    [.printChar 97,.scroll (-2240),.setCursor 0 20,.scroll 2240] m ∧ ¬ Mirroring kernelLayout m := by
  obtain ⟨m0,s0,reached0,_,_,scroll0,blank0⟩ := kernelReached
  have reached1 := reachedCall reached0 (.scroll 2240) nofun
    (show -2^31 ≤ s0.scroll + 2240 ∧ s0.scroll + 2240 < 2^31 by omega) (show s0.scroll + 2240 ≤ 2475 by omega)
  have moved1 : Scrolled s0 2240 (execute s0 (.scroll 2240)) := scrollFrame 2240
  generalize kernelLayout.execute m0 (.scroll 2240) = m1 at reached1
  generalize execute s0 (.scroll 2240) = s1 at reached1 moved1
  obtain ⟨history1,_,_,scroll1⟩ := moved1
  rw [scroll0,show max (0 : Int) (min (0+2240) 2499) = 2240 by decide] at scroll1
  have reached2 := reachedCall reached1 (.setCursor 0 20) nofun (show 0 < 80 ∧ 20 < 25 by decide) trivial
  have y2 : unsigned ((20 : Nat) + s1.scroll) = 2260 := by
    rw [scroll1]
    decide
  change Reached _ _ _ { s1 with x := 0, y := unsigned ((20 : Nat) + s1.scroll) } at reached2
  rw [y2] at reached2
  generalize kernelLayout.execute m1 (.setCursor 0 20) = m2 at reached2
  have reached3 := reachedCall reached2 (.scroll (-2240)) nofun
    (show -2^31 ≤ s1.scroll + -2240 ∧ s1.scroll + -2240 < 2^31 by omega) (show s1.scroll + -2240 ≤ 2475 by omega)
  have moved3 : Scrolled { s1 with x := 0, y := 2260 } (-2240) (execute { s1 with x := 0, y := 2260 } (.scroll (-2240))) := scrollFrame (-2240)
  generalize kernelLayout.execute m2 (.scroll (-2240)) = m3 at reached3
  generalize execute { s1 with x := 0, y := 2260 } (.scroll (-2240)) = s3 at reached3 moved3
  obtain ⟨history3,x3,y3,scroll3⟩ := moved3
  have scroll3 : s3.scroll = max 0 (min (s1.scroll + -2240) 2499) := scroll3
  rw [scroll1,show max (0 : Int) (min (2240 + -2240) 2499) = 0 by decide] at scroll3
  have x3 : s3.x = 0 := x3
  have y3 : s3.y = 2260 := y3
  have blank : s3.history (544 : Nat) = ⟨0,0⟩ := by
    rw [history3,← blank0 544 (by decide),← history1]
  obtain ⟨scroll4,broken⟩ := strayBreaks reached3.rep reached3.kept reached3.whole scroll3 (by omega) (k := 180256) (j := 544)
    (by decide) (by omega) (by decide) blank (c := 97) (by decide) (by decide)
  refine ⟨_,.step reached3.run ⟨windowedCall nofun ?_,trivial,rfl⟩,?_⟩
  · simp only [Layout.execute,scroll4]
    decide
  · simp only [Layout.execute]
    exact broken

end Kokos.ConsoleMemory

import Kokos.Console

/-! What the console calls do to the screen, and which indices they use. -/
namespace Kokos.Console
open CountedLoops TransitionRuns

theorem unsignedOf {v : Int} (low : 0 ≤ v) (high : v < 2^32) : (unsigned v : Int) = v := by
  unfold unsigned
  rw [Int.emod_eq_of_lt low high]
  exact Int.toNat_of_nonneg low

def Access.Inside : Access → Prop
  | .historyRead i => 0 ≤ i ∧ i < consoleBufferWidth*consoleBufferHeight
  | .historyWrite i => 0 ≤ i ∧ i < consoleBufferWidth*consoleBufferHeight
  | .videoWrite i => 0 ≤ i ∧ i < consoleBufferWidth*consoleVisibleHeight

def InBounds (s : State) : Prop := ∀ a ∈ s.accesses, a.Inside

def Mirrors (s : State) : Prop := ∀ i : Int, 0 ≤ i → i < 80*25 → s.videoMemory i = s.history (i + s.scroll*80)

section
variable {s : State}

theorem boundsCons {a : Access} {accesses : List Access} :
    (∀ b ∈ a::accesses, b.Inside) ↔ a.Inside ∧ ∀ b ∈ accesses, b.Inside := List.forall_mem_cons

theorem updateScreenCells : consoleUpdateScreen s = countUp (25*80) (fun k s => s.copyCell k (k + s.scroll*80)) s := by
  rw [← countRows]
  refine countCongr fun iy s => countCongr fun ix s => ?_
  have target : (ix + iy*consoleBufferWidth : Int) = (iy*80+ix : Nat) := by
    unfold consoleBufferWidth
    omega
  have source : (ix + (iy + s.scroll)*consoleBufferWidth : Int) = (iy*80+ix : Nat) + s.scroll*80 := by
    unfold consoleBufferWidth
    omega
  rw [target,source]

structure Shown (s : State) (k : Nat) (t : State) : Prop where
  same : t = { s with
    videoMemory := fun i => if 0 ≤ i ∧ i < k then s.history (i + s.scroll*80) else s.videoMemory i
    accesses := t.accesses }
  bounds : InBounds t ↔ InBounds s ∧ ∀ j < k, (Access.videoWrite j).Inside ∧ (Access.historyRead (j + s.scroll*80)).Inside

theorem shownNext {k : Nat} {t : State} (shown : Shown s k t) : Shown s (k+1) (t.copyCell k (k + t.scroll*80)) where
  same := by
    rw [shown.same]
    simp only [State.copyCell,State.storeVideo,State.mk.injEq,and_true]
    funext i
    by_cases this : i = k
    · subst this
      rw [Function.update_self,if_pos (by omega)]
    · rw [Function.update_of_ne this]
      exact if_congr (by omega) rfl rfl
  bounds := by
    have scroll : t.scroll = s.scroll := by rw [shown.same]
    have cells := Nat.forall_lt_succ_right (p := fun j : Nat =>
      (Access.videoWrite j).Inside ∧ (Access.historyRead (j + s.scroll*80)).Inside) (n := k)
    have before := shown.bounds
    unfold InBounds at before ⊢
    simp only [State.copyCell,State.storeVideo,boundsCons]
    rw [before,scroll,cells]
    tauto

theorem updateScreenShown (s : State) : Shown s (25*80) (consoleUpdateScreen s) := by
  rw [updateScreenCells]
  refine countRule ⟨?_,?_⟩ fun k t _ shown => shownNext shown
  · have empty : ∀ i : Int, ¬ (0 ≤ i ∧ i < (0 : Nat)) := fun i => by omega
    simp only [empty,if_false]
  · exact ⟨fun bounds => ⟨bounds,fun j h => absurd h (Nat.not_lt_zero j)⟩,And.left⟩

theorem updateScreenMirrors (s : State) : Mirrors (consoleUpdateScreen s) := by
  intro i low high
  rw [(updateScreenShown s).same]
  exact if_pos ⟨low,high⟩

theorem updateScreenBounds (s : State) : InBounds (consoleUpdateScreen s) ↔ InBounds s ∧ 0 ≤ s.scroll ∧ s.scroll ≤ 2475 := by
  rw [(updateScreenShown s).bounds,and_congr_right_iff]
  intro _
  simp only [Access.Inside,consoleBufferWidth,consoleBufferHeight,consoleVisibleHeight]
  constructor
  · intro cells
    have first := (cells 0 (by omega)).2
    have last := (cells 1999 (by omega)).2
    omega
  · intro range j inside
    omega

/-! Clearing runs column by column, and within a column row by row. -/

structure Wiped (s : State) (columns rows : Nat) (t : State) : Prop where
  same : t = { s with
    history := fun i => if 0 ≤ i ∧ i < 80*2500 ∧ (i % 80 < columns ∨ i % 80 = columns ∧ i < rows*80) then ⟨0,0⟩ else s.history i
    accesses := t.accesses }
  bounds : InBounds t ↔ InBounds s

theorem wipedNext {columns rows : Nat} {t : State} (left : columns < 80) (below : rows < 2500) (wiped : Wiped s columns rows t) :
    Wiped s columns (rows+1) (t.storeHistory (columns + rows*80) ⟨0,0⟩) where
  same := by
    rw [wiped.same]
    simp only [State.storeHistory,State.mk.injEq,and_true,true_and]
    funext i
    by_cases this : i = columns + rows*80
    · subst this
      rw [Function.update_self,if_pos (by omega)]
    · rw [Function.update_of_ne this]
      exact if_congr (by omega) rfl rfl
  bounds := by
    have inside : (Access.historyWrite (columns + rows*80)).Inside := by
      simp only [Access.Inside,consoleBufferWidth,consoleBufferHeight]
      omega
    have before := wiped.bounds
    unfold InBounds at before ⊢
    simp only [State.storeHistory,boundsCons]
    rw [before,and_iff_right inside]

theorem wipedColumn {columns : Nat} {t : State} (left : columns < 80) (wiped : Wiped s columns 0 t) :
    Wiped s (columns+1) 0 (countUp consoleBufferHeight (fun iy s => s.storeHistory (columns + iy*consoleBufferWidth) ⟨0,0⟩) t) := by
  have column : Wiped s columns consoleBufferHeight
      (countUp consoleBufferHeight (fun iy s => s.storeHistory (columns + iy*consoleBufferWidth) ⟨0,0⟩) t) :=
    countRule wiped fun iy t below wiped => wipedNext left below wiped
  refine ⟨column.same.trans ?_,column.bounds⟩
  simp only [State.mk.injEq,true_and,and_true,consoleBufferHeight]
  funext i
  exact if_congr (by omega) rfl rfl

theorem clearWiped (s : State) : Wiped s 80 0 (clearHistory s) := by
  refine countRule (I := fun ix t => Wiped s ix 0 t) ⟨?_,Iff.rfl⟩ fun ix t left wiped => wipedColumn left wiped
  have empty : ∀ i : Int, ¬ (0 ≤ i ∧ i < 80*2500 ∧ (i % 80 < (0 : Nat) ∨ i % 80 = (0 : Nat) ∧ i < (0 : Nat)*80)) := fun i => by omega
  simp only [empty,if_false]

theorem clearCursor (s : State) : (consoleClear s).x = 0 ∧ (consoleClear s).y = 0 ∧ (consoleClear s).scroll = 0 := by
  unfold consoleClear
  rw [(updateScreenShown _).same]
  exact ⟨rfl,rfl,rfl⟩

theorem clearBlank (s : State) {i : Int} (low : 0 ≤ i) (high : i < 80*2500) : (consoleClear s).history i = ⟨0,0⟩ := by
  unfold consoleClear
  rw [(updateScreenShown _).same,(clearWiped s).same]
  exact if_pos (by omega)

theorem clearMirrors (s : State) : Mirrors (consoleClear s) := updateScreenMirrors _

theorem topBounds (t : State) : InBounds (consoleUpdateScreen { t with x := 0, y := 0, scroll := 0 }) ↔ InBounds t := by
  have top : (0 : Int) ≤ 0 ∧ (0 : Int) ≤ 2475 := by omega
  exact (updateScreenBounds _).trans (and_iff_left top)

theorem clearBounds (s : State) : InBounds (consoleClear s) ↔ InBounds s := (topBounds _).trans (clearWiped s).bounds

/-! The calls. -/

structure Ranges (s : State) : Prop where
  x : s.x < 80
  y : s.y < 2524
  low : 0 ≤ s.scroll
  high : s.scroll ≤ 2499

theorem clearRanges (s : State) : Ranges (consoleClear s) := by
  obtain ⟨x,y,scroll⟩ := clearCursor s
  exact ⟨by omega,by omega,by omega,by omega⟩

inductive NewLine (s : State) : State → Prop where
  | wipe (full : 2500 ≤ s.y+1) : NewLine s { consoleClear { s with y := s.y+1 } with x := 0 }
  | scroll (room : s.y+1 < 2500) (under : s.scroll+25 ≤ s.y+1) :
      NewLine s (consoleUpdateScreen { s with y := s.y+1, x := 0, scroll := s.scroll+1 })
  | move (room : s.y+1 < 2500) (on : s.y+1 < s.scroll+25) : NewLine s { s with y := s.y+1, x := 0 }

theorem newLineCases (y : s.y < 2524) (low : 0 ≤ s.scroll) (high : s.scroll ≤ 2499) : NewLine s (consoleNewLine s) := by
  have next : (s.y+1) % 2^32 = s.y+1 := Nat.mod_eq_of_lt (by omega)
  have under : (unsigned (s.scroll + (25 : Nat)) : Int) = s.scroll+25 := unsignedOf (by omega) (by omega)
  unfold consoleNewLine
  simp only [next,consoleBufferHeight,consoleVisibleHeight]
  by_cases full : 2500 ≤ s.y+1
  · have top := clearCursor { s with y := s.y+1 }
    have wiped := NewLine.wipe full
    rw [if_pos full]
    generalize consoleClear { s with y := s.y+1 } = t at *
    have above : ¬ (unsigned (t.scroll + (25 : Nat)) ≤ t.y ∧ t.scroll < ((25*100 : Nat) : Int) - 1) := by
      rw [top.2.1,top.2.2]
      decide
    rw [if_neg above]
    exact wiped
  · rw [if_neg full]
    dsimp only
    by_cases scrolls : s.scroll+25 ≤ s.y+1
    · rw [if_pos ⟨by omega,by omega⟩]
      exact .scroll (by omega) scrolls
    · rw [if_neg (by omega)]
      exact .move (by omega) (by omega)

/-- The three parts of console_print_char for a character on the screen: the character
goes to the history and, in the source's range, to the screen, and the cursor moves on. -/
def putChar (c : UInt8) (s : State) : State :=
  let s := s.storeHistory (s.x + s.y*80) ⟨c,s.currentConsoleColor⟩
  let s := if s.scroll ≤ s.y ∧ s.y < s.scroll+2500 then s.storeVideo (s.x + (s.y-s.scroll)*80) ⟨c,s.currentConsoleColor⟩ else s
  { s with x := s.x+1 }

theorem printCharCases {c : UInt8} (ranges : Ranges s) (other : c ≠ newline) :
    consolePrintChar c s = if 80 ≤ s.x+1 then consoleNewLine (putChar c s) else putChar c s := by
  have := ranges.x
  have := ranges.y
  have := ranges.low
  have := ranges.high
  have index : (((s.x + s.y*80) % 2^32 : Nat) : Int) = s.x + s.y*80 := by omega
  have onward : (s.x+1) % 2^32 = s.x+1 := Nat.mod_eq_of_lt (by omega)
  have top : (unsigned s.scroll : Int) = s.scroll := unsignedOf (by omega) (by omega)
  have bottom : (unsigned (s.scroll + (25*100 : Nat)) : Int) = s.scroll+2500 := unsignedOf (by omega) (by omega)
  unfold consolePrintChar
  rw [if_neg other]
  simp only [consoleBufferWidth,consoleBufferHeight,State.storeHistory,index]
  by_cases shown : s.scroll ≤ s.y ∧ s.y < s.scroll+2500
  · have row : (unsigned (s.y-s.scroll) : Int) = s.y-s.scroll := unsignedOf (by omega) (by omega)
    have cell : (((s.x + unsigned (s.y-s.scroll)*80) % 2^32 : Nat) : Int) = s.x + (s.y-s.scroll)*80 := by omega
    have inside : unsigned s.scroll ≤ s.y ∧ s.y < unsigned (s.scroll+(25*100 : Nat)) := ⟨by omega,by omega⟩
    simp only [if_pos inside,cell,State.storeVideo,onward,putChar,State.storeHistory,shown,and_self,if_true]
  · have outside : ¬ (unsigned s.scroll ≤ s.y ∧ s.y < unsigned (s.scroll+(25*100 : Nat))) := by omega
    simp only [if_neg outside,onward,putChar,State.storeHistory,shown,if_false]

theorem putCharFrame (c : UInt8) (s : State) : (putChar c s).x = s.x+1 ∧ (putChar c s).y = s.y ∧ (putChar c s).scroll = s.scroll := by
  unfold putChar State.storeHistory State.storeVideo
  dsimp only
  split <;> exact ⟨rfl,rfl,rfl⟩

theorem putCharMirrors {c : UInt8} (ranges : Ranges s) (mirrors : Mirrors s) : Mirrors (putChar c s) := by
  have := ranges.x
  have := ranges.y
  have := ranges.low
  intro i low high
  have before := mirrors i low high
  unfold putChar State.storeHistory State.storeVideo
  dsimp only
  by_cases shown : s.scroll ≤ s.y ∧ s.y < s.scroll+2500
  · simp only [shown,and_self,if_true]
    by_cases here : i = s.x + (s.y-s.scroll)*80
    · subst here
      rw [Function.update_self,show s.x + (s.y-s.scroll)*80 + s.scroll*80 = s.x + s.y*80 by omega,Function.update_self]
    · rw [Function.update_of_ne here,Function.update_of_ne (by omega)]
      exact before
  · -- The character is above the window or below it.
    simp only [shown,if_false]
    rw [Function.update_of_ne (by omega)]
    exact before

theorem putCharBounds {c : UInt8} (ranges : Ranges s) :
    InBounds (putChar c s) ↔ InBounds s ∧ s.y < 2500 ∧ (s.y : Int) < s.scroll+25 := by
  have := ranges.x
  have := ranges.y
  have := ranges.low
  unfold InBounds putChar State.storeHistory State.storeVideo
  dsimp only
  by_cases shown : s.scroll ≤ s.y ∧ s.y < s.scroll+2500
  · simp only [shown,and_self,if_true]
    rw [boundsCons,boundsCons]
    simp only [Access.Inside,consoleBufferWidth,consoleBufferHeight,consoleVisibleHeight]
    constructor
    · rintro ⟨video,history,before⟩
      exact ⟨before,by omega,by omega⟩
    · rintro ⟨before,row,window⟩
      exact ⟨by omega,by omega,before⟩
  · simp only [shown,if_false]
    rw [boundsCons]
    simp only [Access.Inside,consoleBufferWidth,consoleBufferHeight]
    constructor
    · rintro ⟨history,before⟩
      exact ⟨before,by omega,by omega⟩
    · rintro ⟨before,row,window⟩
      exact ⟨by omega,before⟩

structure Kept (s : State) : Prop where
  ranges : Ranges s
  mirrors : Mirrors s

theorem startOfLine {t : State} (ranges : Ranges t) (mirrors : Mirrors t) : Kept { t with x := 0 } :=
  ⟨⟨Nat.zero_lt_succ 79,ranges.y,ranges.low,ranges.high⟩,mirrors⟩

theorem startOfLineBounds (t : State) : InBounds { t with x := 0 } ↔ InBounds t := Iff.rfl

theorem newLineKept {t : State} (y : s.y < 2524) (low : 0 ≤ s.scroll) (high : s.scroll ≤ 2499) (mirrors : Mirrors s)
    (after : NewLine s t) : Kept t := by
  cases after with
  | wipe full => exact startOfLine (clearRanges _) (clearMirrors _)
  | scroll room under =>
    refine ⟨?_,updateScreenMirrors _⟩
    rw [(updateScreenShown _).same]
    exact ⟨Nat.zero_lt_succ 79,show s.y+1 < 2524 by omega,show 0 ≤ s.scroll+1 by omega,show s.scroll+1 ≤ 2499 by omega⟩
  | move room on => exact ⟨⟨Nat.zero_lt_succ 79,show s.y+1 < 2524 by omega,low,high⟩,mirrors⟩

theorem newLineBounds {t : State} (low : 0 ≤ s.scroll) (after : NewLine s t) : InBounds t ↔ InBounds s := by
  cases after with
  | wipe full => exact (startOfLineBounds _).trans (clearBounds { s with y := s.y+1 })
  | scroll room under => exact (updateScreenBounds _).trans (and_iff_left ⟨show 0 ≤ s.scroll+1 by omega,show s.scroll+1 ≤ 2475 by omega⟩)
  | move room on => exact Iff.rfl

theorem printCharAfter (ranges : Ranges s) (c : UInt8) :
    c = newline ∧ NewLine s (consolePrintChar c s) ∨
    c ≠ newline ∧ (NewLine (putChar c s) (consolePrintChar c s) ∨ s.x+1 < 80 ∧ consolePrintChar c s = putChar c s) := by
  by_cases line : c = newline
  · refine Or.inl ⟨line,?_⟩
    unfold consolePrintChar
    rw [if_pos line]
    exact newLineCases ranges.y ranges.low ranges.high
  · refine Or.inr ⟨line,?_⟩
    obtain ⟨_,y,scroll⟩ := putCharFrame c s
    rw [printCharCases ranges line]
    split
    · exact Or.inl (newLineCases (y ▸ ranges.y) (scroll ▸ ranges.low) (scroll ▸ ranges.high))
    · exact Or.inr ⟨by omega,rfl⟩

theorem printCharKept (kept : Kept s) (c : UInt8) : Kept (consolePrintChar c s) := by
  obtain ⟨ranges,mirrors⟩ := kept
  obtain ⟨x,y,scroll⟩ := putCharFrame c s
  rcases printCharAfter ranges c with ⟨_,after⟩ | ⟨_,after | ⟨room,same⟩⟩
  · exact newLineKept ranges.y ranges.low ranges.high mirrors after
  · exact newLineKept (y ▸ ranges.y) (scroll ▸ ranges.low) (scroll ▸ ranges.high) (putCharMirrors ranges mirrors) after
  · rw [same]
    exact ⟨⟨x ▸ room,y ▸ ranges.y,scroll ▸ ranges.low,scroll ▸ ranges.high⟩,putCharMirrors ranges mirrors⟩

theorem printCharBounds (ranges : Ranges s) (c : UInt8) :
    InBounds (consolePrintChar c s) ↔ InBounds s ∧ (c = newline ∨ s.y < 2500 ∧ (s.y : Int) < s.scroll+25) := by
  obtain ⟨_,_,scroll⟩ := putCharFrame c s
  rcases printCharAfter ranges c with ⟨line,after⟩ | ⟨other,after | ⟨_,same⟩⟩
  · rw [newLineBounds ranges.low after,and_iff_left (Or.inl line)]
  · rw [newLineBounds (scroll ▸ ranges.low) after,putCharBounds ranges,or_iff_right other]
  · rw [same,putCharBounds ranges,or_iff_right other]

structure Whole (s : State) : Prop where
  scroll : s.scroll ≤ 2475
  y : s.y < 2500

def Ahead (s : State) : Prop := (s.y : Int) < s.scroll+25

theorem newLineWhole {t : State} (window : s.scroll ≤ 2475) (after : NewLine s t) : Whole t ∧ (Ahead s → Ahead t) := by
  cases after with
  | wipe full =>
    obtain ⟨_,y,scroll⟩ := clearCursor { s with y := s.y+1 }
    generalize consoleClear { s with y := s.y+1 } = t at *
    refine ⟨⟨show t.scroll ≤ 2475 by omega,show t.y < 2500 by omega⟩,fun _ => ?_⟩
    show (t.y : Int) < t.scroll+25
    omega
  | scroll room under =>
    rw [(updateScreenShown _).same]
    refine ⟨⟨show s.scroll+1 ≤ 2475 by omega,room⟩,fun ahead => ?_⟩
    unfold Ahead at ahead ⊢
    show ((s.y+1 : Nat) : Int) < s.scroll+1+25
    omega
  | move room on => exact ⟨⟨window,room⟩,fun _ => on⟩

theorem printCharWhole (ranges : Ranges s) (whole : Whole s) (c : UInt8) :
    Whole (consolePrintChar c s) ∧ (Ahead s → Ahead (consolePrintChar c s)) := by
  obtain ⟨_,y,scroll⟩ := putCharFrame c s
  have ahead : Ahead (putChar c s) ↔ Ahead s := by
    unfold Ahead
    rw [y,scroll]
  rcases printCharAfter ranges c with ⟨_,after⟩ | ⟨_,after | ⟨_,same⟩⟩
  · exact newLineWhole whole.scroll after
  · obtain ⟨whole',onward⟩ := newLineWhole (scroll ▸ whole.scroll) after
    exact ⟨whole',fun before => onward (ahead.mpr before)⟩
  · rw [same]
    exact ⟨⟨scroll ▸ whole.scroll,y ▸ whole.y⟩,ahead.mpr⟩

end

end Kokos.Console

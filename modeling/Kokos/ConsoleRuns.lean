import Kokos.ConsoleCalls

/-! What holds over every run of console calls while the arrays lie apart, and when their
indices are those of the arrays. -/
namespace Kokos.Console
open TransitionRuns

section
variable {s s' : State} {es : List Call}

theorem printKept {str : List UInt8} (kept : Kept s) : Kept (consolePrint str s) := by
  induction str generalizing s with
  | nil => exact kept
  | cons c str ih =>
    unfold consolePrint
    split
    · exact kept
    · exact ih (printCharKept kept c)

theorem setCursorKept {x y : Nat} (kept : Kept s) (column : x < 80) (row : y < 25) : Kept (consoleSetCursor x y s) := by
  have := kept.ranges.low
  have := kept.ranges.high
  have line : (unsigned (y + s.scroll) : Int) = y + s.scroll := unsignedOf (by omega) (by omega)
  exact ⟨⟨column,show unsigned (y + s.scroll) < 2524 by omega,kept.ranges.low,kept.ranges.high⟩,kept.mirrors⟩

theorem scrollEq (amount : Int) : consoleScroll amount s =
    consoleUpdateScreen { s with scroll := max 0 (min (s.scroll + amount) 2499) } := by
  unfold consoleScroll consoleBufferHeight
  dsimp only
  by_cases low : s.scroll + amount < 0
  · rw [if_pos low,show max 0 (min (s.scroll + amount) 2499) = 0 by omega]
  · rw [if_neg low]
    by_cases high : ((25*100 : Nat) : Int) ≤ s.scroll + amount
    · rw [if_pos high,show max 0 (min (s.scroll + amount) 2499) = 2499 by omega]
      rfl
    · rw [if_neg high,show max 0 (min (s.scroll + amount) 2499) = s.scroll + amount by omega]

structure Scrolled (s : State) (amount : Int) (t : State) : Prop where
  history : t.history = s.history
  x : t.x = s.x
  y : t.y = s.y
  scroll : t.scroll = max 0 (min (s.scroll + amount) 2499)

theorem scrollFrame (amount : Int) : Scrolled s amount (consoleScroll amount s) := by
  rw [scrollEq,(updateScreenShown _).same]
  exact ⟨rfl,rfl,rfl,rfl⟩

theorem scrollKept (amount : Int) (kept : Kept s) : Kept (consoleScroll amount s) := by
  rw [scrollEq]
  refine ⟨?_,updateScreenMirrors _⟩
  rw [(updateScreenShown _).same]
  refine ⟨kept.ranges.x,kept.ranges.y,?_,?_⟩
  · exact Int.le_max_left _ _
  · show max 0 (min (s.scroll + amount) 2499) ≤ 2499
    omega

theorem executeKept {call : Call} (kept : Kept s) (allowed : Allowed s call) : Kept (execute s call) := by
  cases call with
  | printChar c => exact printCharKept kept c
  | print str => exact printKept kept
  | newLine =>
    have after := newLineCases kept.ranges.y kept.ranges.low kept.ranges.high
    exact newLineKept kept.ranges.y kept.ranges.low kept.ranges.high kept.mirrors after
  | clear => exact ⟨clearRanges s,clearMirrors s⟩
  | setColor foreground background => exact ⟨⟨kept.ranges.x,kept.ranges.y,kept.ranges.low,kept.ranges.high⟩,kept.mirrors⟩
  | setCursor x y => exact setCursorKept kept allowed.1 allowed.2
  | scroll amount => exact scrollKept amount kept

theorem keptRun (run : system.Run es s) : Kept s := by
  refine invariant ?_ (fun s call s' kept move => ?_) run
  · rintro s ⟨s0,_,rfl⟩
    exact ⟨clearRanges s0,clearMirrors s0⟩
  · rw [move.2]
    exact executeKept kept move.1

def bootState : State where
  videoMemory _ := ⟨0,0⟩
  history _ := ⟨0,0⟩
  currentConsoleColor := 0x0f
  x := 0
  y := 0
  scroll := 0
  accesses := []

/-! The indices. -/

def text (str : List UInt8) : List UInt8 := str.takeWhile (· ≠ 0)

def leadingLines (str : List UInt8) : Nat := ((text str).takeWhile (· = newline)).length

def FitsText (s : State) (str : List UInt8) : Prop :=
  Ahead s ∨ (∀ c ∈ text str, c = newline) ∨ 2500 ≤ s.y + leadingLines str

def Fits (s : State) : Call → Prop
  | .printChar c => c = newline ∨ Ahead s
  | .print str => FitsText s str
  | .scroll amount => s.scroll + amount ≤ 2475
  | _ => True

theorem textCons {c : UInt8} {str : List UInt8} (other : c ≠ 0) : text (c::str) = c::text str :=
  List.takeWhile_cons_of_pos (by simpa using other)

theorem leadingNewline (str : List UInt8) : leadingLines (newline::str) = leadingLines str + 1 := by
  unfold leadingLines
  rw [textCons (by decide),List.takeWhile_cons_of_pos (by simp),List.length_cons]

theorem leadingOther {c : UInt8} {str : List UInt8} (other : c ≠ newline) (proper : c ≠ 0) : leadingLines (c::str) = 0 := by
  unfold leadingLines
  rw [textCons proper,List.takeWhile_cons_of_neg (by simpa using other)]
  rfl

theorem fitsNewline {t : State} {str : List UInt8} (behind : ¬ Ahead s) (after : NewLine s t) :
    FitsText t str ↔ FitsText s (newline::str) := by
  unfold FitsText
  rw [textCons (by decide),leadingNewline,List.forall_mem_cons,or_iff_right behind,and_iff_right rfl]
  unfold Ahead at behind
  cases after with
  | wipe full =>
    obtain ⟨_,y,scroll⟩ := clearCursor { s with y := s.y+1 }
    generalize consoleClear { s with y := s.y+1 } = t at *
    have ahead : Ahead { t with x := 0 } := by
      show (t.y : Int) < t.scroll+25
      omega
    exact ⟨fun _ => Or.inr (by omega),fun _ => Or.inl ahead⟩
  | scroll room under =>
    rw [(updateScreenShown _).same]
    have below : ¬ ((s.y+1 : Nat) : Int) < s.scroll+1+25 := by omega
    have same : s.y+1 + leadingLines str = s.y + (leadingLines str + 1) := by omega
    show ((s.y+1 : Nat) : Int) < s.scroll+1+25 ∨ _ ∨ 2500 ≤ s.y+1 + leadingLines str ↔ _
    rw [or_iff_right below,same]
  | move room on => exact absurd (show (s.y : Int) < s.scroll+25 by omega) behind

theorem fitsCons {c : UInt8} {str : List UInt8} (kept : Kept s) (whole : Whole s) (proper : c ≠ 0) :
    FitsText s (c::str) ↔ (c = newline ∨ Ahead s) ∧ FitsText (consolePrintChar c s) str := by
  by_cases ahead : Ahead s
  · have onward := (printCharWhole kept.ranges whole c).2 ahead
    exact ⟨fun _ => ⟨Or.inr ahead,Or.inl onward⟩,fun _ => Or.inl ahead⟩
  · rcases printCharAfter kept.ranges c with ⟨rfl,after⟩ | ⟨other,_⟩
    · rw [fitsNewline ahead after,and_iff_right (Or.inl rfl)]
    · -- The character goes below the window.
      have narrow : ¬ FitsText s (c::str) := by
        unfold FitsText
        rw [leadingOther other proper,textCons proper]
        have y := whole.y
        exact fun fits => fits.elim ahead fun fits => fits.elim (fun all => other (all c List.mem_cons_self)) (by omega)
      exact ⟨fun fits => absurd fits narrow,fun both => absurd (both.1.resolve_left other) ahead⟩

theorem printBounds {str : List UInt8} (kept : Kept s) (whole : Whole s) :
    (InBounds (consolePrint str s) ↔ InBounds s ∧ FitsText s str) ∧ Whole (consolePrint str s) := by
  induction str generalizing s with
  | nil => exact ⟨⟨fun inside => ⟨inside,Or.inr (Or.inl nofun)⟩,And.left⟩,whole⟩
  | cons c str ih =>
    unfold consolePrint
    by_cases stop : c = 0
    · subst stop
      exact ⟨⟨fun inside => ⟨inside,Or.inr (Or.inl nofun)⟩,And.left⟩,whole⟩
    · rw [if_neg stop]
      obtain ⟨rest,last⟩ := ih (printCharKept kept c) (printCharWhole kept.ranges whole c).1
      refine ⟨?_,last⟩
      rw [rest,printCharBounds kept.ranges c,and_iff_right whole.y,fitsCons kept whole stop,and_assoc]
      exact Iff.rfl

theorem executeEarlier {call : Call} (kept : Kept s) (inside : InBounds (execute s call)) : InBounds s := by
  cases call with
  | printChar c => exact ((printCharBounds kept.ranges c).mp inside).1
  | print str =>
    simp only [execute] at inside
    induction str generalizing s with
    | nil => exact inside
    | cons c str ih =>
      unfold consolePrint at inside
      split at inside
      · exact inside
      · exact ((printCharBounds kept.ranges c).mp (ih (printCharKept kept c) inside)).1
  | newLine => exact (newLineBounds kept.ranges.low (newLineCases kept.ranges.y kept.ranges.low kept.ranges.high)).mp inside
  | clear => exact (clearBounds s).mp inside
  | setColor foreground background => exact inside
  | setCursor x y => exact inside
  | scroll amount =>
    simp only [execute,scrollEq] at inside
    exact ((updateScreenBounds _).mp inside).1

theorem executeBounds {call : Call} (kept : Kept s) (whole : Whole s) : InBounds (execute s call) ↔ InBounds s ∧ Fits s call := by
  cases call with
  | printChar c =>
    refine (printCharBounds kept.ranges c).trans ?_
    rw [and_iff_right whole.y]
    rfl
  | print str => exact (printBounds kept whole).1
  | newLine =>
    have after := newLineCases kept.ranges.y kept.ranges.low kept.ranges.high
    exact (newLineBounds kept.ranges.low after).trans (and_iff_left trivial).symm
  | clear => exact (clearBounds s).trans (and_iff_left trivial).symm
  | setColor foreground background => exact (and_iff_left trivial).symm
  | setCursor x y => exact (and_iff_left trivial).symm
  | scroll amount =>
    simp only [execute,scrollEq,Fits]
    refine (updateScreenBounds _).trans (and_congr_right fun _ => ?_)
    show 0 ≤ max 0 (min (s.scroll + amount) 2499) ∧ max 0 (min (s.scroll + amount) 2499) ≤ 2475 ↔ _
    omega

theorem executeWhole {call : Call} (kept : Kept s) (whole : Whole s) (allowed : Allowed s call) (fits : Fits s call) :
    Whole (execute s call) := by
  cases call with
  | printChar c => exact (printCharWhole kept.ranges whole c).1
  | print str => exact (printBounds kept whole).2
  | newLine => exact (newLineWhole whole.scroll (newLineCases kept.ranges.y kept.ranges.low kept.ranges.high)).1
  | clear =>
    obtain ⟨_,y,scroll⟩ := clearCursor s
    exact ⟨by simp only [execute]; omega,by simp only [execute]; omega⟩
  | setColor foreground background => exact ⟨whole.scroll,whole.y⟩
  | setCursor x y =>
    have line : (unsigned (y + s.scroll) : Int) = y + s.scroll :=
      unsignedOf (by have := kept.ranges.low; omega) (by have := allowed.2; unfold consoleVisibleHeight at this; have := whole.scroll; omega)
    have row := allowed.2
    have window := whole.scroll
    unfold consoleVisibleHeight at row
    exact ⟨window,show unsigned (y + s.scroll) < 2500 by omega⟩
  | scroll amount =>
    have y := whole.y
    simp only [execute,scrollEq]
    rw [(updateScreenShown _).same]
    unfold Fits at fits
    exact ⟨show max 0 (min (s.scroll + amount) 2499) ≤ 2475 by omega,y⟩

theorem fitsRun (run : (system.restrict Fits).Run es s) : Whole s ∧ InBounds s := by
  induction run with
  | start first =>
    obtain ⟨s0,none,rfl⟩ := first
    obtain ⟨_,y,scroll⟩ := clearCursor s0
    refine ⟨⟨by omega,by omega⟩,(clearBounds s0).mpr ?_⟩
    unfold InBounds
    rw [none]
    nofun
  | step before move ih =>
    obtain ⟨fits,allowed,rfl⟩ := move
    have kept := keptRun (restrictRun before)
    exact ⟨executeWhole kept ih.1 allowed fits,(executeBounds kept ih.1).mpr ⟨ih.2,fits⟩⟩

theorem indicesInside (run : system.Run es s) : InBounds s ↔ (system.restrict Fits).Run es s := by
  refine ⟨fun inside => ?_,fun fits => (fitsRun fits).2⟩
  induction run with
  | start first => exact .start first
  | step before move ih =>
    have kept := keptRun before
    obtain ⟨allowed,rfl⟩ := move
    have earlier := executeEarlier kept inside
    have fits := ih earlier
    exact .step fits ⟨((executeBounds kept (fitsRun fits).1).mp inside).2,allowed,rfl⟩

theorem indicesInsideChar : ∃ s, system.Run [.printChar 97] s ∧ InBounds s := by
  obtain ⟨_,y,scroll⟩ := clearCursor bootState
  have first : (system.restrict Fits).Run [] (consoleClear bootState) := .start ⟨bootState,rfl,rfl⟩
  generalize consoleClear bootState = s0 at *
  have ahead : Ahead s0 := by
    unfold Ahead
    omega
  have run : (system.restrict Fits).Run [.printChar 97] (consolePrintChar 97 s0) := .step first ⟨Or.inr ahead,trivial,rfl⟩
  exact ⟨_,restrictRun run,(indicesInside (restrictRun run)).mpr run⟩

theorem hangingWindow (first : system.Run es s) (scroll : s.scroll = 0) :
    ∃ t, system.Run (.scroll 2476::es) t ∧ ¬ InBounds t := by
  have allowed : Allowed s (.scroll 2476) := by
    simp only [Allowed,scroll]
    decide
  refine ⟨_,.step first ⟨allowed,rfl⟩,fun inside => ?_⟩
  simp only [execute,scrollEq,scroll] at inside
  have window := ((updateScreenBounds _).mp inside).2.2
  change max 0 (min ((0 : Int)+2476) 2499) ≤ 2475 at window
  omega

theorem characterBelow (first : system.Run es s) (scroll : s.scroll = 0) :
    ∃ t, system.Run (.printChar 97::.scroll (-24)::.setCursor 0 24::.scroll 24::es) t ∧ ¬ InBounds t := by
  have down : Allowed s (.scroll 24) := by
    simp only [Allowed,scroll]
    decide
  have scroll1 := (@scrollFrame s 24).scroll
  have run1 : system.Run (.scroll 24::es) (consoleScroll 24 s) := .step first ⟨down,rfl⟩
  generalize consoleScroll 24 s = s1 at *
  rw [scroll,show max (0 : Int) (min (0+24) 2499) = 24 by decide] at scroll1
  have run2 : system.Run (.setCursor 0 24::.scroll 24::es) (consoleSetCursor 0 24 s1) := .step run1 ⟨⟨by decide,by decide⟩,rfl⟩
  have y2 : (consoleSetCursor 0 24 s1).y = 48 := by
    simp only [consoleSetCursor,scroll1]
    rfl
  have scroll2 : (consoleSetCursor 0 24 s1).scroll = 24 := scroll1
  generalize consoleSetCursor 0 24 s1 = s2 at *
  have back : Allowed s2 (.scroll (-24)) := by
    simp only [Allowed,scroll2]
    decide
  obtain ⟨_,_,y3,scroll3⟩ := @scrollFrame s2 (-24)
  have run3 : system.Run (.scroll (-24)::.setCursor 0 24::.scroll 24::es) (consoleScroll (-24) s2) := .step run2 ⟨back,rfl⟩
  generalize consoleScroll (-24) s2 = s3 at *
  rw [scroll2,show max (0 : Int) (min (24 + -24) 2499) = 0 by decide] at scroll3
  refine ⟨_,.step run3 ⟨trivial,rfl⟩,fun inside => ?_⟩
  rcases ((printCharBounds (keptRun run3).ranges 97).mp inside).2 with line | ⟨_,ahead⟩
  · exact absurd line (by decide)
  · omega

theorem indicesOutside : (∃ s, system.Run [.scroll 2476] s ∧ ¬ InBounds s) ∧
    ∃ s, system.Run [.printChar 97,.scroll (-24),.setCursor 0 24,.scroll 24] s ∧ ¬ InBounds s := by
  have first : system.Run [] (consoleClear bootState) := .start ⟨bootState,rfl,rfl⟩
  have scroll := (clearCursor bootState).2.2
  exact ⟨hangingWindow first scroll,characterBelow first scroll⟩

end

end Kokos.Console

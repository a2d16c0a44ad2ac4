import Kokos.ConsoleRuns

/-! Where the window is as long as the console is only printed to. -/
namespace Kokos.Console
open TransitionRuns

def Prints (_ : State) : Call → Prop
  | .setCursor _ _ => False
  | .scroll _ => False
  | _ => True

structure Level (s : State) : Prop where
  y : s.y < 2500
  scroll : s.scroll = max 0 ((s.y : Int) - 24)

section
variable {s t : State} {es : List Call}

theorem newLineLevel (level : Level s) (after : NewLine s t) : Level t := by
  have scroll := level.scroll
  cases after with
  | wipe full =>
    obtain ⟨_,y,scroll⟩ := clearCursor { s with y := s.y+1 }
    generalize consoleClear { s with y := s.y+1 } = t at *
    refine ⟨show t.y < 2500 by omega,?_⟩
    show t.scroll = max 0 ((t.y : Int) - 24)
    omega
  | scroll room under =>
    rw [(updateScreenShown _).same]
    refine ⟨room,?_⟩
    show s.scroll+1 = max 0 (((s.y+1 : Nat) : Int) - 24)
    omega
  | move room on =>
    refine ⟨room,?_⟩
    show s.scroll = max 0 (((s.y+1 : Nat) : Int) - 24)
    omega

theorem clearLevel (s : State) : Level (consoleClear s) := by
  obtain ⟨_,y,scroll⟩ := clearCursor s
  exact ⟨by omega,by omega⟩

theorem printCharLevel (ranges : Ranges s) (level : Level s) (c : UInt8) : Level (consolePrintChar c s) := by
  obtain ⟨_,y,scroll⟩ := putCharFrame c s
  have put : Level (putChar c s) := ⟨y ▸ level.y,by rw [y,scroll]; exact level.scroll⟩
  rcases printCharAfter ranges c with ⟨_,after⟩ | ⟨_,after | ⟨_,same⟩⟩
  · exact newLineLevel level after
  · exact newLineLevel put after
  · rwa [same]

theorem printLevel {str : List UInt8} (kept : Kept s) (level : Level s) : Level (consolePrint str s) := by
  induction str generalizing s with
  | nil => exact level
  | cons c str ih =>
    unfold consolePrint
    split
    · exact level
    · exact ih (printCharKept kept c) (printCharLevel kept.ranges level c)

theorem executeLevel {call : Call} (kept : Kept s) (level : Level s) (prints : Prints s call) : Level (execute s call) := by
  cases call with
  | printChar c => exact printCharLevel kept.ranges level c
  | print str => exact printLevel kept level
  | newLine => exact newLineLevel level (newLineCases kept.ranges.y kept.ranges.low kept.ranges.high)
  | clear => exact clearLevel s
  | setColor foreground background => exact ⟨level.y,level.scroll⟩
  | setCursor x y => exact prints.elim
  | scroll amount => exact prints.elim

theorem levelRun (run : (system.restrict Prints).Run es s) : Kept s ∧ Level s := by
  refine invariant (I := fun s => Kept s ∧ Level s) ?_ (fun s call s' both move => ?_) run
  · rintro s ⟨s0,_,rfl⟩
    exact ⟨⟨clearRanges s0,clearMirrors s0⟩,clearLevel s0⟩
  · obtain ⟨prints,allowed,rfl⟩ := move
    exact ⟨executeKept both.1 allowed,executeLevel both.1 both.2 prints⟩

structure Follows (s : State) : Prop where
  x : s.x < 80
  y : s.y < 2500
  scroll : s.scroll = max 0 ((s.y : Int) - 24)
  visible : s.scroll ≤ s.y ∧ s.y < s.scroll+25
  shown : ∀ ix iy : Nat, ix < 80 → iy < 25 → s.videoMemory (ix + iy*80 : Nat) = s.history (ix + (iy + s.scroll)*80)

theorem levelFollows (kept : Kept s) (level : Level s) : Follows s := by
  obtain ⟨y,scroll⟩ := level
  refine ⟨kept.ranges.x,y,scroll,by omega,fun ix iy column row => ?_⟩
  rw [kept.mirrors (ix + iy*80 : Nat) (by omega) (by omega)]
  congr 1
  omega

theorem screenFollows (run : (system.restrict Prints).Run es s) (part : List UInt8) : Follows (consolePrint part s) := by
  obtain ⟨kept,level⟩ := levelRun run
  exact levelFollows (printKept kept) (printLevel kept level)

end

theorem screenFollowsChar : ∃ s, (system.restrict Prints).Run [.print [97]] s ∧ Follows (consolePrint [newline] s) := by
  have first : (system.restrict Prints).Run [] (consoleClear bootState) := .start ⟨bootState,rfl,rfl⟩
  have run : (system.restrict Prints).Run [.print [97]] (execute (consoleClear bootState) (.print [97])) := .step first ⟨trivial,trivial,rfl⟩
  exact ⟨_,run,screenFollows run [newline]⟩

end Kokos.Console

import Kokos.CountedLoops
import Kokos.TransitionRuns

/-! The console: the history buffer, the screen, and the calls that write to them. Both
arrays are functions of an index. The state records every index that was used, last first;
until one is not of its array, no write to one array changes the other. What the later
writes hit is a matter of the memory, in which Kokos.ConsoleMemory has the same calls. -/
namespace Kokos.Console
open CountedLoops TransitionRuns

def consoleVisibleHeight : Nat := 25
def consoleBufferWidth : Nat := 80
def consoleBufferHeight : Nat := 25*100

structure ConsoleVideoChar where
  charater : UInt8
  color : UInt8
  deriving DecidableEq, Repr

inductive Access where
  | historyRead (index : Int)
  | historyWrite (index : Int)
  | videoWrite (index : Int)
  deriving DecidableEq, Repr

structure State where
  videoMemory : Int → ConsoleVideoChar
  history : Int → ConsoleVideoChar
  currentConsoleColor : UInt8
  x : Nat
  y : Nat
  scroll : Int
  accesses : List Access

-- An int where an unsigned int is expected.
def unsigned (v : Int) : Nat := (v % 2^32).toNat

def State.storeHistory (s : State) (index : Int) (c : ConsoleVideoChar) : State :=
  { s with history := Function.update s.history index c, accesses := .historyWrite index :: s.accesses }

def State.storeVideo (s : State) (index : Int) (c : ConsoleVideoChar) : State :=
  { s with videoMemory := Function.update s.videoMemory index c, accesses := .videoWrite index :: s.accesses }

def State.copyCell (s : State) (target source : Int) : State :=
  { s with accesses := .historyRead source :: s.accesses }.storeVideo target (s.history source)

def consoleUpdateScreen (s : State) : State :=
  countUp consoleVisibleHeight (fun iy => countUp consoleBufferWidth fun ix s =>
    s.copyCell (ix + iy*consoleBufferWidth) (ix + (iy + s.scroll)*consoleBufferWidth)) s

def consoleSetColor (foreground background : UInt8) (s : State) : State :=
  { s with currentConsoleColor := (foreground &&& (0xF : UInt8)) ||| ((background &&& (0xF : UInt8)) <<< (4 : UInt8)) }

def clearHistory (s : State) : State :=
  countUp consoleBufferWidth (fun ix => countUp consoleBufferHeight fun iy s =>
    s.storeHistory (ix + iy*consoleBufferWidth) ⟨0,0⟩) s

def consoleClear (s : State) : State := consoleUpdateScreen { clearHistory s with x := 0, y := 0, scroll := 0 }

def consoleNewLine (s : State) : State :=
  let s := { s with y := (s.y+1) % 2^32 }
  let s := if consoleBufferHeight ≤ s.y then consoleClear s else s
  let s := { s with x := 0 }
  if unsigned (s.scroll + consoleVisibleHeight) ≤ s.y ∧ s.scroll < (consoleBufferHeight : Int) - 1 then
    consoleUpdateScreen { s with scroll := s.scroll + 1 }
  else s

def newline : UInt8 := 10

def consolePrintChar (c : UInt8) (s : State) : State :=
  if c = newline then consoleNewLine s
  else
    let s := s.storeHistory ((s.x + s.y*consoleBufferWidth) % 2^32 : Nat) ⟨c,s.currentConsoleColor⟩
    let s :=
      -- The height of the whole buffer, not of what is visible.
      if unsigned s.scroll ≤ s.y ∧ s.y < unsigned (s.scroll + consoleBufferHeight) then
        s.storeVideo ((s.x + unsigned (s.y - s.scroll)*consoleBufferWidth) % 2^32 : Nat) ⟨c,s.currentConsoleColor⟩
      else s
    let s := { s with x := (s.x+1) % 2^32 }
    if consoleBufferWidth ≤ s.x then consoleNewLine s else s

def consolePrint : List UInt8 → State → State
  | [], s => s
  | c::str, s => if c = 0 then s else consolePrint str (consolePrintChar c s)

def consoleSetCursor (newX newY : Nat) (s : State) : State :=
  { s with x := newX, y := unsigned (newY + s.scroll) }

def consoleScroll (amount : Int) (s : State) : State :=
  let s := { s with scroll := s.scroll + amount }
  let s :=
    if s.scroll < 0 then { s with scroll := 0 }
    else if (consoleBufferHeight : Int) ≤ s.scroll then { s with scroll := (consoleBufferHeight : Int) - 1 }
    else s
  consoleUpdateScreen s

inductive Call where
  | printChar (c : UInt8)
  | print (str : List UInt8)
  | newLine
  | clear
  | setColor (foreground background : UInt8)
  | setCursor (x y : Nat)
  | scroll (amount : Int)

def execute (s : State) : Call → State
  | .printChar c => consolePrintChar c s
  | .print str => consolePrint str s
  | .newLine => consoleNewLine s
  | .clear => consoleClear s
  | .setColor foreground background => consoleSetColor foreground background s
  | .setCursor x y => consoleSetCursor x y s
  | .scroll amount => consoleScroll amount s

def Allowed (s : State) : Call → Prop
  | .setCursor x y => x < consoleBufferWidth ∧ y < consoleVisibleHeight
  | .scroll amount => -2^31 ≤ s.scroll + amount ∧ s.scroll + amount < 2^31
  | _ => True

def system : System State Call where
  start s := ∃ s0 : State, s0.accesses = [] ∧ s = consoleClear s0
  step s call s' := Allowed s call ∧ s' = execute s call

end Kokos.Console

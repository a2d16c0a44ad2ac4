import Kokos.ConsolePrints

/-! The keyboard interrupt: the flags, what a key does to the console, and the port accesses.
The ports answer whatever they like, and so does the stack that the status line's number is
written to. Delays are left out. -/
namespace Kokos.Keyboard
open ByteMemory ByteStrings Console ConsolePrints WhileLoops

def keyboardDataRegister : Nat := 0x60
def keyboardStatusRegister : Nat := 0x64
def keyboardOutputBufferFull : UInt8 := 1
def keyboardInputBufferFull : UInt8 := 2

/-! The names of the keys by scan code. The others are null. -/

def scancodesNormal : Nat → Option String
  | 0x01 => some "F9"
  | 0x03 => some "F5"
  | 0x04 => some "F3"
  | 0x05 => some "F1"
  | 0x06 => some "F2"
  | 0x07 => some "F12"
  | 0x09 => some "F10"
  | 0x0a => some "F8"
  | 0x0b => some "F6"
  | 0x0c => some "F4"
  | 0x0d => some "Tab"
  | 0x0e => some "`"
  | 0x11 => some "LeftAlt"
  | 0x12 => some "LeftShift"
  | 0x14 => some "LeftControl"
  | 0x15 => some "q"
  | 0x16 => some "1"
  | 0x1a => some "z"
  | 0x1b => some "s"
  | 0x1c => some "a"
  | 0x1d => some "w"
  | 0x1e => some "2"
  | 0x21 => some "c"
  | 0x22 => some "x"
  | 0x23 => some "d"
  | 0x24 => some "e"
  | 0x25 => some "4"
  | 0x26 => some "3"
  | 0x29 => some " "
  | 0x2a => some "v"
  | 0x2b => some "f"
  | 0x2c => some "t"
  | 0x2d => some "r"
  | 0x2e => some "5"
  | 0x31 => some "n"
  | 0x32 => some "b"
  | 0x33 => some "h"
  | 0x34 => some "g"
  | 0x35 => some "y"
  | 0x36 => some "6"
  | 0x3a => some "m"
  | 0x3b => some "j"
  | 0x3c => some "u"
  | 0x3d => some "7"
  | 0x3e => some "8"
  | 0x41 => some ","
  | 0x42 => some "k"
  | 0x43 => some "i"
  | 0x44 => some "o"
  | 0x45 => some "0"
  | 0x46 => some "9"
  | 0x49 => some "."
  | 0x4a => some "/"
  | 0x4b => some "l"
  | 0x4c => some ";"
  | 0x4d => some "p"
  | 0x4e => some "-"
  | 0x52 => some "'"
  | 0x54 => some "["
  | 0x55 => some "="
  | 0x58 => some "CapsLock"
  | 0x59 => some "RightShift"
  | 0x5a => some "Enter"
  | 0x5b => some "]"
  | 0x5d => some "\\"
  | 0x66 => some "Backspace"
  | 0x76 => some "Escape"
  | 0x78 => some "F11"
  | 0x7e => some "ScrollLock"
  | 0x83 => some "F7"
  | _ => none

def scancodesShift : Nat → Option String
  | 0x01 => some "Shift+F9"
  | 0x03 => some "Shift+F5"
  | 0x04 => some "Shift+F3"
  | 0x05 => some "Shift+F1"
  | 0x06 => some "Shift+F2"
  | 0x07 => some "Shift+F12"
  | 0x09 => some "Shift+F10"
  | 0x0a => some "Shift+F8"
  | 0x0b => some "Shift+F6"
  | 0x0c => some "Shift+F4"
  | 0x0d => some "Shift+Tab"
  | 0x0e => some "~"
  | 0x11 => some "Shift+LeftAlt"
  | 0x12 => some "Shift+LeftShift"
  | 0x14 => some "Shift+LeftControl"
  | 0x15 => some "Q"
  | 0x16 => some "1"
  | 0x1a => some "Z"
  | 0x1b => some "S"
  | 0x1c => some "A"
  | 0x1d => some "W"
  | 0x1e => some "@"
  | 0x21 => some "C"
  | 0x22 => some "X"
  | 0x23 => some "D"
  | 0x24 => some "E"
  | 0x25 => some "$"
  | 0x26 => some "#"
  | 0x29 => some "Shift+Space"
  | 0x2a => some "V"
  | 0x2b => some "F"
  | 0x2c => some "T"
  | 0x2d => some "R"
  | 0x2e => some "%"
  | 0x31 => some "N"
  | 0x32 => some "B"
  | 0x33 => some "H"
  | 0x34 => some "G"
  | 0x35 => some "Y"
  | 0x36 => some "^"
  | 0x3a => some "M"
  | 0x3b => some "J"
  | 0x3c => some "U"
  | 0x3d => some "&"
  | 0x3e => some "*"
  | 0x41 => some "<"
  | 0x42 => some "K"
  | 0x43 => some "I"
  | 0x44 => some "O"
  | 0x45 => some ")"
  | 0x46 => some "("
  | 0x49 => some ">"
  | 0x4a => some "?"
  | 0x4b => some "L"
  | 0x4c => some ":"
  | 0x4d => some "P"
  | 0x4e => some "_"
  | 0x52 => some "\""
  | 0x54 => some "\x7b"
  | 0x55 => some "+"
  | 0x58 => some "Shift+CapsLock"
  | 0x59 => some "Shift+RightShift"
  | 0x5a => some "Shift+Enter"
  | 0x5b => some "\x7d"
  | 0x5d => some "|"
  | 0x66 => some "Shift+Backspace"
  | 0x76 => some "Shift+Escape"
  | 0x78 => some "Shift+F11"
  | 0x7e => some "Shift+ScrollLock"
  | 0x83 => some "Shift+F7"
  | _ => none

inductive PortAccess where
  | portIn (port : Nat) (value : UInt8)
  | portOut (port : Nat) (value : UInt8)
  deriving DecidableEq, Repr

/-- What the reads to come return, and the accesses so far, last first. -/
structure Ports where
  answers : Nat → UInt8
  accesses : List PortAccess

def portIn8 (port : Nat) (p : Ports) : UInt8 × Ports :=
  (p.answers 0,⟨fun n => p.answers (n+1),.portIn port (p.answers 0) :: p.accesses⟩)

def portOut8 (port : Nat) (value : UInt8) (p : Ports) : Ports := { p with accesses := .portOut port value :: p.accesses }

def waitBody (ready : UInt8 → Bool) (p : Ports) : Ports ⊕ Ports :=
  let (status,p) := portIn8 keyboardStatusRegister p
  if ready status then .inr p else .inl p

def keyboardReadData (fuel : Nat) (p : Ports) : Option (UInt8 × Ports) := do
  let p ← loop (waitBody fun status => status &&& keyboardOutputBufferFull ≠ 0) fuel p
  some (portIn8 keyboardDataRegister p)

def keyboardWriteData (fuel : Nat) (data : UInt8) (p : Ports) : Option Ports := do
  let p ← loop (waitBody fun status => status &&& keyboardInputBufferFull = 0) fuel p
  some (portOut8 keyboardDataRegister data p)

structure Handler where
  releasing : Bool
  shift : Bool
  capsLock : Bool
  extended : Bool
  console : State
  ports : Ports
  interruptsEnded : Nat

def consoleGetCursor (s : State) : Nat × Nat := (s.x,unsigned (s.y - s.scroll))

def printKey (fuel dest : Nat) (stack : Memory) (input : UInt8) (s : State) : Option State := do
  let (x,y) := consoleGetCursor s
  let s := consoleSetCursor 70 0 s
  let s := consolePrint (chars "key=0x") s
  let r ← consolePrintU32 fuel dest (BitVec.ofNat 32 input.toNat) 16 stack s
  some (consoleSetCursor x y r.console)

def isShift (input : UInt8) : Bool := input = 0x12 || input = 0x59

def pressCapsLock (fuel : Nat) (s : Handler) : Option Handler := do
  let capsLock := !s.capsLock
  let ports ← keyboardWriteData fuel 0xED s.ports
  let (_,ports) ← keyboardReadData fuel ports
  let ports ← keyboardWriteData fuel (if capsLock then 4 else 0) ports
  let (_,ports) ← keyboardReadData fuel ports
  let (x,y) := consoleGetCursor s.console
  let console := consoleSetCursor 70 1 s.console
  let console := consolePrint (chars (if capsLock then "CAPSLOCK" else "        ")) console
  some { s with capsLock := capsLock, ports := ports, console := consoleSetCursor x y console }

def pressEnter (shift : Bool) (s : State) : State :=
  if shift then consoleSetCursor 0 0 (consoleClear (consolePrintChar (char ' ') s))
  else consoleNewLine (consolePrintChar (char ' ') s)

def pressBackspace (s : State) : State :=
  let (x,y) := consoleGetCursor s
  if 0 < x then
    let s := consoleSetCursor (x-1) y (consolePrintChar (char ' ') s)
    consoleSetCursor (x-1) y (consolePrintChar (char ' ') s)
  else if 0 < y then consoleSetCursor 79 (y-1) (consolePrintChar (char ' ') s)
  else s

def pressKey (shift capsLock : Bool) (input : UInt8) (s : State) : State :=
  match (if shift || capsLock then scancodesShift else scancodesNormal) input.toNat with
  | none => s
  | some scancode =>
    if input = 0x5a then pressEnter shift s
    else if input = 0x66 then pressBackspace s
    else consolePrint (chars scancode) s

def press (fuel dest : Nat) (stack : Memory) (input : UInt8) (s : Handler) : Option Handler := do
  let console ← printKey fuel dest stack input s.console
  let s := { s with console := console }
  if isShift input then some { s with shift := true }
  else if s.extended ∧ input = 0x75 then some { s with console := consoleScroll (-1) s.console }
  else if s.extended ∧ input = 0x72 then some { s with console := consoleScroll 1 s.console }
  else if input = 0x58 then pressCapsLock fuel s
  else some { s with console := pressKey s.shift s.capsLock input s.console }

def release (input : UInt8) (s : Handler) : Handler := { s with shift := if isShift input then false else s.shift, releasing := false }

def interruptHandleKeyboard (fuel dest : Nat) (stack : Memory) (s : Handler) : Option Handler := do
  let (input,ports) := portIn8 keyboardDataRegister s.ports
  let s := { s with ports := ports }
  let s ←
    if input = 0xF0 then some { s with releasing := true }
    else if input = 0xE0 ∨ input = 0xE1 ∨ input = 0xE2 then some { s with extended := true }
    else do
      let s ← if s.releasing then some (release input s) else press fuel dest stack input s
      some { s with extended := false }
  some { s with interruptsEnded := s.interruptsEnded+1 }

end Kokos.Keyboard

import Kokos.ConsolePrints
import Kokos.CountedLoops

/-! pci.c and pci.asm: the two ports of the configuration mechanism, and the scan of the bus.
All calls of the scan that print a number have their buffer in one place of the stack. -/
namespace Kokos.Pci
open ByteMemory ByteStrings Console ConsolePrints CountedLoops

def ConfigSpace := Nat → Nat → Nat → Nat → BitVec 32

structure Ports where
  space : ConfigSpace
  address : BitVec 32

def portOut32 (port : BitVec 16) (value : BitVec 32) (p : Ports) : Ports :=
  if port = 0xCF8 then { p with address := value } else p

/-- The data port gives the register that the address selects, if its enable bit is set. -/
def portIn32 (port : BitVec 16) (p : Ports) : BitVec 32 :=
  let address := p.address.toNat
  if port = 0xCFC ∧ 2^31 ≤ address then p.space (address / 2^16 % 2^8) (address / 2^11 % 2^5) (address / 2^8 % 2^3) (address / 2^2 % 2^6)
  else BitVec.allOnes 32

def pciConfigRead32 (bus slot function offset : BitVec 64) (p : Ports) : BitVec 32 × Ports :=
  let rax := 1#64 <<< 31
  let rax := rax ||| ((bus &&& 0b11111111) <<< 16)
  let rax := rax ||| ((slot &&& 0b11111) <<< 11)
  let rax := rax ||| ((function &&& 0b111) <<< 8)
  let rax := rax ||| (offset &&& 0b11111100)
  let p := portOut32 0xCF8 (rax.setWidth 32) p
  (portIn32 0xCFC p,p)

def pciConfigRead16 (bus slot function : Nat) (offset : BitVec 64) (p : Ports) : BitVec 16 × Ports :=
  let (value,p) := pciConfigRead32 (.ofNat 64 bus) (.ofNat 64 slot) (.ofNat 64 function) offset p
  (((value >>> ((offset &&& 0x2) * 8)) &&& 0xffff).setWidth 16,p)

def pciConfigRead8 (bus slot function : Nat) (offset : BitVec 64) (p : Ports) : BitVec 8 × Ports :=
  let (value,p) := pciConfigRead32 (.ofNat 64 bus) (.ofNat 64 slot) (.ofNat 64 function) offset p
  (((value >>> ((offset &&& 0x3) * 8)) &&& 0xff).setWidth 8,p)

def pciClassString (classCode : BitVec 8) : String :=
  match classCode.toNat with
  | 0x00 => "Unclassified"
  | 0x01 => "Mass Storage Controller"
  | 0x02 => "Network Controller"
  | 0x03 => "Display Controller"
  | 0x04 => "Multimedia Controller"
  | 0x05 => "Memory Controller"
  | 0x06 => "Bridge"
  | 0x07 => "Simple Communication Controller"
  | 0x08 => "Base System Peripheral"
  | 0x09 => "Input Device Controller"
  | 0x0A => "Docking Station"
  | 0x0B => "Processor"
  | 0x0C => "Serial Bus Controller"
  | 0x0D => "Wireless Controller"
  | 0x0E => "Intelligent Controller"
  | 0x0F => "Satellite Communication Controller"
  | 0x10 => "Encryption Controller"
  | 0x11 => "Signal Processing Controller"
  | 0x12 => "Processing Accelerator"
  | 0x13 => "Non-Essential Instrumentation"
  | 0x14 => "0x3F (Reserved)"
  | 0x40 => "Co-Processor"
  | 0x41 => "0xFE (Reserved)"
  | _ => "Unassigned Class"

def pciSubclassString (classCode _subclassCode : BitVec 8) : String := pciClassString classCode

structure Report where
  bus : Nat
  slot : Nat
  function : Nat
  vendor : BitVec 16
  device : BitVec 16
  classCode : BitVec 8
  subclass : BitVec 8
  headerType : BitVec 8
  deriving DecidableEq

def readReport (bus slot function : Nat) (p : Ports) : Report × Ports :=
  let (vendor,p) := pciConfigRead16 bus slot function 0x0 p
  let (device,p) := pciConfigRead16 bus slot function 0x2 p
  let (classCode,p) := pciConfigRead8 bus slot function 0xb p
  let (subclass,p) := pciConfigRead8 bus slot function 0xa p
  let (headerType,p) := pciConfigRead8 bus slot function 0xe p
  (⟨bus,slot,function,vendor,device,classCode,subclass,headerType⟩,p)

def printU32 (fuel dest : Nat) (stack : Memory) (num : BitVec 32) (base : Nat) (s : State) : Option State :=
  (consolePrintU32 fuel dest num base stack s).map Outcome.console

def printReport (fuel dest : Nat) (stack : Memory) (s : State) (r : Report) : Option State := do
  let s := consolePrint (chars "[pci] device at bus=") s
  let s ← printU32 fuel dest stack (.ofNat 32 r.bus) 10 s
  let s := consolePrint (chars " slot=") s
  let s ← printU32 fuel dest stack (.ofNat 32 r.slot) 10 s
  let s := consolePrint (chars " function=") s
  let s ← printU32 fuel dest stack (.ofNat 32 r.function) 10 s
  let s := consolePrint (chars " vendor=0x") s
  let s ← printU32 fuel dest stack (r.vendor.setWidth 32) 16 s
  let s := consolePrint (chars " device=0x") s
  let s ← printU32 fuel dest stack (r.device.setWidth 32) 16 s
  let s := consoleNewLine s
  let s := consolePrint (chars " class=0x") s
  let s ← printU32 fuel dest stack (r.classCode.setWidth 32) 16 s
  let s := consolePrint (chars (pciClassString r.classCode)) (consolePrintChar (char ' ') s)
  let s := consolePrint (chars " subclass=0x") s
  let s ← printU32 fuel dest stack (r.subclass.setWidth 32) 16 s
  let s := consolePrint (chars (pciSubclassString r.classCode r.subclass)) (consolePrintChar (char ' ') s)
  let s := consoleNewLine s
  let s := consolePrint (chars " header_type=0x") s
  let s ← printU32 fuel dest stack ((r.headerType &&& 0b01111111).setWidth 32) 16 s
  let s := consolePrint (chars ", multifunction=") s
  let s ← printU32 fuel dest stack ((r.headerType >>> 7).setWidth 32) 10 s
  some (consoleNewLine s)

structure Scanner where
  ports : Ports
  console : State
  reports : List Report

def scanFunctions (fuel dest : Nat) (stack : Memory) (bus slot : Nat) : Nat → Nat → Bool → Scanner → Option Scanner
  | 0, _, _, s => some s
  | left+1, function, isMultifunction, s =>
    let (dev,ports) := pciConfigRead32 (.ofNat 64 bus) (.ofNat 64 slot) (.ofNat 64 function) 0 s.ports
    if dev = 0xFFFFFFFF then scanFunctions fuel dest stack bus slot left (function+1) isMultifunction { s with ports := ports }
    else
      let (report,ports) := readReport bus slot function ports
      (printReport fuel dest stack s.console report).bind fun console =>
        let s : Scanner := ⟨ports,console,s.reports ++ [report]⟩
        let isMultifunction := isMultifunction || report.headerType &&& 0b10000000 = 0b10000000
        if isMultifunction then scanFunctions fuel dest stack bus slot left (function+1) isMultifunction s else some s

def pciScan (fuel dest : Nat) (stack : Memory) (s : Scanner) : Option Scanner :=
  tryUp 0b11111111 (fun bus => tryUp 0b11111 fun slot => scanFunctions fuel dest stack bus slot 8 0 false) s

end Kokos.Pci

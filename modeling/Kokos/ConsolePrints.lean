import Kokos.Console
import Kokos.Numerals

/-! console_print from memory, and the calls that print a number. Such a call has a buffer of
its own, which holds whatever was there before it; the addresses that are written through
the buffer are kept, in the buffer or not. -/
namespace Kokos.ConsolePrints
open ByteMemory ByteStrings Console Strings WhileLoops

structure Printing where
  str : Nat
  printed : List UInt8
  console : State

def printBody (m : Memory) (s : Printing) : Printing ⊕ Printing :=
  let c := m s.str
  if c = 0 then .inr s else .inl ⟨s.str+1,s.printed ++ [c],consolePrintChar c s.console⟩

def consolePrintFrom (fuel : Nat) (m : Memory) (str : Nat) (s : State) : Option Printing := loop (printBody m) fuel ⟨str,[],s⟩

structure Outcome where
  writes : List Nat
  printed : List UInt8
  console : State

def consolePrintSigned {w : Nat} (fuel dest : Nat) (num : BitVec w) (base : Nat) (m : Memory) (s : State) : Option Outcome := do
  let (buffer,_) ← stringFromSigned fuel dest num base ⟨m,[]⟩
  let r ← consolePrintFrom fuel buffer.memory dest s
  some ⟨buffer.writes,r.printed,r.console⟩

def consolePrintUnsigned {w : Nat} (fuel dest : Nat) (num : BitVec w) (base : Nat) (m : Memory) (s : State) : Option Outcome := do
  let (buffer,_) ← stringFromUnsigned fuel dest num base ⟨m,[]⟩
  let r ← consolePrintFrom fuel buffer.memory dest s
  some ⟨buffer.writes,r.printed,r.console⟩

def consolePrintI32 (fuel dest : Nat) (num : BitVec 32) := consolePrintSigned fuel dest num
def consolePrintI64 (fuel dest : Nat) (num : BitVec 64) := consolePrintSigned fuel dest num
def consolePrintU32 (fuel dest : Nat) (num : BitVec 32) := consolePrintUnsigned fuel dest num
def consolePrintU64 (fuel dest : Nat) (num : BitVec 64) := consolePrintUnsigned fuel dest num

def sizeOfInt : Nat := 4
def sizeOfLong : Nat := 8

section
variable {fuel dest base : Nat} {m : Memory} {s : State} {text : List UInt8}

theorem printLoop {a : Nat} {before : List UInt8} (str : Terminated m a text) (enough : text.length < fuel) :
    loop (printBody m) fuel ⟨a,before,s⟩ = some ⟨a + text.length,before ++ text,consolePrint text s⟩ := by
  induction text generalizing fuel a before s with
  | nil =>
    obtain ⟨fuel,rfl⟩ : ∃ n, fuel = n+1 := ⟨fuel-1,by omega⟩
    have here : m a = 0 := str.stop
    simp [loop,printBody,here,consolePrint]
  | cons c text ih =>
    obtain ⟨fuel,rfl⟩ : ∃ n, fuel = n+1 := ⟨fuel-1,by omega⟩
    obtain ⟨here,nonzero,rest⟩ := terminatedHead str
    have pass : printBody m ⟨a,before,s⟩ = .inl ⟨a+1,before ++ [c],consolePrintChar c s⟩ := by
      simp only [printBody,here,if_neg nonzero]
    have less : text.length < fuel := Nat.lt_of_succ_lt_succ enough
    have later := @ih fuel (consolePrintChar c s) (a+1) (before ++ [c]) rest less
    rw [loop,pass]
    simp only [later,consolePrint,if_neg nonzero,List.length_cons]
    rw [List.append_assoc,Nat.add_assoc,Nat.add_comm 1]
    rfl

theorem printFrom {a : Nat} (str : Terminated m a text) (enough : text.length < fuel) :
    consolePrintFrom fuel m a s = some ⟨a + text.length,text,consolePrint text s⟩ := printLoop str enough

structure Prints (dest : Nat) (text : List UInt8) (s : State) (r : Outcome) : Prop where
  printed : r.printed = text
  console : r.console = consolePrint text s
  writes : ∀ a, a ∈ r.writes ↔ dest ≤ a ∧ a < dest + (text.length + 1)

theorem printsBuffer {buffer : Store} (left : Left ⟨m,[]⟩ buffer dest (text ++ [0])) :
    Prints dest text s ⟨buffer.writes,text,consolePrint text s⟩ := by
  refine ⟨rfl,rfl,fun a => ?_⟩
  have writes := left.writes a
  rw [List.length_append] at writes
  exact writes.trans (or_iff_right List.not_mem_nil)

theorem signedPrints {w : Nat} (num : BitVec w) (two : 2 ≤ base) (high : base ≤ 36) (wide : 0 < w) (enough : w ≤ fuel)
    (more : (signedText base num).length < fuel) :
    ∃ r, consolePrintSigned fuel dest num base m s = some r ∧ Prints dest (signedText base num) s r := by
  obtain ⟨buffer,written,left⟩ := @signedLeaves base dest fuel ⟨m,[]⟩ w num two wide enough
  have str := leftTerminated left (signedProper two high num)
  unfold consolePrintSigned
  simp only [written,Option.bind_eq_bind,Option.bind_some,printFrom str more]
  exact ⟨_,rfl,printsBuffer left⟩

theorem unsignedPrints {w : Nat} (num : BitVec w) (two : 2 ≤ base) (high : base ≤ 36) (wide : 0 < w) (enough : w < fuel) :
    ∃ r, consolePrintUnsigned fuel dest num base m s = some r ∧ Prints dest (unsignedText base num) s r := by
  obtain ⟨buffer,written,left⟩ := @unsignedLeaves base dest fuel ⟨m,[]⟩ w num two wide (Nat.le_of_lt enough)
  have str := leftTerminated left (unsignedProper two high num)
  have short := unsignedLength two wide num
  unfold consolePrintUnsigned
  simp only [written,Option.bind_eq_bind,Option.bind_some,printFrom str (Nat.lt_of_le_of_lt short enough)]
  exact ⟨_,rfl,printsBuffer left⟩

/-! The buffers. -/

def Fits (size : Nat) (call : Nat → Nat → Memory → State → Option Outcome) : Prop :=
  ∃ least, ∀ fuel, least ≤ fuel → ∀ dest m s, ∃ r,
    call fuel dest m s = some r ∧ ∀ a ∈ r.writes, dest ≤ a ∧ a < dest + size

theorem fitsIff {size : Nat} (least : Nat) {call : Nat → Nat → Memory → State → Option Outcome}
    (prints : ∀ fuel, least ≤ fuel → ∀ dest m s, ∃ r, call fuel dest m s = some r ∧ Prints dest text s r) :
    Fits size call ↔ text.length < size := by
  constructor
  · rintro ⟨least',fits⟩
    let s : State := ⟨fun _ => ⟨0,0⟩,fun _ => ⟨0,0⟩,0,0,0,0,[]⟩
    obtain ⟨r,returns,written⟩ := prints (max least least') (by omega) 0 (fun _ => 0) s
    obtain ⟨r',returns',inside⟩ := fits (max least least') (by omega) 0 (fun _ => 0) s
    rw [returns] at returns'
    cases returns'
    have last := inside text.length ((written.writes _).mpr (by omega))
    omega
  · intro short
    refine ⟨least,fun fuel enough dest m s => ?_⟩
    obtain ⟨r,returns,written⟩ := prints fuel enough dest m s
    refine ⟨r,returns,fun a member => ?_⟩
    have bounds := (written.writes a).mp member
    omega

theorem signedFitsIff {w : Nat} (num : BitVec w) (two : 2 ≤ base) (high : base ≤ 36) (wide : 1 < w) :
    Fits (w+1) (fun fuel dest m s => consolePrintSigned fuel dest num base m s) ↔ ¬ (num = BitVec.intMin w ∧ base = 2) := by
  rw [← signedLengthIff two wide num,← Nat.lt_succ_iff]
  refine fitsIff (w + (signedText base num).length + 1) fun fuel enough dest m s => ?_
  exact signedPrints num two high (by omega) (by omega) (by omega)

theorem unsignedFits {w : Nat} (num : BitVec w) (two : 2 ≤ base) (high : base ≤ 36) (wide : 0 < w) :
    Fits (w+1) (fun fuel dest m s => consolePrintUnsigned fuel dest num base m s) := by
  have short := unsignedLength two wide num
  exact (fitsIff (w+1) fun fuel enough dest m s => unsignedPrints num two high wide enough).mpr (by omega)

theorem buffersFitIff (two : 2 ≤ base) (high : base ≤ 36) :
    (∀ num, Fits (sizeOfInt*8 + 1) (fun fuel dest m s => consolePrintI32 fuel dest num base m s) ↔
      ¬ (num = BitVec.intMin 32 ∧ base = 2)) ∧
    (∀ num, Fits (sizeOfInt*8 + 1) (fun fuel dest m s => consolePrintU32 fuel dest num base m s)) ∧
    (∀ num, Fits (sizeOfLong*8 + 1) (fun fuel dest m s => consolePrintI64 fuel dest num base m s) ↔
      ¬ (num = BitVec.intMin 64 ∧ base = 2)) ∧
    ∀ num, Fits (sizeOfLong*8 + 1) (fun fuel dest m s => consolePrintU64 fuel dest num base m s) :=
  ⟨fun num => signedFitsIff num two high (by decide),fun num => unsignedFits num two high (by decide),
    fun num => signedFitsIff num two high (by decide),fun num => unsignedFits num two high (by decide)⟩

theorem binaryBuffersFitIff :
    (∀ num, Fits (sizeOfInt*8 + 1) (fun fuel dest m s => consolePrintI32 fuel dest num 2 m s) ↔
      ¬ (num = BitVec.intMin 32 ∧ 2 = 2)) ∧
    (∀ num, Fits (sizeOfInt*8 + 1) (fun fuel dest m s => consolePrintU32 fuel dest num 2 m s)) ∧
    (∀ num, Fits (sizeOfLong*8 + 1) (fun fuel dest m s => consolePrintI64 fuel dest num 2 m s) ↔
      ¬ (num = BitVec.intMin 64 ∧ 2 = 2)) ∧
    ∀ num, Fits (sizeOfLong*8 + 1) (fun fuel dest m s => consolePrintU64 fuel dest num 2 m s) :=
  buffersFitIff (by decide) (by decide)

theorem lowestBinaryOverruns :
    ¬ Fits (sizeOfInt*8 + 1) (fun fuel dest m s => consolePrintI32 fuel dest (BitVec.intMin 32) 2 m s) := by
  intro fits
  exact (signedFitsIff _ (by decide) (by decide) (by decide)).mp fits ⟨rfl,rfl⟩

end

end Kokos.ConsolePrints

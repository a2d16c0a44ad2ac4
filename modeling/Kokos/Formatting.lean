import Kokos.ConsolePrints

/-! string_format_args. The format does not lie in the memory that the call writes to. The
arguments are the 8-byte slots that va_arg takes them from; an int is the low half of its
slot. The state keeps the addresses that the format was read at, last first. -/
namespace Kokos.Formatting
open ByteMemory ByteStrings Strings WhileLoops

structure Progress where
  c : Nat
  reads : List Nat
  l : Nat
  destination : Nat
  store : Store

def Progress.next (s : Progress) : Progress := { s with c := s.c+1, reads := (s.c+1)::s.reads }

def Progress.putChar (s : Progress) (c : UInt8) : Progress :=
  { s with destination := s.destination+1, store := s.store.put s.destination c }

def Progress.converted (s : Progress) (r : Option (Store × Nat)) : Option Progress :=
  r.map fun r => { s with l := s.l+1, destination := s.destination + r.2, store := r.1 }

def readUnsign (m : Memory) (s : Progress) : Bool × Progress := if m s.c = char 'u' then (true,s.next) else (false,s)

def readBase (m : Memory) (s : Progress) : Nat × Progress :=
  if m s.c = char 'b' then (2,s.next)
  else if m s.c = char 'h' then (16,s.next)
  else if m s.c = char 'o' then (8,s.next)
  else (10,s)

def convert (fuel : Nat) (c : UInt8) (unsign : Bool) (base : Nat) (arg : BitVec 64) (s : Progress) : Option Progress :=
  if c = char 'i' then
    if unsign then s.converted (stringFromU32 fuel s.destination (arg.setWidth 32) base s.store)
    else s.converted (stringFromI32 fuel s.destination (arg.setWidth 32) base s.store)
  else if c = char 'l' then
    if unsign then s.converted (stringFromU64 fuel s.destination arg base s.store)
    else s.converted (stringFromI64 fuel s.destination arg base s.store)
  else if c = char 'p' then s.converted (stringFromU64 fuel s.destination arg 16 s.store)
  else if c = char '%' then some (s.putChar (char '%'))
  else some s

def afterSwitch : Option Progress → Progress ⊕ Option Progress
  | some s => .inl s.next
  | none => .inr none

def formatBody (fuel : Nat) (m : Memory) (l : Nat → BitVec 64) (s : Progress) : Progress ⊕ Option Progress :=
  if m s.c = 0 then .inr (some s)
  else if m s.c = char '%' then
    let (unsign,s) := readUnsign m s.next
    let (base,s) := readBase m s
    afterSwitch (convert fuel (m s.c) unsign base (l s.l) s)
  else .inl (s.putChar (m s.c)).next

def stringFormatArgs (fuel destination : Nat) (m : Memory) (format : Nat) (l : Nat → BitVec 64) (s : Store) : Option Progress :=
  (loop (formatBody fuel m l) fuel ⟨format,[format],0,destination,s⟩).join

/-! What a format says. -/

inductive Radix where
  | b
  | h
  | o
  deriving DecidableEq

def Radix.letter : Radix → UInt8
  | .b => char 'b'
  | .h => char 'h'
  | .o => char 'o'

def radixBase : Option Radix → Nat
  | none => 10
  | some .b => 2
  | some .h => 16
  | some .o => 8

def unsignLetters (unsign : Bool) : List UInt8 := if unsign then [char 'u'] else []

def radixLetters (radix : Option Radix) : List UInt8 := (radix.map Radix.letter).toList

def stub (unsign : Bool) (radix : Option Radix) : List UInt8 := char '%' :: (unsignLetters unsign ++ radixLetters radix)

inductive Piece where
  | literal (c : UInt8)
  | directive (unsign : Bool) (radix : Option Radix) (c : UInt8)

def Piece.render : Piece → List UInt8
  | .literal c => [c]
  | .directive unsign radix c => stub unsign radix ++ [c]

def render (ps : List Piece) : List UInt8 := ps.flatMap Piece.render

def Decides (unsign : Bool) (radix : Option Radix) (c : UInt8) : Prop :=
  radix = none → c ∉ [char 'b',char 'h',char 'o'] ∧ (unsign = false → c ≠ char 'u')

def Piece.Proper : Piece → Prop
  | .literal c => c ≠ 0 ∧ c ≠ char '%'
  | .directive unsign radix c => c ≠ 0 ∧ Decides unsign radix c

instance (unsign radix c) : Decidable (Decides unsign radix c) := by unfold Decides; infer_instance

instance : (p : Piece) → Decidable p.Proper
  | .literal c => inferInstanceAs (Decidable (c ≠ 0 ∧ c ≠ char '%'))
  | .directive unsign radix c => inferInstanceAs (Decidable (c ≠ 0 ∧ Decides unsign radix c))

def Proper (ps : List Piece) : Prop := ∀ p ∈ ps, p.Proper

instance (ps) : Decidable (Proper ps) := by unfold Proper; infer_instance

def CutOff (str : List UInt8) : Prop := ∃ ps unsign radix, Proper ps ∧ str = render ps ++ stub unsign radix

def takesNumber (c : UInt8) : Bool := c = char 'i' ∨ c = char 'l' ∨ c = char 'p'

def Piece.isNumber : Piece → Bool
  | .literal _ => false
  | .directive _ _ c => takesNumber c

def Piece.isWritten : Piece → Bool
  | .literal _ => true
  | .directive _ _ c => takesNumber c || c = char '%'

def directiveText (unsign : Bool) (base : Nat) (c : UInt8) (arg : BitVec 64) : List UInt8 :=
  if c = char 'i' then
    if unsign then unsignedText base (arg.setWidth 32) else signedText base (arg.setWidth 32)
  else if c = char 'l' then
    if unsign then unsignedText base arg else signedText base arg
  else if c = char 'p' then unsignedText 16 arg
  else if c = char '%' then [char '%']
  else []

def Piece.text (arg : BitVec 64) : Piece → List UInt8
  | .literal c => [c]
  | .directive unsign radix c => directiveText unsign (radixBase radix) c arg

def taken (ps : List Piece) : Nat := ps.countP Piece.isNumber

def expansion (l : Nat → BitVec 64) : Nat → List Piece → List UInt8
  | _, [] => []
  | k, p::ps => p.text (l k) ++ expansion l (k + taken [p]) ps

def endsInNumber (ps : List Piece) : Bool := (ps.filter Piece.isWritten).getLast?.any Piece.isNumber

def closing (number : Bool) : List UInt8 := if number then [0] else []

def ending (ps : List Piece) : List UInt8 := closing (endsInNumber ps)

section
variable {ps qs : List Piece} {p : Piece} {l : Nat → BitVec 64} {k : Nat} {unsign : Bool} {radix : Option Radix} {c : UInt8}

theorem renderAppend (ps qs : List Piece) : render (ps ++ qs) = render ps ++ render qs := List.flatMap_append

theorem renderOne (p : Piece) : render [p] = p.render := List.append_nil _

theorem takenAppend (ps qs : List Piece) : taken (ps ++ qs) = taken ps + taken qs := List.countP_append

theorem expansionAppend (l : Nat → BitVec 64) (k : Nat) (ps qs : List Piece) :
    expansion l k (ps ++ qs) = expansion l k ps ++ expansion l (k + taken ps) qs := by
  induction ps generalizing k with
  | nil => rfl
  | cons p ps ih =>
    rw [List.cons_append,expansion,expansion,ih,List.append_assoc,Nat.add_assoc,← takenAppend]
    rfl

theorem expansionNext : expansion l k (ps ++ [p]) = expansion l k ps ++ p.text (l (k + taken ps)) := by
  rw [expansionAppend,expansion,expansion,List.append_nil]

theorem properNext (proper : Proper (p::ps)) : p.Proper ∧ Proper ps := List.forall_mem_cons.mp proper

theorem endingNext : ending (ps ++ [p]) = if p.isWritten then closing p.isNumber else ending ps := by
  unfold ending endsInNumber
  rw [List.filter_append]
  by_cases written : p.isWritten = true
  · simp [written]
  · simp [written]

theorem endingShort (ps : List Piece) : (ending ps).length ≤ 1 := by
  unfold ending closing
  split <;> decide

theorem takenOne (p : Piece) : taken [p] = p.isNumber.toNat := by
  unfold taken
  rw [List.countP_singleton]
  cases p.isNumber <;> rfl

def Piece.output (p : Piece) (arg : BitVec 64) : List UInt8 := p.text arg ++ closing p.isNumber

theorem writtenIff (p : Piece) (arg : BitVec 64) : p.isWritten = true ↔ p.output arg ≠ [] := by
  unfold Piece.output
  cases p with
  | literal c => simp [Piece.isWritten,Piece.text]
  | directive unsign radix c =>
    simp only [Piece.isWritten,Piece.text,Piece.isNumber]
    by_cases number : takesNumber c = true
    · simp [number,closing]
    · have others := number
      simp only [takesNumber,decide_eq_true_eq,not_or] at others
      unfold directiveText
      rw [if_neg others.1,if_neg others.2.1,if_neg others.2.2]
      by_cases percent : c = char '%'
      · simp [percent]
      · simp [number,percent,closing]

theorem radixTwo (radix : Option Radix) : 2 ≤ radixBase radix ∧ radixBase radix ≤ 36 := by
  rcases radix with none | r
  · decide
  · cases r <;> decide

/-! Every string without a zero byte is the pieces of a format, and perhaps part of a
directive behind them. -/

theorem stubSplit (str : List UInt8) : ∃ unsign radix rest, char '%' :: str = stub unsign radix ++ rest ∧
    rest.length ≤ str.length ∧ ∀ c rest', rest = c::rest' → Decides unsign radix c := by
  have afterUnsign : ∃ unsign rest, str = unsignLetters unsign ++ rest ∧
      ∀ c rest', rest = c::rest' → unsign = false → c ≠ char 'u' := by
    cases str with
    | nil => exact ⟨false,[],rfl,by simp⟩
    | cons c str =>
      by_cases u : c = char 'u'
      · exact ⟨true,str,by rw [u]; rfl,by simp⟩
      · refine ⟨false,c::str,rfl,fun c' _ same _ => ?_⟩
        rw [← (List.cons.inj same).1]
        exact u
  obtain ⟨unsign,rest,rfl,plain⟩ := afterUnsign
  have afterRadix : ∃ radix rest', rest = radixLetters radix ++ rest' ∧ ∀ c rest'', rest' = c::rest'' → Decides unsign radix c := by
    cases rest with
    | nil => exact ⟨none,[],rfl,by simp⟩
    | cons c rest =>
      by_cases letter : ∃ r : Radix, c = r.letter
      · obtain ⟨r,rfl⟩ := letter
        exact ⟨some r,rest,rfl,fun _ _ _ other => absurd other (by simp)⟩
      · refine ⟨none,c::rest,rfl,fun c' rest' same _ => ?_⟩
        obtain ⟨rfl,rfl⟩ := List.cons.inj same
        refine ⟨fun member => letter ?_,plain c rest rfl⟩
        simp only [List.mem_cons,List.not_mem_nil,or_false] at member
        rcases member with b | h | o
        · exact ⟨.b,b⟩
        · exact ⟨.h,h⟩
        · exact ⟨.o,o⟩
  obtain ⟨radix,rest',rfl,decides⟩ := afterRadix
  refine ⟨unsign,radix,rest',by simp [stub],?_,decides⟩
  simp only [List.length_append]
  omega

theorem wholeOrCutOff {str : List UInt8} (nonzero : ∀ c ∈ str, c ≠ 0) : (∃ ps, Proper ps ∧ str = render ps) ∨ CutOff str := by
  induction size : str.length using Nat.strong_induction_on generalizing str with
  | _ n ih =>
    have further : ∀ p : Piece, p.Proper → ∀ rest, str = p.render ++ rest → rest.length < str.length →
        (∃ ps, Proper ps ∧ str = render ps) ∨ CutOff str := by
      intro p proper rest split less
      rcases ih rest.length (by omega) (fun c member => nonzero c (by rw [split]; exact List.mem_append_right _ member)) rfl with
        ⟨ps,all,same⟩ | ⟨ps,unsign,radix,all,same⟩
      · exact Or.inl ⟨p::ps,List.forall_mem_cons.mpr ⟨proper,all⟩,by rw [split,same]; rfl⟩
      · refine Or.inr ⟨p::ps,unsign,radix,List.forall_mem_cons.mpr ⟨proper,all⟩,?_⟩
        rw [split,same]
        exact (List.append_assoc _ _ _).symm
    cases str with
    | nil => exact Or.inl ⟨[],by simp [Proper],rfl⟩
    | cons c str =>
      by_cases percent : c = char '%'
      · obtain ⟨unsign,radix,rest,split,shorter,decides⟩ := stubSplit str
        rw [← percent] at split
        cases rest with
        | nil => exact Or.inr ⟨[],unsign,radix,by simp [Proper],by rwa [List.append_nil] at split⟩
        | cons d rest =>
          have member : d ∈ c::str := by
            rw [split]
            exact List.mem_append_right _ List.mem_cons_self
          rw [List.length_cons] at shorter
          refine further (.directive unsign radix d) ⟨nonzero d member,decides d rest rfl⟩ rest ?_ (by rw [List.length_cons]; omega)
          rw [split]
          exact (List.append_assoc _ [d] _).symm
      · exact further (.literal c) ⟨nonzero c List.mem_cons_self,percent⟩ str rfl (by rw [List.length_cons]; omega)

end

end Kokos.Formatting

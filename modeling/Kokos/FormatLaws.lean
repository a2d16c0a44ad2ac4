import Kokos.FormatRuns

/-! Which formats string_format_args reads to their end and no further, what it makes of
them, and what console_format prints of it. -/
namespace Kokos.Formatting
open ByteMemory ByteStrings Console ConsolePrints Strings WhileLoops

def consoleFormat (fuel dest : Nat) (stack m : Memory) (format : Nat) (l : Nat → BitVec 64) (s : State) : Option Outcome := do
  let r ← stringFormatArgs fuel dest m format l ⟨stack,[]⟩
  let p ← consolePrintFrom fuel r.store.memory dest s
  some ⟨r.store.writes,p.printed,p.console⟩

section
variable {m : Memory} {format : Nat} {str : List UInt8} {ps : List Piece}

def StaysInside (m : Memory) (format : Nat) (str : List UInt8) (l : Nat → BitVec 64) (destination : Nat) (store : Store) : Prop :=
  ∃ least, ∀ fuel, least ≤ fuel → ∃ s', stringFormatArgs fuel destination m format l store = some s' ∧
    ∀ a ∈ s'.reads, format ≤ a ∧ a ≤ format + str.length

theorem wholeStays (proper : Proper ps) (terminated : Terminated m format (render ps)) (l : Nat → BitVec 64) (destination : Nat)
    (store : Store) : StaysInside m format (render ps) l destination store := by
  refine ⟨ps.length + 64,fun fuel enough => ?_⟩
  have least : 64 ≤ fuel := by omega
  obtain ⟨s',returns,_,inside⟩ := formatLeaves destination store proper terminated least (by omega)
  exact ⟨s',returns,inside⟩

theorem cutOffStrays (terminated : Terminated m format str) (cut : CutOff str) (l : Nat → BitVec 64) (destination : Nat)
    (store : Store) : ¬ StaysInside m format str l destination store := by
  rintro ⟨least,stays⟩
  obtain ⟨ps,unsign,radix,proper,rfl⟩ := cut
  obtain ⟨s',returns,inside⟩ := stays (least + ps.length + 64) (by omega)
  have behind := cutOffReads proper terminated (by omega) (by omega) returns
  have bound := (inside _ behind).2
  omega

theorem formatStaysIff (terminated : Terminated m format str) (l : Nat → BitVec 64) (destination : Nat) (store : Store) :
    StaysInside m format str l destination store ↔ ¬ CutOff str := by
  constructor
  · intro stays cut
    exact cutOffStrays terminated cut l destination store stays
  · intro whole
    rcases wholeOrCutOff terminated.proper with ⟨ps,proper,rfl⟩ | cut
    · exact wholeStays proper terminated l destination store
    · exact absurd cut whole

def memoryOf (str : List UInt8) (a : Nat) : UInt8 := str.getD a 0

theorem memoryOfTerminated (nonzero : ∀ c ∈ str, c ≠ 0) : Terminated (memoryOf str) 0 str := by
  refine ⟨loadBytesIff.mpr fun i less => ?_,nonzero,?_⟩
  · rw [List.getElem?_eq_getElem less]
    simp [memoryOf,less]
  · simp [memoryOf]

theorem renderNonzero (proper : Proper ps) : ∀ c ∈ render ps, c ≠ 0 := by
  intro c member
  obtain ⟨p,there,member⟩ := List.mem_flatMap.mp member
  have right := proper p there
  cases p with
  | literal d =>
    rw [List.mem_singleton.mp member]
    exact right.1
  | directive unsign radix d =>
    rcases List.mem_append.mp member with member | member
    · have letters : ∀ unsign radix, ∀ c ∈ stub unsign radix, c ≠ 0 := by
        intro unsign radix
        rcases radix with none | r
        · cases unsign <;> exact eachOf (by decide)
        · cases unsign <;> cases r <;> exact eachOf (by decide)
      exact letters unsign radix c member
    · rw [List.mem_singleton.mp member]
      exact right.1

theorem percentStrays : ¬ StaysInside (memoryOf [char '%']) 0 [char '%'] (fun _ => 0) 0 ⟨fun _ => 0,[]⟩ := by
  refine cutOffStrays (memoryOfTerminated (eachOf (by decide))) ?_ _ _ _
  exact ⟨[],false,none,by decide,rfl⟩

theorem percentStaysIff : StaysInside (memoryOf [char '%']) 0 [char '%'] (fun _ => 0) 0 ⟨fun _ => 0,[]⟩ ↔ ¬ CutOff [char '%'] :=
  formatStaysIff (memoryOfTerminated (eachOf (by decide))) _ _ _

theorem wholeNotCutOff (proper : Proper ps) : ¬ CutOff (render ps) := by
  intro cut
  have terminated := memoryOfTerminated (renderNonzero proper)
  exact cutOffStrays terminated cut (fun _ => 0) 0 ⟨fun _ => 0,[]⟩ (wholeStays proper terminated _ _ _)

/-! The text. -/

def hexLine : List Piece := [.directive true (some .h) (char 'l'),.literal newline]

def Formats (m : Memory) (format : Nat) (l : Nat → BitVec 64) (text : List UInt8) : Prop :=
  ∃ least, ∀ fuel, least ≤ fuel → ∀ destination store, ∃ s' rest, stringFormatArgs fuel destination m format l store = some s' ∧
    Left store s'.store destination (text ++ rest) ∧ (rest = [] ∨ rest = [0])

theorem wholeFormats (proper : Proper ps) (terminated : Terminated m format (render ps)) (l : Nat → BitVec 64) :
    Formats m format l (expansion l 0 ps) := by
  refine ⟨ps.length + 64,fun fuel enough destination store => ?_⟩
  have least : 64 ≤ fuel := by omega
  obtain ⟨s',returns,left,_⟩ := formatLeaves destination store proper terminated least (by omega)
  refine ⟨s',_,returns,left,?_⟩
  unfold ending closing
  split
  · exact Or.inr rfl
  · exact Or.inl rfl

theorem formatsExpand (terminated : Terminated m format str) (whole : ¬ CutOff str) (l : Nat → BitVec 64) :
    (∃ ps, Proper ps ∧ str = render ps) ∧
    (∀ ps, Proper ps → str = render ps → Formats m format l (expansion l 0 ps)) ∧
    ∀ ps qs, Proper ps → Proper qs → str = render ps ++ render qs →
      Formats m format l (expansion l 0 ps ++ expansion l (taken ps) qs) := by
  refine ⟨(wholeOrCutOff terminated.proper).resolve_right whole,?_,?_⟩
  · rintro ps proper rfl
    exact wholeFormats proper terminated l
  · rintro ps qs first second rfl
    rw [← renderAppend] at terminated
    have formats := wholeFormats (List.forall_mem_append.mpr ⟨first,second⟩) terminated l
    rwa [expansionAppend,Nat.zero_add] at formats

theorem hexLineExpands :
    (∃ ps, Proper ps ∧ render hexLine = render ps) ∧
    (∀ ps, Proper ps → render hexLine = render ps → Formats (memoryOf (render hexLine)) 0 (fun _ => 42) (expansion (fun _ => 42) 0 ps)) ∧
    ∀ ps qs, Proper ps → Proper qs → render hexLine = render ps ++ render qs →
      Formats (memoryOf (render hexLine)) 0 (fun _ => 42) (expansion (fun _ => 42) 0 ps ++ expansion (fun _ => 42) (taken ps) qs) :=
  formatsExpand (memoryOfTerminated (eachOf (by decide))) (wholeNotCutOff (by decide)) _

/-! The zero byte behind it. -/

def Terminates (m : Memory) (format : Nat) (l : Nat → BitVec 64) (text : List UInt8) : Prop :=
  ∃ least, ∀ fuel, least ≤ fuel → ∀ destination store, ∃ s', stringFormatArgs fuel destination m format l store = some s' ∧
    s'.store.memory (destination + text.length) = 0

def PrintsExactly (m : Memory) (format : Nat) (l : Nat → BitVec 64) (text : List UInt8) : Prop :=
  ∃ least, ∀ fuel, least ≤ fuel → ∀ dest stack s, ∃ r, consoleFormat fuel dest stack m format l s = some r ∧
    r.printed = text ∧ r.console = consolePrint text s ∧ ∀ a ∈ r.writes, dest ≤ a ∧ a < dest+256

theorem directiveNonzero {base : Nat} (two : 2 ≤ base) (high : base ≤ 36) (unsign : Bool) (c : UInt8) (arg : BitVec 64) :
    ∀ d ∈ directiveText unsign base c arg, d ≠ 0 := by
  unfold directiveText
  split
  · split
    · exact unsignedProper two high _
    · exact signedProper two high _
  split
  · split
    · exact unsignedProper two high _
    · exact signedProper two high _
  split
  · exact unsignedProper (by decide) (by decide) _
  split
  · exact eachOf (by decide)
  · simp

theorem expansionNonzero (proper : Proper ps) (l : Nat → BitVec 64) (k : Nat) : ∀ c ∈ expansion l k ps, c ≠ 0 := by
  induction ps generalizing k with
  | nil => simp [expansion]
  | cons p ps ih =>
    obtain ⟨head,rest⟩ := properNext proper
    refine List.forall_mem_append.mpr ⟨?_,ih rest _⟩
    cases p with
    | literal c =>
      intro d member
      rw [List.mem_singleton.mp member]
      exact head.1
    | directive unsign radix c => exact directiveNonzero (radixTwo radix).1 (radixTwo radix).2 unsign c _

theorem endingClosed (number : endsInNumber ps = true) : ending ps = [0] := by
  unfold ending closing
  rw [if_pos number]

theorem endingOpen (other : ¬ endsInNumber ps = true) : ending ps = [] := by
  unfold ending closing
  rw [if_neg other]

theorem terminatesIff (proper : Proper ps) (terminated : Terminated m format (render ps)) (l : Nat → BitVec 64) :
    Terminates m format l (expansion l 0 ps) ↔ endsInNumber ps = true := by
  constructor
  · rintro ⟨least,terminates⟩
    by_contra other
    have enough : 64 ≤ least + ps.length + 64 := by omega
    obtain ⟨s1,returns1,zero⟩ := terminates (least + ps.length + 64) (by omega) 0 ⟨fun _ => 1,[]⟩
    obtain ⟨s2,returns2,left,_⟩ := formatLeaves (l := l) 0 ⟨fun _ => 1,[]⟩ proper terminated enough (by omega)
    rw [returns1] at returns2
    cases returns2
    rw [endingOpen other,List.append_nil] at left
    -- The byte was not written to.
    rw [left.others _ (Or.inr (Nat.le_refl _))] at zero
    have one : (1 : UInt8) ≠ 0 := by decide
    exact one zero
  · intro number
    refine ⟨ps.length + 64,fun fuel enough destination store => ?_⟩
    have least : 64 ≤ fuel := by omega
    obtain ⟨s',returns,left,_⟩ := formatLeaves destination store proper terminated least (by omega)
    rw [endingClosed number] at left
    exact ⟨s',returns,(leftTerminated left (expansionNonzero proper l 0)).stop⟩

/-! console_format. -/

theorem printsOn (nonzero : ∀ a, m a ≠ 0) (fuel str : Nat) (s : State) : consolePrintFrom fuel m str s = none := by
  cases done : consolePrintFrom fuel m str s with
  | none => rfl
  | some r =>
    have moves : ∀ s : Printing, True → ∃ s', printBody m s = .inl s' ∧ True := fun s _ => ⟨_,if_neg (nonzero s.str),trivial⟩
    exact absurd (endsOfLoop done) (neverEnds moves trivial)

theorem filledNonzero {s s' : Store} {a : Nat} (left : Left s s' a str) (nonzero : ∀ c ∈ str, c ≠ 0) (before : ∀ a, s.memory a ≠ 0)
    (x : Nat) : s'.memory x ≠ 0 := by
  by_cases inside : a ≤ x ∧ x < a + str.length
  · have there := loadBytesIff.mp left.contents (x-a) (by omega)
    rw [show a + (x-a) = x by omega] at there
    exact nonzero _ (List.mem_of_getElem? there)
  · rw [left.others x (by omega)]
    exact before x

theorem printsExactlyIff (proper : Proper ps) (terminated : Terminated m format (render ps)) (l : Nat → BitVec 64) :
    PrintsExactly m format l (expansion l 0 ps) ↔ endsInNumber ps = true ∧ (expansion l 0 ps).length < 256 := by
  have nonzero := expansionNonzero proper l 0
  constructor
  · rintro ⟨least,prints⟩
    have enough : 64 ≤ least + ps.length + 64 := by omega
    let s : State := ⟨fun _ => ⟨0,0⟩,fun _ => ⟨0,0⟩,0,0,0,0,[]⟩
    obtain ⟨r,returns,_,_,inside⟩ := prints (least + ps.length + 64) (by omega) 0 (fun _ => 1) s
    obtain ⟨s',formats,left,_⟩ := formatLeaves (l := l) 0 ⟨fun _ => 1,[]⟩ proper terminated enough (by omega)
    unfold consoleFormat at returns
    rw [formats,Option.bind_eq_bind,Option.bind_some] at returns
    obtain ⟨p,prints,same⟩ := Option.bind_eq_some_iff.mp returns
    have number : endsInNumber ps = true := by
      by_contra other
      rw [endingOpen other,List.append_nil] at left
      have one : (1 : UInt8) ≠ 0 := by decide
      rw [printsOn (filledNonzero left nonzero fun _ => one)] at prints
      cases prints
    refine ⟨number,?_⟩
    rw [endingClosed number] at left
    have last : (expansion l 0 ps).length ∈ s'.store.writes := by
      refine (left.writes _).mpr (Or.inr ⟨Nat.zero_le _,?_⟩)
      rw [List.length_append,Nat.zero_add]
      exact Nat.lt_succ_self _
    rw [← Option.some.inj same] at inside
    have bound := inside _ last
    omega
  · rintro ⟨number,short⟩
    refine ⟨ps.length + 64 + 256,fun fuel enough dest stack s => ?_⟩
    have least : 64 ≤ fuel := by omega
    obtain ⟨s',formats,left,_⟩ := formatLeaves (l := l) dest ⟨stack,[]⟩ proper terminated least (by omega)
    rw [endingClosed number] at left
    have more : (expansion l 0 ps).length < fuel := by omega
    have prints := printFrom (s := s) (leftTerminated left nonzero) more
    unfold consoleFormat
    rw [formats,Option.bind_eq_bind,Option.bind_some,prints]
    refine ⟨_,rfl,rfl,rfl,fun a member => ?_⟩
    rcases (left.writes a).mp member with none | inside
    · cases none
    · rw [List.length_append] at inside
      have upper := inside.2
      rw [List.length_singleton] at upper
      omega

theorem terminatedExactly (proper : Proper ps) (terminated : Terminated m format (render ps)) (l : Nat → BitVec 64) :
    (Terminates m format l (expansion l 0 ps) ↔ endsInNumber ps = true) ∧
    (PrintsExactly m format l (expansion l 0 ps) ↔ endsInNumber ps = true ∧ (expansion l 0 ps).length < 256) :=
  ⟨terminatesIff proper terminated l,printsExactlyIff proper terminated l⟩

theorem hexLineOpen : ¬ Terminates (memoryOf (render hexLine)) 0 (fun _ => 42) (expansion (fun _ => 42) 0 hexLine) ∧
    ¬ PrintsExactly (memoryOf (render hexLine)) 0 (fun _ => 42) (expansion (fun _ => 42) 0 hexLine) := by
  have terminated : Terminated (memoryOf (render hexLine)) 0 (render hexLine) := memoryOfTerminated (eachOf (by decide))
  have other : ¬ endsInNumber hexLine = true := by decide
  constructor
  · intro terminates
    exact other ((terminatesIff (by decide) terminated _).mp terminates)
  · intro prints
    exact other ((printsExactlyIff (by decide) terminated _).mp prints).1

theorem hexLineExactly :
    (Terminates (memoryOf (render hexLine)) 0 (fun _ => 42) (expansion (fun _ => 42) 0 hexLine) ↔ endsInNumber hexLine = true) ∧
    (PrintsExactly (memoryOf (render hexLine)) 0 (fun _ => 42) (expansion (fun _ => 42) 0 hexLine) ↔
      endsInNumber hexLine = true ∧ (expansion (fun _ => 42) 0 hexLine).length < 256) :=
  terminatedExactly (by decide) (memoryOfTerminated (eachOf (by decide))) _

end

end Kokos.Formatting

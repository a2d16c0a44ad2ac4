import Kokos.ByteMemory
import Kokos.CountedLoops
import Kokos.WhileLoops

/-! The entries of a MADT: acpi_print_madt walks them by an offset, acpi_madt_iterate from
one to the next. `overflow` is a signed overflow of an `int`; addresses do not wrap. -/
namespace Kokos.Acpi
open ByteMemory CountedLoops WhileLoops

def sizeofAcpiMadt : Nat := 44

def sdtLength (m : Memory) (sdt : Nat) : Nat := readUnsigned m (sdt+4)
def localApicAddress (m : Memory) (madt : Nat) : Nat := readUnsigned m (madt+36)
def entryType (m : Memory) (entry : Nat) : Nat := (m entry).toNat
def entryLength (m : Memory) (entry : Nat) : Nat := (m (entry+1)).toNat

/-- The bytes summed up in `unsigned char`; `none` is the overflow of `int i`. -/
def acpiValidateSdt (m : Memory) (sdt : Nat) : Option UInt8 :=
  if 2^31 ≤ sdtLength m sdt then none
  else some (countUp (sdtLength m sdt) (fun i sum => sum + m (sdt+i)) 0)

inductive ConsoleCall where
  | print (text : String)
  | printU32 (value base : Nat)
  | newLine
  deriving DecidableEq, Repr

def printedEntry (m : Memory) (entry : Nat) : List ConsoleCall :=
  match entryType m entry with
  | 0 => [.print " - found local processor with id ",.printU32 (m (entry+2)).toNat 10,
      .print " and apic id ",.printU32 (m (entry+3)).toNat 10,
      .print " and flags ",.printU32 (readUnsigned m (entry+4)) 2,.newLine]
  | 1 => [.print " - found io apic with address 0x",.printU32 (readUnsigned m (entry+4)) 16,
      .print " and id ",.printU32 (m (entry+2)).toNat 10,
      .print " and base ",.printU32 (readUnsigned m (entry+8)) 10,.newLine]
  | 2 => [.print " - found io apic source with bus ",.printU32 (m (entry+2)).toNat 10,
      .print " and irq ",.printU32 (m (entry+3)).toNat 10,
      .print " and global system interrupt ",.printU32 (readUnsigned m (entry+4)) 10,.newLine]
  | 3 => [.print " - found io apic non maskable with source ",.printU32 (m (entry+2)).toNat 10,
      .print " and global system interrupt ",.printU32 (readUnsigned m (entry+6)) 10,.newLine]
  | 4 => [.print " - found local apic non maskable with processor target ",.printU32 (m (entry+2)).toNat 10,
      .print " and local interrupt ",.printU32 (m (entry+5)).toNat 10,.newLine]
  -- console_print_u32 takes the low half of the 64-bit address
  | 5 => [.print " - local apic 64 bit address 0x",.printU32 (readWord m (entry+4) % 2^32) 16,.newLine]
  | 9 => [.print " - found local processor with id ",.printU32 (readUnsigned m (entry+4)) 10,
      .print " and x2apic id ",.printU32 (readUnsigned m (entry+12)) 10,.newLine]
  | type => [.print " - madt entry of unknown type ",.printU32 type 10,.newLine]

def printedHead (m : Memory) (madt : Nat) : List ConsoleCall :=
  [.print "madt.local_apic_address = 0x",.printU32 (localApicAddress m madt) 16,.print "\n"]

structure Printing where
  i : Nat
  visited : List Nat
  calls : List ConsoleCall
  deriving DecidableEq, Repr

inductive Printed where
  | returned (visited : List Nat) (calls : List ConsoleCall)
  | overflow
  deriving DecidableEq, Repr

def printBody (m : Memory) (madt : Nat) (s : Printing) : Printing ⊕ Printed :=
  if s.i < sdtLength m madt then
    let entry := madt + s.i
    let i := s.i + entryLength m entry
    if i < 2^31 then .inl ⟨i,s.visited ++ [entry],s.calls ++ printedEntry m entry⟩ else .inr .overflow
  else .inr (.returned s.visited s.calls)

def acpiPrintMadt (fuel : Nat) (m : Memory) (madt : Nat) : Option Printed :=
  loop (printBody m madt) fuel ⟨sizeofAcpiMadt,[],printedHead m madt⟩

def acpiMadtIterate (m : Memory) (madt previous : Nat) : Nat :=
  if previous = 0 then madt + sizeofAcpiMadt
  else
    let next := previous + entryLength m previous
    if madt + sdtLength m madt ≤ next then 0 else next

def iterateTypeBody (m : Memory) (madt type previous : Nat) : Nat ⊕ Nat :=
  let next := acpiMadtIterate m madt previous
  if next ≠ 0 ∧ entryType m next ≠ type then .inl next else .inr next

def acpiMadtIterateType (fuel : Nat) (m : Memory) (madt previous type : Nat) : Option Nat :=
  loop (iterateTypeBody m madt type) fuel previous

def iterateAll (fuel : Nat) (m : Memory) (madt : Nat) : Option (List Nat) :=
  gather (fun _ previous => some (acpiMadtIterate m madt previous)) 0 fuel 0

def iterateTypeAll (fuel : Nat) (m : Memory) (madt type : Nat) : Option (List Nat) :=
  gather (fun fuel previous => acpiMadtIterateType fuel m madt previous type) 0 fuel 0

/-! The filter loop and the enumeration, over what acpi_madt_iterate passes. -/

def Iterates (m : Memory) (madt : Nat) : Nat → List Nat → Prop :=
  Gathers (fun previous next => acpiMadtIterate m madt previous = next) 0

theorem iterateTypeFinds {m madt previous entries} (iterates : Iterates m madt previous entries) (type : Nat) :
    Ends (iterateTypeBody m madt type) previous ((entries.find? (entryType m · = type)).getD 0) := by
  induction iterates with
  | last here => exact .leave (by simp [iterateTypeBody,here])
  | @more previous next rest here goesOn later ih =>
    by_cases found : entryType m next = type
    · exact .leave (by simp [iterateTypeBody,here,found])
    · have pass : iterateTypeBody m madt type previous = .inl next := by simp [iterateTypeBody,here,found,goesOn]
      simpa [found] using Ends.goOn pass ih

theorem gathersSkip {m madt previous next type results} (here : acpiMadtIterate m madt previous = next) (goesOn : next ≠ 0)
    (other : entryType m next ≠ type) (gathers : Gathers (Ends (iterateTypeBody m madt type)) 0 next results) :
    Gathers (Ends (iterateTypeBody m madt type)) 0 previous results := by
  have pass : iterateTypeBody m madt type previous = .inl next := by simp [iterateTypeBody,here,goesOn,other]
  cases gathers with
  | last call => exact .last (.goOn pass call)
  | more call notNull after => exact .more (.goOn pass call) notNull after

theorem gathersType {m madt previous entries} (iterates : Iterates m madt previous entries) (type : Nat) :
    Gathers (Ends (iterateTypeBody m madt type)) 0 previous (entries.filter (entryType m · = type)) := by
  induction iterates with
  | last here => exact .last (.leave (by simp [iterateTypeBody,here]))
  | @more previous next rest here goesOn later ih =>
    by_cases found : entryType m next = type
    · have call : Ends (iterateTypeBody m madt type) previous next := .leave (by simp [iterateTypeBody,here,found])
      simpa [found] using Gathers.more call goesOn ih
    · have same : (next::rest).filter (entryType m · = type) = rest.filter (entryType m · = type) := by simp [found]
      rw [same]
      exact gathersSkip here goesOn found ih

theorem enumerates {m madt entries} (iterates : Iterates m madt 0 entries) (type : Nat) :
    ∃ least, ∀ fuel, least ≤ fuel → iterateTypeAll fuel m madt type = some (entries.filter (entryType m · = type)) :=
  gatherOfGathers (fun _ _ => loopOfEnds) (gathersType iterates type)

/-! The entries that the length bytes of the table lead to. -/

inductive Leads (m : Memory) (madt : Nat) : Nat → Nat → Prop where
  | here {o} : Leads m madt o o
  | next {o last} (inside : o < sdtLength m madt) (rest : Leads m madt (o + entryLength m (madt+o)) last) :
      Leads m madt o last

def Reached (m : Memory) (madt : Nat) : Nat → Prop := Leads m madt sizeofAcpiMadt

inductive Walked (m : Memory) (madt : Nat) : Nat → List Nat → Prop where
  | past {o} (outside : sdtLength m madt ≤ o) : Walked m madt o []
  | entry {o rest} (inside : o < sdtLength m madt) (later : Walked m madt (o + entryLength m (madt+o)) rest) :
      Walked m madt o ((madt+o)::rest)

theorem leadsOn {m madt o last} (leads : Leads m madt o last) (inside : last < sdtLength m madt) :
    Leads m madt o (last + entryLength m (madt+last)) := by
  induction leads with
  | here => exact .next inside .here
  | next here _ ih => exact .next here (ih inside)

theorem leadsUp {m madt o last} (leads : Leads m madt o last) : o ≤ last := by
  induction leads with
  | here => exact Nat.le_refl _
  | next _ _ ih => omega

theorem leadsTrans {m madt o o' last} (first : Leads m madt o o') (second : Leads m madt o' last) : Leads m madt o last := by
  induction first with
  | here => exact second
  | next inside _ ih => exact .next inside (ih second)

theorem walkedExists {m madt o} (moves : ∀ last, Leads m madt o last → last < sdtLength m madt → entryLength m (madt+last) ≠ 0) :
    ∃ entries, Walked m madt o entries := by
  generalize left : sdtLength m madt - o = n
  induction n using Nat.strongRecOn generalizing o with
  | ind n ih =>
    by_cases inside : o < sdtLength m madt
    · have step := moves o .here inside
      obtain ⟨rest,later⟩ := ih _ (by omega) (o := o + entryLength m (madt+o))
        (fun last leads => moves last (.next inside leads)) rfl
      exact ⟨_,.entry inside later⟩
    · exact ⟨[],.past (by omega)⟩

theorem walkedInside {m madt o entries} (walked : Walked m madt o entries) : ∀ e ∈ entries, e < madt + sdtLength m madt := by
  induction walked with
  | past => simp
  | entry inside _ ih =>
    intro e member
    rcases List.mem_cons.mp member with rfl | later
    · omega
    · exact ih e later

/-! The walk by the offset. -/

theorem printWalked {m madt o entries} (walked : Walked m madt o entries) (low : ∀ last, Leads m madt o last → last < 2^31)
    (visited : List Nat) (calls : List ConsoleCall) : Ends (printBody m madt) ⟨o,visited,calls⟩
      (.returned (visited ++ entries) (calls ++ entries.flatMap (printedEntry m))) := by
  induction walked generalizing visited calls with
  | past outside => exact .leave (by simp [printBody,Nat.not_lt.mpr outside])
  | @entry o rest inside later ih =>
    have fits := low _ (.next inside .here)
    have pass : printBody m madt ⟨o,visited,calls⟩ =
        .inl ⟨o + entryLength m (madt+o),visited ++ [madt+o],calls ++ printedEntry m (madt+o)⟩ := by
      simp only [printBody,inside,fits,if_true]
    have ends := ih (fun last leads => low last (.next inside leads)) (visited ++ [madt+o]) (calls ++ printedEntry m (madt+o))
    simp only [List.append_assoc,List.cons_append,List.nil_append] at ends
    exact .goOn pass ends

theorem printStuck {m madt} {s : Printing} {r : Printed} (inside : s.i < sdtLength m madt) (low : s.i < 2^31)
    (empty : entryLength m (madt + s.i) = 0) : ¬ Ends (printBody m madt) s r := by
  refine neverEnds (I := fun t => t.i = s.i) (fun t same => ?_) rfl
  have pass : printBody m madt t = .inl ⟨t.i,t.visited ++ [madt + t.i],t.calls ++ printedEntry m (madt + t.i)⟩ := by
    simp only [printBody,same,inside,empty,Nat.add_zero,low,if_true]
  exact ⟨_,pass,same⟩

theorem printPasses {m madt} {s s' : Printing} (pass : printBody m madt s = .inl s') :
    s.i < sdtLength m madt ∧ s'.i = s.i + entryLength m (madt + s.i) ∧ s'.i < 2^31 := by
  simp only [printBody] at pass
  split at pass <;> try contradiction
  rename_i inside
  split at pass <;> try contradiction
  rename_i low
  rw [← Sum.inl.inj pass]
  exact ⟨inside,rfl,low⟩

theorem printLeaves {m madt} {s : Printing} {visited calls} (leaves : printBody m madt s = .inr (.returned visited calls)) :
    sdtLength m madt ≤ s.i := by
  by_contra inside
  simp only [printBody,Nat.lt_of_not_le inside,if_true] at leaves
  split at leaves <;> cases leaves

theorem printReturns {m madt} {s : Printing} {visited calls} (ends : Ends (printBody m madt) s (.returned visited calls))
    (first : s.i < 2^31) : ∀ last, Leads m madt s.i last →
      last < 2^31 ∧ (last < sdtLength m madt → entryLength m (madt+last) ≠ 0) := by
  generalize result : Printed.returned visited calls = r at ends
  induction ends with
  | leave here =>
    subst result
    have outside := printLeaves here
    intro last leads
    cases leads with
    | here => exact ⟨first,fun inside => absurd inside (by omega)⟩
    | next inside _ => exact absurd inside (by omega)
  | goOn here rest ih =>
    obtain ⟨inside,moved,low⟩ := printPasses here
    intro last leads
    cases leads with
    | here => exact ⟨first,fun _ empty => printStuck inside first empty (.goOn here rest)⟩
    | next _ later => exact ih low result last (moved ▸ later)

/-! The walk from entry to entry. -/

theorem iterateNext {m madt o rest} (first : 0 < o) (later : Walked m madt (o + entryLength m (madt+o)) rest) :
    acpiMadtIterate m madt (madt+o) = rest.headD 0 := by
  have notNull : madt+o ≠ 0 := by omega
  simp only [acpiMadtIterate,notNull,if_false]
  cases later with
  | past outside => exact if_pos (by omega)
  | entry inside later => exact (if_neg (by omega)).trans (by rw [Nat.add_assoc]; rfl)

theorem iteratesWalked {m madt o entries previous} (walked : Walked m madt o entries) (first : 0 < o)
    (next : acpiMadtIterate m madt previous = entries.headD 0) : Iterates m madt previous entries := by
  induction walked generalizing previous with
  | past _ => exact .last next
  | entry _ later ih => exact .more next (by omega) (ih (by omega) (iterateNext first later))

theorem iteratesAfter {m madt o rest} (first : 0 < o) (later : Walked m madt (o + entryLength m (madt+o)) rest) :
    Iterates m madt (madt+o) rest := iteratesWalked later (by omega) (iterateNext first later)

theorem iteratesFromNull {m madt rest} (later : Walked m madt (sizeofAcpiMadt + entryLength m (madt + sizeofAcpiMadt)) rest) :
    Iterates m madt 0 ((madt + sizeofAcpiMadt)::rest) :=
  .more rfl (by unfold sizeofAcpiMadt; omega) (iteratesAfter (by decide) later)

/-! Enumeration by type. -/

inductive Tiles (m : Memory) (madt : Nat) : Nat → List Nat → Prop where
  | done : Tiles m madt (sdtLength m madt) []
  | entry {o rest} (size : 2 ≤ entryLength m (madt+o)) (later : Tiles m madt (o + entryLength m (madt+o)) rest) :
      Tiles m madt o ((madt+o)::rest)

theorem tilesUp {m madt o entries} (tiles : Tiles m madt o entries) : o ≤ sdtLength m madt := by
  induction tiles with
  | done => exact Nat.le_refl _
  | entry size _ ih => omega

theorem walkedTiles {m madt o entries} (tiles : Tiles m madt o entries) : Walked m madt o entries := by
  induction tiles with
  | done => exact .past (Nat.le_refl _)
  | entry size later ih => exact .entry (by have := tilesUp later; omega) ih

theorem tilesReach {m madt o entries last} (tiles : Tiles m madt o entries) (leads : Leads m madt o last) :
    last ≤ sdtLength m madt ∧ (last < sdtLength m madt → 2 ≤ entryLength m (madt+last)) := by
  induction tiles with
  | done =>
    have up := leadsUp leads
    cases leads with
    | here => exact ⟨up,fun inside => absurd inside (by omega)⟩
    | next inside _ => omega
  | entry size later ih =>
    cases leads with
    | here => exact ⟨by have := tilesUp later; omega,fun _ => size⟩
    | next _ rest => exact ih rest

theorem enumeratesType {m madt entries} (tiles : Tiles m madt sizeofAcpiMadt entries) (some : entries ≠ []) (type : Nat) :
    ∃ least, ∀ fuel, least ≤ fuel → iterateTypeAll fuel m madt type = .some (entries.filter (entryType m · = type)) := by
  cases walkedTiles tiles with
  | past _ => exact absurd rfl some
  | entry _ later => exact enumerates (iteratesFromNull later) type

def threeEntries : Memory := fun a =>
  if a = 0x1004 then 64 else if a = 0x102C then 1 else if a = 0x102D then 8 else if a = 0x1035 then 4
  else if a = 0x1038 then 1 else if a = 0x1039 then 8 else 0

theorem threeEntriesTiled : Tiles threeEntries 0x1000 sizeofAcpiMadt [0x102C,0x1034,0x1038] :=
  .entry (by decide) (.entry (by decide) (.entry (by decide) .done))

theorem threeEntriesEnumerated : ∃ least, ∀ fuel, least ≤ fuel →
    iterateTypeAll fuel threeEntries 0x1000 1 = .some [0x102C,0x1038] :=
  enumeratesType threeEntriesTiled (by decide) 1

/-! The two walks against each other. -/

def SameWalk (m : Memory) (madt : Nat) : Prop :=
  ∃ entries calls, (∃ fuel, acpiPrintMadt fuel m madt = some (.returned entries calls)) ∧
    (∃ fuel, iterateAll fuel m madt = some entries) ∧ ∀ e ∈ entries, e < madt + sdtLength m madt

theorem iterateAllReturns {m madt entries} : (∃ fuel, iterateAll fuel m madt = some entries) ↔ Iterates m madt 0 entries := by
  constructor
  · rintro ⟨fuel,done⟩
    exact gathersOfGather (fun _ _ _ => Option.some.inj) done
  · intro iterates
    obtain ⟨least,done⟩ : ∃ least, ∀ fuel, least ≤ fuel → iterateAll fuel m madt = some entries :=
      gatherOfGathers (fun _ _ here => ⟨0,fun _ _ => congrArg some here⟩) iterates
    exact ⟨least,done least (Nat.le_refl _)⟩

theorem sameWalkStarts {m madt} (same : SameWalk m madt) : sizeofAcpiMadt < sdtLength m madt := by
  obtain ⟨entries,_,_,iterated,inside⟩ := same
  have first : acpiMadtIterate m madt 0 = madt + sizeofAcpiMadt := rfl
  cases iterateAllReturns.mp iterated with
  | last here =>
    have null : madt + sizeofAcpiMadt = 0 := first.symm.trans here
    unfold sizeofAcpiMadt at null
    omega
  | more here _ _ =>
    have bound := inside _ List.mem_cons_self
    rw [← here,first] at bound
    omega

theorem sameWalkIff {m madt}
    (sized : ∀ o, Reached m madt o → o < sdtLength m madt → 2 ≤ entryLength m (madt+o)) :
    SameWalk m madt ↔ sizeofAcpiMadt < sdtLength m madt ∧ ∀ o, Reached m madt o → o < 2^31 := by
  constructor
  · intro same
    have low : sizeofAcpiMadt < 2^31 := by decide
    obtain ⟨_,_,⟨_,printed⟩,_,_⟩ := id same
    exact ⟨sameWalkStarts same,fun o reached => (printReturns (endsOfLoop printed) low o reached).1⟩
  · rintro ⟨some,low⟩
    obtain ⟨entries,walked⟩ := walkedExists (o := sizeofAcpiMadt) fun o reached inside => by
      have := sized o reached inside
      omega
    refine ⟨entries,_,loopEnds.mpr (printWalked walked low [] _),iterateAllReturns.mpr ?_,walkedInside walked⟩
    cases walked with
    | past outside => omega
    | entry _ later => exact iteratesFromNull later

theorem threeEntriesSameWalk : SameWalk threeEntries 0x1000 := by
  refine (sameWalkIff fun o reached => (tilesReach threeEntriesTiled reached).2).mpr ⟨by decide,fun o reached => ?_⟩
  have length : sdtLength threeEntries 0x1000 = 64 := by decide
  have bound := (tilesReach threeEntriesTiled reached).1
  omega

def headerOnly : Memory := fun a => if a = 0x1004 then 44 else 0

theorem headerOnlyDiffers : sdtLength headerOnly 0x1000 = sizeofAcpiMadt ∧
    (∀ o, Reached headerOnly 0x1000 o → o < sdtLength headerOnly 0x1000 → 2 ≤ entryLength headerOnly (0x1000+o)) ∧
    ¬ SameWalk headerOnly 0x1000 := by
  have length : sdtLength headerOnly 0x1000 = 44 := by decide
  have sized : ∀ o, Reached headerOnly 0x1000 o → o < sdtLength headerOnly 0x1000 → 2 ≤ entryLength headerOnly (0x1000+o) := by
    intro o reached inside
    have up : 44 ≤ o := leadsUp reached
    omega
  refine ⟨length,sized,fun same => ?_⟩
  have starts : 44 < _ := sameWalkStarts same
  omega

/-! Whether the enumeration ends at all. -/

structure EnumerationEnds (m : Memory) (madt : Nat) : Prop where
  printed : ∃ fuel entries calls, acpiPrintMadt fuel m madt = some (.returned entries calls)
  fromNull : ∀ type, ∃ fuel next, acpiMadtIterateType fuel m madt 0 type = some next
  fromEntry : ∀ type o, Reached m madt o → ∃ fuel next, acpiMadtIterateType fuel m madt (madt+o) type = some next
  all : ∀ type, ∃ fuel results, iterateTypeAll fuel m madt type = some results

theorem callReturns {m madt previous entries} (iterates : Iterates m madt previous entries) (type : Nat) :
    ∃ fuel next, acpiMadtIterateType fuel m madt previous type = some next := by
  obtain ⟨fuel,returned⟩ := loopEnds.mpr (iterateTypeFinds iterates type)
  exact ⟨fuel,_,returned⟩

theorem enumerationEndsIff {m madt} : EnumerationEnds m madt ↔
    ∀ o, Reached m madt o → o < 2^31 ∧ (o < sdtLength m madt → entryLength m (madt+o) ≠ 0) := by
  constructor
  · rintro ⟨⟨fuel,entries,calls,printed⟩,_,_,_⟩
    have low : sizeofAcpiMadt < 2^31 := by decide
    exact printReturns (endsOfLoop printed) low
  · intro moves
    obtain ⟨entries,walked⟩ := walkedExists fun o reached => (moves o reached).2
    have after : ∀ o, Reached m madt o → ∃ rest, Walked m madt (o + entryLength m (madt+o)) rest := by
      intro o reached
      by_cases inside : o < sdtLength m madt
      · exact walkedExists fun last leads => (moves last (leadsTrans (leadsOn reached inside) leads)).2
      · exact ⟨[],.past (by omega)⟩
    obtain ⟨rest,later⟩ := after _ .here
    have fromNull := iteratesFromNull later
    obtain ⟨fuel,printed⟩ := loopEnds.mpr (printWalked walked (fun o reached => (moves o reached).1) [] (printedHead m madt))
    refine ⟨⟨fuel,_,_,printed⟩,callReturns fromNull,fun type o reached => ?_,fun type => ?_⟩
    · obtain ⟨rest,later⟩ := after o reached
      exact callReturns (iteratesAfter (by have := leadsUp reached; unfold sizeofAcpiMadt at this; omega) later) type
    · obtain ⟨least,done⟩ := enumerates fromNull type
      exact ⟨least,_,done least (Nat.le_refl _)⟩

def emptyEntry : Memory := fun a => if a = 0x1004 then 46 else if a = 0x1009 then 210 else 0

theorem emptyEntryNeverEnds : acpiValidateSdt emptyEntry 0x1000 = some 0 ∧ ¬ EnumerationEnds emptyEntry 0x1000 := by
  refine ⟨by decide,?_⟩
  rintro ⟨⟨fuel,entries,calls,printed⟩,_,_,_⟩
  exact printStuck (by decide) (by decide) (by decide) (endsOfLoop printed)

end Kokos.Acpi

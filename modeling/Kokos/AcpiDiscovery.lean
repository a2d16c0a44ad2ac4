import Kokos.AcpiTables
import Kokos.ByteSums
import Kokos.FueledChecks

/-! How kernel_main gets from the low memory to the MADT: the search for the root pointer, the
checksums, the printing of the listed tables, and the messages it gives up with. A call that
does not return, or overflows an `int`, is `none`. -/
namespace Kokos.Acpi
open ByteMemory CountedLoops WhileLoops FueledChecks ByteSums

def acpiRsdtpSignature : Nat := 0x2052545020445352
def acpiMadtSignature : Nat := 0x43495041
def acpiFadtSignature : Nat := 0x50434146
def sizeofAcpiRsdtp : Nat := 20
def sizeofAcpiXsdtp : Nat := 36

def rsdtpOemId (m : Memory) (rsdtp : Nat) : List UInt8 := (List.range 6).map fun i => m (rsdtp+9+i)
def rsdtpRevision (m : Memory) (rsdtp : Nat) : Nat := (m (rsdtp+15)).toNat
def rsdtpAddress (m : Memory) (rsdtp : Nat) : Nat := readUnsigned m (rsdtp+16)
def sdtSignatureString (m : Memory) (sdt : Nat) : List UInt8 := (List.range 4).map fun i => m (sdt+i)
def fadtDsdt (m : Memory) (fadt : Nat) : Nat := readUnsigned m (fadt+40)

def findPointerBody (m : Memory) (a : Nat) : Nat ⊕ Nat :=
  if a < 0x000FFFFF then if readWord m a = acpiRsdtpSignature then .inr a else .inl (a+16) else .inr 0

def acpiFindRsdtPointer (fuel : Nat) (m : Memory) : Option Nat := loop (findPointerBody m) fuel 0x00080000

/-- The bytes summed up in `unsigned int`, and the lowest byte of that. -/
def pointerChecksum (m : Memory) (rsdp size : Nat) : UInt32 :=
  countUp size (fun i sum => sum + (m (rsdp+i)).toUInt32) 0 &&& 0xff

def acpiValidateRsdtPointer (m : Memory) (rsdp : Nat) : UInt32 := pointerChecksum m rsdp sizeofAcpiRsdtp
def acpiValidateXsdtPointer (m : Memory) (rsdp : Nat) : UInt32 := pointerChecksum m rsdp sizeofAcpiXsdtp

inductive TableCall where
  | plain (call : ConsoleCall)
  | printU64 (value base : Nat)
  | printLength (bytes : List UInt8)
  deriving DecidableEq, Repr

def acpiPrintRsdtp (m : Memory) (rsdtp : Nat) : List TableCall :=
  [.plain (.print "acpi rsdtp address: 0x"),.printU64 rsdtp 16,.plain .newLine,
    .plain (.print "acpi rsdtp revision: "),.plain (.printU32 (rsdtpRevision m rsdtp) 10),.plain .newLine,
    .plain (.print "acpi rsdt address: 0x"),.plain (.printU32 (rsdtpAddress m rsdtp) 16),.plain .newLine,
    .plain (.print "acpi rsdtp oem: "),.printLength (rsdtpOemId m rsdtp),.plain .newLine]

def madtCalls : Printed → Option (List ConsoleCall)
  | .returned _ calls => some calls
  | .overflow => none

def sdtCalls (m : Memory) (sdt : Nat) (sum : UInt8) (entries : List ConsoleCall) : List TableCall :=
  (if sum ≠ 0 then [.plain (.print "!!INVALID!! ")] else []) ++
  [.plain (.print "acpi table "),.printLength (sdtSignatureString m sdt),.plain (.print " 0x"),
    .plain (.printU32 (sdtSignature m sdt) 16)] ++ entries.map .plain ++
  [.plain (.print " at 0x"),.printU64 sdt 16,.plain .newLine]

def acpiPrintSdt (fuel : Nat) (m : Memory) (sdt : Nat) : Option (List TableCall) :=
  (acpiValidateSdt m sdt).bind fun sum =>
    if sdtSignature m sdt = acpiMadtSignature then
      ((acpiPrintMadt fuel m sdt).bind madtCalls).map (sdtCalls m sdt sum)
    else some (sdtCalls m sdt sum [])

def printRoot (fuel : Nat) (count : Int) (width : Nat) (address : Nat → Nat) (m : Memory) (rootTable : Nat) : Option (List TableCall) :=
  tryUp count.toNat (fun i all => (acpiPrintSdt fuel m (address (rootTable + sizeofAcpiSdt + width*i))).map (all ++ ·)) []

def acpiPrintRsdt (fuel : Nat) (m : Memory) (rsdt : Nat) : Option (List TableCall) :=
  printRoot fuel (acpiRsdtEntryCount m rsdt) 4 (readUnsigned m) m rsdt

def acpiPrintXsdt (fuel : Nat) (m : Memory) (xsdt : Nat) : Option (List TableCall) :=
  printRoot fuel (acpiXsdtEntryCount m xsdt) 8 (readWord m) m xsdt

def checkSdt (m : Memory) (sdt : Nat) (text : String) : Checked String Unit :=
  returned (acpiValidateSdt m sdt) >>= fun sum => require (sum = 0) text

def checkTable (m : Memory) (table : Nat) (missing invalid : String) : Checked String Nat := do
  require (table ≠ 0) missing
  checkSdt m table invalid
  .ok table

structure Root where
  rsdtp : Nat
  rsdt : Nat
  listing : List TableCall

def findRoot (fuel : Nat) (m : Memory) : Checked String Root := do
  let rsdtp ← returned (acpiFindRsdtPointer fuel m)
  require (rsdtp ≠ 0) "[acpi] rsdp not found!\n"
  require (acpiValidateRsdtPointer m rsdtp = 0) "[acpi] rsdp checksum does not match!\n"
  checkSdt m (rsdtpAddress m rsdtp) "[acpi] rsdt checksum does not match!\n"
  let listing ← returned (acpiPrintRsdt fuel m (rsdtpAddress m rsdtp))
  .ok ⟨rsdtp,rsdtpAddress m rsdtp,listing⟩

def findTable (fuel : Nat) (m : Memory) (rsdt signature : Nat) (missing invalid : String) : Checked String Nat := do
  let table ← returned ((acpiRsdtGetTable fuel m rsdt signature).map Found.table)
  checkTable m table missing invalid

structure Discovered where
  root : Root
  fadt : Nat
  dsdt : Nat
  madt : Nat
  printed : List TableCall

def amlLength (m : Memory) (dsdt : Nat) : Nat := (sdtLength m dsdt + (2^32 - sizeofAcpiSdt)) % 2^32

def discoveryCalls (m : Memory) (root : Root) (dsdt : Nat) : List TableCall :=
  [.plain (.print "[acpi] find rsdt\n")] ++ acpiPrintRsdtp m root.rsdtp ++ root.listing ++
    [.plain (.print "aml code size = "),.plain (.printU32 (amlLength m dsdt) 10),.plain .newLine]

/-- kernel_main from the search for the root pointer up to the MADT that it accepts. -/
def kernelMainTables (fuel : Nat) (m : Memory) : Checked String Discovered := do
  let root ← findRoot fuel m
  let fadt ← findTable fuel m root.rsdt acpiFadtSignature "[acpi] fatal: FADT not found!\n" "[acpi] fatal: FADT not valid\n"
  let dsdt ← checkTable m (fadtDsdt m fadt) "[acpi] fatal: DSDT not found!\n" "[acpi] fatal: DSDT not valid\n"
  let madt ← findTable fuel m root.rsdt acpiMadtSignature "[acpi] fatal: MADT not found!\n" "[acpi] fatal: MADT not valid\n"
  .ok ⟨root,fadt,dsdt,madt,discoveryCalls m root dsdt⟩

/-! What the loops find. -/

def pointerSpots : List Nat := (List.range' 0 0x8000).map fun i => 0x80000 + 16*i

def firstPointer (m : Memory) : Nat := (pointerSpots.find? (readWord m · = acpiRsdtpSignature)).getD 0

def listedTables (m : Memory) (rsdt : Nat) : List Nat := (slotsFrom 4 (sdtLength m rsdt) rsdt).map (readUnsigned m)

def firstTable (m : Memory) (rsdt signature : Nat) : Nat := ((listedTables m rsdt).find? (sdtSignature m · = signature)).getD 0

def Sealed (m : Memory) (a n : Nat) : Prop := byteSum (fun i => m (a+i)) n % 256 = 0

instance (m : Memory) (a n : Nat) : Decidable (Sealed m a n) := by unfold Sealed; infer_instance

def Fits (m : Memory) (sdt : Nat) : Prop := sdtLength m sdt < 2^31

def Valid (m : Memory) (sdt : Nat) : Prop := Fits m sdt ∧ Sealed m sdt (sdtLength m sdt)
def Broken (m : Memory) (sdt : Nat) : Prop := Fits m sdt ∧ ¬ Sealed m sdt (sdtLength m sdt)

def MadtPrinted (m : Memory) (sdt : Nat) (calls : List ConsoleCall) : Prop :=
  ∃ entries, Walked m sdt sizeofAcpiMadt entries ∧ (∀ o, Reached m sdt o → o < 2^31) ∧
    calls = printedHead m sdt ++ entries.flatMap (printedEntry m)

def SdtPrinted (m : Memory) (sdt : Nat) (calls : List TableCall) : Prop :=
  Fits m sdt ∧ ∃ sum entries, (sum = 0 ↔ Sealed m sdt (sdtLength m sdt)) ∧
    (if sdtSignature m sdt = acpiMadtSignature then MadtPrinted m sdt entries else entries = []) ∧ calls = sdtCalls m sdt sum entries

def RootPrinted (width : Nat) (address : Nat → Nat) (m : Memory) (rootTable : Nat) (calls : List TableCall) : Prop :=
  let slots := (sdtLength m rootTable - sizeofAcpiSdt)/width
  ∃ parts, (∀ i < slots, SdtPrinted m (address (rootTable + sizeofAcpiSdt + width*i)) (parts i)) ∧ calls = (List.range slots).flatMap parts

/-! What kernel_main accepts, and the first check that fails. -/

structure Usable (m : Memory) (table : Nat) : Prop where
  found : table ≠ 0
  valid : Valid m table

inductive TableRejected (m : Memory) (table : Nat) (missing invalid : String) : String → Prop where
  | none (null : table = 0) : TableRejected m table missing invalid missing
  | broken (found : table ≠ 0) (wrong : Broken m table) : TableRejected m table missing invalid invalid

structure Rooted (m : Memory) (r : Root) : Prop where
  pointer : r.rsdtp = firstPointer m
  found : r.rsdtp ≠ 0
  whole : Sealed m r.rsdtp sizeofAcpiRsdtp
  root : r.rsdt = rsdtpAddress m r.rsdtp
  valid : Valid m r.rsdt
  printed : RootPrinted 4 (readUnsigned m) m r.rsdt r.listing

inductive RootRejected (m : Memory) : String → Prop where
  | none (null : firstPointer m = 0) : RootRejected m "[acpi] rsdp not found!\n"
  | pointer (found : firstPointer m ≠ 0) (wrong : ¬ Sealed m (firstPointer m) sizeofAcpiRsdtp) :
      RootRejected m "[acpi] rsdp checksum does not match!\n"
  | root (found : firstPointer m ≠ 0) (whole : Sealed m (firstPointer m) sizeofAcpiRsdtp)
      (wrong : Broken m (rsdtpAddress m (firstPointer m))) : RootRejected m "[acpi] rsdt checksum does not match!\n"

structure Accepted (m : Memory) (d : Discovered) : Prop where
  rooted : Rooted m d.root
  fadt : d.fadt = firstTable m d.root.rsdt acpiFadtSignature
  fadtUsable : Usable m d.fadt
  dsdt : d.dsdt = fadtDsdt m d.fadt
  dsdtUsable : Usable m d.dsdt
  madt : d.madt = firstTable m d.root.rsdt acpiMadtSignature
  madtUsable : Usable m d.madt
  printed : d.printed = discoveryCalls m d.root d.dsdt

inductive Rejected (m : Memory) : String → Prop where
  | root {text} (rejected : RootRejected m text) : Rejected m text
  | fadt {r text} (rooted : Rooted m r) (rejected : TableRejected m (firstTable m r.rsdt acpiFadtSignature)
      "[acpi] fatal: FADT not found!\n" "[acpi] fatal: FADT not valid\n" text) : Rejected m text
  | dsdt {r fadt text} (rooted : Rooted m r) (first : fadt = firstTable m r.rsdt acpiFadtSignature) (usable : Usable m fadt)
      (rejected : TableRejected m (fadtDsdt m fadt) "[acpi] fatal: DSDT not found!\n" "[acpi] fatal: DSDT not valid\n" text) :
      Rejected m text
  | madt {r fadt text} (rooted : Rooted m r) (first : fadt = firstTable m r.rsdt acpiFadtSignature) (usable : Usable m fadt)
      (described : Usable m (fadtDsdt m fadt)) (rejected : TableRejected m (firstTable m r.rsdt acpiMadtSignature)
        "[acpi] fatal: MADT not found!\n" "[acpi] fatal: MADT not valid\n" text) : Rejected m text

section
variable {m : Memory} {sdt rsdt : Nat}

theorem pointerFound (m : Memory) (k i : Nat) (left : i+k = 0x8000) : Ends (findPointerBody m) (0x80000 + 16*i)
    ((((List.range' i k).map fun i => 0x80000 + 16*i).find? (readWord m · = acpiRsdtpSignature)).getD 0) := by
  induction k generalizing i with
  | zero =>
    refine .leave ?_
    unfold findPointerBody
    rw [if_neg (by omega)]
    rfl
  | succ k ih =>
    have inside : 0x80000 + 16*i < 0x000FFFFF := by omega
    by_cases found : readWord m (0x80000 + 16*i) = acpiRsdtpSignature
    · exact .leave (by simp [findPointerBody,inside,found,List.range'_succ])
    · have later := ih (i+1) (by omega)
      have pass : findPointerBody m (0x80000 + 16*i) = .inl (0x80000 + 16*(i+1)) := by
        simp only [findPointerBody,inside,found,if_true,if_false,Nat.mul_succ,Nat.add_assoc]
      simpa [found,List.range'_succ] using Ends.goOn pass later

theorem pointerGiven (m : Memory) : Gives (fun fuel => acpiFindRsdtPointer fuel m) fun r => r = firstPointer m :=
  givesEnd (pointerFound m 0x8000 0 rfl)

theorem pointerChecked (rsdp size : Nat) : pointerChecksum m rsdp size = 0 ↔ Sealed m rsdp size := by
  have value : (pointerChecksum m rsdp size).toNat = byteSum (fun i => m (rsdp+i)) size % 256 := by
    unfold pointerChecksum
    rw [UInt32.toNat_and,sumWords (fun i => m (rsdp+i)),show (0xff : UInt32).toNat = 2^8-1 from rfl,Nat.and_two_pow_sub_one_eq_mod]
    omega
  rw [← UInt32.toNat_inj,value]
  rfl

theorem sdtSummed (m : Memory) (sdt : Nat) : (Fits m sdt → ∃ sum, acpiValidateSdt m sdt = some sum ∧
    (sum = 0 ↔ Sealed m sdt (sdtLength m sdt))) ∧ (¬ Fits m sdt → acpiValidateSdt m sdt = none) := by
  unfold acpiValidateSdt
  constructor
  · intro fits
    refine ⟨_,if_neg (Nat.not_le_of_lt fits),?_⟩
    rw [← UInt8.toNat_inj,sumBytes (fun i => m (sdt+i))]
    rfl
  · intro long
    exact if_pos (Nat.le_of_not_lt long)

theorem sdtValid (m : Memory) (sdt : Nat) : acpiValidateSdt m sdt = some 0 ↔ Fits m sdt ∧ Sealed m sdt (sdtLength m sdt) := by
  by_cases fits : Fits m sdt
  · obtain ⟨sum,done,zero⟩ := (sdtSummed m sdt).1 fits
    rw [done,Option.some.injEq,zero]
    exact ⟨fun whole => ⟨fits,whole⟩,And.right⟩
  · rw [(sdtSummed m sdt).2 fits]
    exact ⟨fun same => (by cases same),fun valid => absurd valid.1 fits⟩

theorem checkSettles (m : Memory) (sdt : Nat) (text : String) :
    Settles (fun _ => checkSdt m sdt text) (fun _ => Valid m sdt) fun e => Broken m sdt ∧ e = text := by
  have settles := settlesBind (settlesReturned (ε := String) (givesSome (acpiValidateSdt m sdt)))
    fun sum _ => settlesRequire (sum = 0) text
  have sums : ∀ sum, acpiValidateSdt m sdt = some sum → Fits m sdt ∧ (sum = 0 ↔ Sealed m sdt (sdtLength m sdt)) := by
    intro sum done
    by_cases fits : Fits m sdt
    · obtain ⟨sum',done',zero⟩ := (sdtSummed m sdt).1 fits
      rw [done] at done'
      exact ⟨fits,Option.some.inj done' ▸ zero⟩
    · rw [(sdtSummed m sdt).2 fits] at done
      cases done
  refine settlesCongr settles (fun _ => ?_) fun e => ?_
  · constructor
    · rintro ⟨sum,done,zero⟩
      obtain ⟨fits,same⟩ := sums sum done
      exact ⟨fits,same.mp zero⟩
    · rintro ⟨fits,sealed'⟩
      obtain ⟨sum,done,zero⟩ := (sdtSummed m sdt).1 fits
      exact ⟨sum,done,zero.mpr sealed'⟩
  · constructor
    · rintro (no | ⟨sum,done,nonzero,same⟩)
      · exact no.elim
      · obtain ⟨fits,zero⟩ := sums sum done
        exact ⟨⟨fits,fun sealed' => nonzero (zero.mpr sealed')⟩,same⟩
    · rintro ⟨⟨fits,open'⟩,same⟩
      obtain ⟨sum,done,zero⟩ := (sdtSummed m sdt).1 fits
      exact Or.inr ⟨sum,done,fun here => open' (zero.mp here),same⟩

theorem tableGiven (m : Memory) (rsdt signature : Nat) :
    Gives (fun fuel => (acpiRsdtGetTable fuel m rsdt signature).map Found.table) fun table => table = firstTable m rsdt signature := by
  have fits : sdtLength m rsdt < 2^32 := readUnsignedBound m _
  obtain ⟨read,ends,_⟩ := searchFinds 4 (readUnsigned m) m rsdt signature (entryCountBelow fits (Or.inl rfl)) _ 0 (Nat.zero_add _) []
  rw [← List.range_eq_range'] at ends
  refine givesCongr (givesMap Found.table (givesEnd ends)) fun table => ?_
  constructor
  · rintro ⟨_,rfl,rfl⟩
    rfl
  · rintro rfl
    exact ⟨_,rfl,rfl⟩

theorem tableSettles (m : Memory) (table : Nat) (missing invalid : String) :
    Settles (fun _ => checkTable m table missing invalid) (fun t => t = table ∧ Usable m table)
      (TableRejected m table missing invalid) := by
  have settles := settlesBind (settlesRequire (table ≠ 0) missing) fun _ _ =>
    settlesBind (checkSettles m table invalid) fun _ _ => settlesOk (ε := String) table
  refine settlesCongr settles (fun t => ?_) fun e => ?_
  · constructor
    · rintro ⟨_,found,_,valid,same⟩
      exact ⟨same,found,valid⟩
    · rintro ⟨same,found,valid⟩
      exact ⟨(),found,(),valid,same⟩
  · constructor
    · rintro (⟨null,rfl⟩ | ⟨_,found,⟨wrong,rfl⟩ | ⟨_,_,no⟩⟩)
      · exact .none (Classical.not_not.mp null)
      · exact .broken found wrong
      · exact no.elim
    · rintro (null | ⟨found,wrong⟩)
      · exact Or.inl ⟨fun found => found null,rfl⟩
      · exact Or.inr ⟨(),found,Or.inl ⟨wrong,rfl⟩⟩

theorem findSettles (m : Memory) (rsdt signature : Nat) (missing invalid : String) :
    Settles (fun fuel => findTable fuel m rsdt signature missing invalid)
      (fun t => t = firstTable m rsdt signature ∧ Usable m (firstTable m rsdt signature))
      (TableRejected m (firstTable m rsdt signature) missing invalid) := by
  have settles := settlesBind (settlesReturned (ε := String) (tableGiven m rsdt signature))
    fun table _ => tableSettles m table missing invalid
  refine settlesCongr settles (fun t => ?_) fun e => ?_
  · exact exists_eq_left
  · rw [exists_eq_left,false_or]

/-! What is printed of the listed tables. -/

theorem madtGiven (m : Memory) (sdt : Nat) : Gives (fun fuel => (acpiPrintMadt fuel m sdt).bind madtCalls) (MadtPrinted m sdt) := by
  have walks : ∀ calls, MadtPrinted m sdt calls →
      ∃ entries, Ends (printBody m sdt) ⟨sizeofAcpiMadt,[],printedHead m sdt⟩ (.returned entries calls) := by
    rintro _ ⟨entries,walked,low,rfl⟩
    exact ⟨_,printWalked walked low [] _⟩
  refine ⟨fun calls printed => ?_,fun fuel calls done => ?_⟩
  · obtain ⟨entries,ends⟩ := walks calls printed
    obtain ⟨least,here⟩ := loopOfEnds ends
    refine ⟨least,fun fuel enough => ?_⟩
    unfold acpiPrintMadt
    rw [here fuel enough]
    rfl
  · obtain ⟨result,done,same⟩ := Option.bind_eq_some_iff.mp done
    cases result with
    | overflow => cases same
    | returned entries calls' =>
      cases same
      have ends := endsOfLoop done
      have low : sizeofAcpiMadt < 2^31 := by decide
      have moves := printReturns ends low
      obtain ⟨walkedEntries,walked⟩ := walkedExists fun last leads inside => (moves last leads).2 inside
      have printed : MadtPrinted m sdt _ := ⟨walkedEntries,walked,fun o reached => (moves o reached).1,rfl⟩
      obtain ⟨_,ends'⟩ := walks _ printed
      cases endsSame ends ends'
      exact printed

theorem sdtGiven (m : Memory) (sdt : Nat) : Gives (fun fuel => acpiPrintSdt fuel m sdt) (SdtPrinted m sdt) := by
  by_cases fits : Fits m sdt
  · obtain ⟨sum,done,zero⟩ := (sdtSummed m sdt).1 fits
    have printed : ∀ calls, SdtPrinted m sdt calls ↔ ∃ entries,
        (if sdtSignature m sdt = acpiMadtSignature then MadtPrinted m sdt entries else entries = []) ∧ sdtCalls m sdt sum entries = calls := by
      intro calls
      constructor
      · rintro ⟨_,sum',entries,zero',madt,rfl⟩
        refine ⟨entries,madt,?_⟩
        simp only [sdtCalls,ne_eq,zero,zero']
      · rintro ⟨entries,madt,rfl⟩
        exact ⟨fits,sum,entries,zero,madt,rfl⟩
    unfold acpiPrintSdt
    simp only [done,Option.bind_some]
    by_cases isMadt : sdtSignature m sdt = acpiMadtSignature
    · simp only [if_pos isMadt] at printed ⊢
      exact givesCongr (givesMap (sdtCalls m sdt sum) (madtGiven m sdt)) fun calls => (printed calls).symm
    · simp only [if_neg isMadt,exists_eq_left] at printed ⊢
      refine givesCongr (givesSome (some (sdtCalls m sdt sum []))) fun calls => ?_
      rw [printed calls,Option.some.injEq]
  · unfold acpiPrintSdt
    simp only [(sdtSummed m sdt).2 fits,Option.bind_none]
    exact ⟨fun _ printed => absurd printed.1 fits,fun _ _ done => by cases done⟩

theorem rootGiven {width : Nat} (kind : width = 4 ∨ width = 8) (address : Nat → Nat) (m : Memory) (rootTable : Nat) :
    Gives (fun fuel => printRoot fuel (entryCount width (sdtLength m rootTable)) width address m rootTable)
      (RootPrinted width address m rootTable) := by
  have fits : sdtLength m rootTable < 2^32 := readUnsignedBound m _
  have below := entryCountBelow fits kind
  have count : (entryCount width (sdtLength m rootTable)).toNat = (sdtLength m rootTable - sizeofAcpiSdt)/width := by
    generalize (sdtLength m rootTable - sizeofAcpiSdt)/width = slots at below
    have here := below slots
    have last := below (slots-1)
    omega
  unfold printRoot RootPrinted
  rw [count]
  exact givesUp fun i _ => sdtGiven m (address (rootTable + sizeofAcpiSdt + width*i))

theorem rootsPrinted (m : Memory) (rootTable : Nat) :
    Gives (fun fuel => acpiPrintRsdt fuel m rootTable) (RootPrinted 4 (readUnsigned m) m rootTable) ∧
    Gives (fun fuel => acpiPrintXsdt fuel m rootTable) (RootPrinted 8 (readWord m) m rootTable) :=
  ⟨rootGiven (Or.inl rfl) _ _ _,rootGiven (Or.inr rfl) _ _ _⟩

theorem rootSettles (m : Memory) : Settles (fun fuel => findRoot fuel m) (Rooted m) (RootRejected m) := by
  have settles := settlesBind (settlesReturned (ε := String) (pointerGiven m)) fun rsdtp _ =>
    settlesBind (settlesRequire (rsdtp ≠ 0) "[acpi] rsdp not found!\n") fun _ _ =>
    settlesBind (settlesRequire (acpiValidateRsdtPointer m rsdtp = 0) "[acpi] rsdp checksum does not match!\n") fun _ _ =>
    settlesBind (checkSettles m (rsdtpAddress m rsdtp) "[acpi] rsdt checksum does not match!\n") fun _ _ =>
    settlesBind (settlesReturned (ε := String) (rootsPrinted m (rsdtpAddress m rsdtp)).1) fun listing _ =>
    settlesOk (ε := String) (Root.mk rsdtp (rsdtpAddress m rsdtp) listing)
  have pointer : acpiValidateRsdtPointer m (firstPointer m) = 0 ↔ Sealed m (firstPointer m) sizeofAcpiRsdtp := pointerChecked _ _
  refine settlesCongr settles (fun r => ?_) fun e => ?_
  · constructor
    · rintro ⟨_,rfl,_,found,_,whole,_,valid,listing,printed,rfl⟩
      exact ⟨rfl,found,pointer.mp whole,rfl,valid,printed⟩
    · obtain ⟨rsdtp,rsdt,listing⟩ := r
      rintro ⟨first,found,whole,root,valid,printed⟩
      dsimp only at first found whole root valid printed
      subst first root
      exact ⟨_,rfl,(),found,(),pointer.mpr whole,(),valid,listing,printed,rfl⟩
  · constructor
    · rintro (no | ⟨_,rfl,⟨null,rfl⟩ | ⟨_,found,⟨wrong,rfl⟩ | ⟨_,whole,⟨wrong,rfl⟩ | ⟨_,_,no | ⟨_,_,no⟩⟩⟩⟩⟩)
      · exact no.elim
      · exact .none (Classical.not_not.mp null)
      · exact .pointer found (mt pointer.mpr wrong)
      · exact .root found (pointer.mp whole) wrong
      · exact no.elim
      · exact no.elim
    · rintro (null | ⟨found,wrong⟩ | ⟨found,whole,wrong⟩)
      · exact Or.inr ⟨_,rfl,Or.inl ⟨fun found => found null,rfl⟩⟩
      · exact Or.inr ⟨_,rfl,Or.inr ⟨(),found,Or.inl ⟨mt pointer.mp wrong,rfl⟩⟩⟩
      · exact Or.inr ⟨_,rfl,Or.inr ⟨(),found,Or.inr ⟨(),pointer.mpr whole,Or.inl ⟨wrong,rfl⟩⟩⟩⟩

theorem tablesDiscovered (m : Memory) : Settles (fun fuel => kernelMainTables fuel m) (Accepted m) (Rejected m) := by
  have settles := settlesBind (rootSettles m) fun root _ =>
    settlesBind (findSettles m root.rsdt acpiFadtSignature "[acpi] fatal: FADT not found!\n" "[acpi] fatal: FADT not valid\n") fun fadt _ =>
    settlesBind (tableSettles m (fadtDsdt m fadt) "[acpi] fatal: DSDT not found!\n" "[acpi] fatal: DSDT not valid\n") fun dsdt _ =>
    settlesBind (findSettles m root.rsdt acpiMadtSignature "[acpi] fatal: MADT not found!\n" "[acpi] fatal: MADT not valid\n") fun madt _ =>
    settlesOk (ε := String) (Discovered.mk root fadt dsdt madt (discoveryCalls m root dsdt))
  refine settlesCongr settles (fun d => ?_) fun e => ?_
  · constructor
    · rintro ⟨root,rooted,_,⟨rfl,fadt⟩,_,⟨rfl,dsdt⟩,_,⟨rfl,madt⟩,rfl⟩
      exact ⟨rooted,rfl,fadt,rfl,dsdt,rfl,madt,rfl⟩
    · obtain ⟨root,fadt,dsdt,madt,printed⟩ := d
      rintro ⟨rooted,first,fadt,described,dsdt,second,madt,calls⟩
      dsimp only at first fadt described dsdt second madt calls
      subst first described second calls
      exact ⟨root,rooted,_,⟨rfl,fadt⟩,_,⟨rfl,dsdt⟩,_,⟨rfl,madt⟩,rfl⟩
  · constructor
    · rintro (wrong | ⟨root,rooted,wrong | ⟨_,⟨rfl,fadt⟩,wrong | ⟨_,⟨rfl,dsdt⟩,wrong | ⟨_,_,no⟩⟩⟩⟩)
      · exact .root wrong
      · exact .fadt rooted wrong
      · exact .dsdt rooted rfl fadt wrong
      · exact .madt rooted rfl fadt dsdt wrong
      · exact no.elim
    · rintro (wrong | ⟨rooted,wrong⟩ | ⟨rooted,rfl,fadt,wrong⟩ | ⟨rooted,rfl,fadt,dsdt,wrong⟩)
      · exact Or.inl wrong
      · exact Or.inr ⟨_,rooted,Or.inl wrong⟩
      · exact Or.inr ⟨_,rooted,Or.inr ⟨_,⟨rfl,fadt⟩,Or.inl wrong⟩⟩
      · exact Or.inr ⟨_,rooted,Or.inr ⟨_,⟨rfl,fadt⟩,Or.inr ⟨_,⟨rfl,dsdt⟩,Or.inl wrong⟩⟩⟩

theorem changesDetected {m m' : Memory} {a k : Nat} (one : ∀ x, x ≠ a+k → m' x = m x) (differs : m' (a+k) ≠ m (a+k)) :
    (k < sizeofAcpiRsdtp → acpiValidateRsdtPointer m a = 0 → acpiValidateRsdtPointer m' a ≠ 0) ∧
    (k < sizeofAcpiXsdtp → acpiValidateXsdtPointer m a = 0 → acpiValidateXsdtPointer m' a ≠ 0) ∧
    (k < sdtLength m a → ¬ (4 ≤ k ∧ k < 8) → acpiValidateSdt m a = some 0 → acpiValidateSdt m' a ≠ some 0) := by
  have detected : ∀ size, k < size → Sealed m a size → ¬ Sealed m' a size := by
    intro size inside whole whole'
    exact differs (@changeFound (fun i => m (a+i)) (fun i => m' (a+i)) size k inside (fun i _ other => one (a+i) (by omega)) whole whole')
  refine ⟨fun inside valid => ?_,fun inside valid => ?_,fun inside outside valid valid' => ?_⟩
  · exact mt (pointerChecked a _).mp (detected _ inside ((pointerChecked a _).mp valid))
  · exact mt (pointerChecked a _).mp (detected _ inside ((pointerChecked a _).mp valid))
  · have length : sdtLength m' a = sdtLength m a := by
      unfold sdtLength readUnsigned
      rw [one (a+4) (by omega),one (a+4+1) (by omega),one (a+4+2) (by omega),one (a+4+3) (by omega)]
    have whole := (sdtValid m a).mp valid
    have whole' := (sdtValid m' a).mp valid'
    rw [length] at whole'
    exact detected _ inside whole.2 whole'.2

theorem changesDetectedCreator : acpiValidateSdt (Function.update emptyEntry (0x1000+30) 1) 0x1000 ≠ some 0 := by
  have one : ∀ x, x ≠ 0x1000+30 → Function.update emptyEntry (0x1000+30) 1 x = emptyEntry x :=
    fun _ other => Function.update_of_ne other _ _
  exact (changesDetected one (by decide)).2.2 (by decide) (by decide) (by decide)

end

end Kokos.Acpi

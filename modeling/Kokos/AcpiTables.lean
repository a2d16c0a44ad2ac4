import Kokos.Acpi

/-! The tables that an RSDT or an XSDT lists, and the search for one of them. The search
keeps the addresses of the slots that it reads. -/
namespace Kokos.Acpi
open ByteMemory WhileLoops

def sizeofAcpiSdt : Nat := 36

/-- An unsigned long difference and quotient, as an int. -/
def entryCount (width length : Nat) : Int :=
  ((BitVec.ofNat 64 length - BitVec.ofNat 64 sizeofAcpiSdt) / BitVec.ofNat 64 width).setWidth 32 |>.toInt

def acpiRsdtEntryCount (m : Memory) (rsdt : Nat) : Int := entryCount 4 (sdtLength m rsdt)
def acpiXsdtEntryCount (m : Memory) (xsdt : Nat) : Int := entryCount 8 (sdtLength m xsdt)

def sdtSignature (m : Memory) (sdt : Nat) : Nat := readUnsigned m sdt

structure Searching where
  i : Nat
  slots : List Nat

structure Found where
  table : Nat
  slots : List Nat

def searchBody (count : Int) (width : Nat) (address : Nat → Nat) (m : Memory) (rootTable tableSignature : Nat) (s : Searching) :
    Searching ⊕ Found :=
  if s.i < count then
    let slot := rootTable + sizeofAcpiSdt + width*s.i
    let slots := s.slots ++ [slot]
    if sdtSignature m (address slot) = tableSignature then .inr ⟨address slot,slots⟩ else .inl ⟨s.i+1,slots⟩
  else .inr ⟨0,s.slots⟩

def acpiRsdtGetTable (fuel : Nat) (m : Memory) (rootTable tableSignature : Nat) : Option Found :=
  loop (searchBody (acpiRsdtEntryCount m rootTable) 4 (readUnsigned m) m rootTable tableSignature) fuel ⟨0,[]⟩

def acpiXsdtGetTable (fuel : Nat) (m : Memory) (rootTable tableSignature : Nat) : Option Found :=
  loop (searchBody (acpiXsdtEntryCount m rootTable) 8 (readWord m) m rootTable tableSignature) fuel ⟨0,[]⟩

def slotsFrom (width length rootTable : Nat) : List Nat :=
  (List.range ((length - sizeofAcpiSdt)/width)).map fun i => rootTable + sizeofAcpiSdt + width*i

section
variable {width length rootTable tableSignature n : Nat} {m : Memory} {count : Int} {address : Nat → Nat}

theorem entryCountBelow (fits : length < 2^32) (kind : width = 4 ∨ width = 8) (i : Nat) :
    (i : Int) < entryCount width length ↔ i < (length - sizeofAcpiSdt)/width := by
  unfold entryCount sizeofAcpiSdt
  rw [BitVec.toInt_eq_toNat_cond]
  rcases kind with rfl | rfl
  · simp only [BitVec.toNat_setWidth,BitVec.toNat_udiv,BitVec.toNat_sub,BitVec.toNat_ofNat,Nat.reducePow,Nat.reduceMod]
    split <;> omega
  · simp only [BitVec.toNat_setWidth,BitVec.toNat_udiv,BitVec.toNat_sub,BitVec.toNat_ofNat,Nat.reducePow,Nat.reduceMod]
    split <;> omega

theorem slotInside {slot : Nat} (positive : 0 < width) (member : slot ∈ slotsFrom width length rootTable) :
    rootTable + sizeofAcpiSdt ≤ slot ∧ slot + width ≤ rootTable + length := by
  obtain ⟨i,less,rfl⟩ := List.mem_map.mp member
  have whole := Nat.mul_le_of_le_div width (i+1) _ (List.mem_range.mp less)
  rw [Nat.succ_mul,Nat.mul_comm] at whole
  omega

theorem searchFinds (width : Nat) (address : Nat → Nat) (m : Memory) (rootTable tableSignature : Nat) (below : ∀ i : Nat, (i : Int) < count ↔ i < n)
    (k i : Nat) (left : i+k = n) (slots : List Nat) :
    ∃ read, Ends (searchBody count width address m rootTable tableSignature) ⟨i,slots⟩
      ⟨((((List.range' i k).map fun i => rootTable + sizeofAcpiSdt + width*i).map address).find?
        (sdtSignature m · = tableSignature)).getD 0,slots ++ read⟩ ∧
      ∀ slot ∈ read, ∃ j < n, slot = rootTable + sizeofAcpiSdt + width*j := by
  induction k generalizing i slots with
  | zero =>
    refine ⟨[],.leave ?_,by simp⟩
    unfold searchBody
    rw [if_neg (mt (below i).mp (by omega)),List.append_nil]
    rfl
  | succ k ih =>
    have inside := (below i).mpr (by omega)
    by_cases found : sdtSignature m (address (rootTable + sizeofAcpiSdt + width*i)) = tableSignature
    · refine ⟨[rootTable + sizeofAcpiSdt + width*i],.leave ?_,fun slot member => ⟨i,by omega,List.mem_singleton.mp member⟩⟩
      simp [searchBody,inside,found,List.range'_succ]
    · obtain ⟨read,ends,listed⟩ := ih (i+1) (by omega) (slots ++ [rootTable + sizeofAcpiSdt + width*i])
      have pass : searchBody count width address m rootTable tableSignature ⟨i,slots⟩ =
          .inl ⟨i+1,slots ++ [rootTable + sizeofAcpiSdt + width*i]⟩ := by
        simp only [searchBody,inside,found,if_true,if_false]
      refine ⟨(rootTable + sizeofAcpiSdt + width*i)::read,?_,fun slot member => ?_⟩
      · have later := Ends.goOn pass ends
        rw [List.append_assoc] at later
        simpa [found,List.range'_succ] using later
      · rcases List.mem_cons.mp member with rfl | member
        · exact ⟨i,by omega,rfl⟩
        · exact listed slot member

def Finds (width : Nat) (address : Nat → Nat) (m : Memory) (rootTable tableSignature : Nat) (call : Nat → Option Found) : Prop :=
  ∃ least, ∀ fuel, least ≤ fuel → ∃ slots, call fuel =
    some ⟨(((slotsFrom width (sdtLength m rootTable) rootTable).map address).find? (sdtSignature m · = tableSignature)).getD 0,slots⟩ ∧
    ∀ slot ∈ slots, rootTable + sizeofAcpiSdt ≤ slot ∧ slot + width ≤ rootTable + sdtLength m rootTable

theorem getTableFinds (kind : width = 4 ∨ width = 8) (address : Nat → Nat) (m : Memory) (rootTable tableSignature : Nat) :
    Finds width address m rootTable tableSignature fun fuel =>
      loop (searchBody (entryCount width (sdtLength m rootTable)) width address m rootTable tableSignature) fuel ⟨0,[]⟩ := by
  have fits : sdtLength m rootTable < 2^32 := readUnsignedBound m _
  obtain ⟨read,ends,listed⟩ := searchFinds width address m rootTable tableSignature (entryCountBelow fits kind) _ 0 (Nat.zero_add _) []
  obtain ⟨least,returns⟩ := loopOfEnds ends
  refine ⟨least,fun fuel enough => ⟨read,?_,fun slot member => ?_⟩⟩
  · rw [← List.range_eq_range'] at returns
    exact returns fuel enough
  · obtain ⟨j,less,rfl⟩ := listed slot member
    exact slotInside (by omega) (List.mem_map.mpr ⟨j,List.mem_range.mpr less,rfl⟩)

theorem tablesFound (m : Memory) (rootTable tableSignature : Nat) :
    Finds 4 (readUnsigned m) m rootTable tableSignature (fun fuel => acpiRsdtGetTable fuel m rootTable tableSignature) ∧
    Finds 8 (readWord m) m rootTable tableSignature (fun fuel => acpiXsdtGetTable fuel m rootTable tableSignature) :=
  ⟨getTableFinds (Or.inl rfl) _ _ _ _,getTableFinds (Or.inr rfl) _ _ _ _⟩

end

end Kokos.Acpi

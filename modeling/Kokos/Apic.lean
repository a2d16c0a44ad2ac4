import Kokos.BitFields

/-! apic.c: the I/O APIC, whose registers are reached through a select and a data word. -/
namespace Kokos.Apic
open BitFields

def registerId : BitVec 32 := 0
def registerVersion : BitVec 32 := 1

/-- APIC_IO_REGISTER_ENTRY, in an unsigned char. -/
def registerEntry (index : BitVec 8) : BitVec 8 := 0x10 + index*2

structure IoApic where
  registerSelect : BitVec 32
  registers : BitVec 8 → BitVec 32

def mixed {w : Nat} (writable old new : BitVec w) : BitVec w := (old &&& ~~~writable) ||| (new &&& writable)

section
variable (writable : BitVec 8 → BitVec 32)

def select (register : BitVec 32) (s : IoApic) : IoApic := { s with registerSelect := register }

def selected (s : IoApic) : BitVec 8 := s.registerSelect.setWidth 8

def readData (s : IoApic) : BitVec 32 := s.registers (selected s)

def writeData (value : BitVec 32) (s : IoApic) : IoApic :=
  { s with registers := Function.update s.registers (selected s) (mixed (writable (selected s)) (s.registers (selected s)) value) }

def apicIoGetId (s : IoApic) : BitVec 8 × IoApic :=
  let s := select registerId s
  (((readData s >>> 24) &&& 0b11111111).setWidth 8,s)

def apicIoGetVersion (s : IoApic) : BitVec 8 × IoApic :=
  let s := select registerVersion s
  ((readData s &&& 0b11111111).setWidth 8,s)

def apicIoGetMaxEntries (s : IoApic) : BitVec 8 × IoApic :=
  let s := select registerVersion s
  (((readData s >>> 16) &&& 0b11111111).setWidth 8,s)

def apicIoGetEntry (index : BitVec 8) (s : IoApic) : BitVec 64 × IoApic :=
  let reg := registerEntry index
  let s := select (reg.setWidth 32) s
  let entry := (readData s).setWidth 64
  let s := select (reg.setWidth 32 + 1) s
  (entry ||| ((readData s).setWidth 64 <<< 32),s)

def apicIoSetEntry (index : BitVec 8) (entry : BitVec 64) (s : IoApic) : IoApic :=
  let reg := registerEntry index
  let s := select (reg.setWidth 32) s
  let s := writeData writable ((entry &&& 0xFFFFFFFF).setWidth 32) s
  let s := select (reg.setWidth 32 + 1) s
  writeData writable ((entry >>> 32).setWidth 32) s

end

/-! struct ioapic_entry. -/

namespace Entry

def vector : Field := ⟨0,8⟩
def deliveryMode : Field := ⟨8,3⟩
def destinationMode : Field := ⟨11,1⟩
def deliveryStatus : Field := ⟨12,1⟩
def pinPolarity : Field := ⟨13,1⟩
def remoteIrr : Field := ⟨14,1⟩
def triggerMode : Field := ⟨15,1⟩
def mask : Field := ⟨16,1⟩
def unused : Field := ⟨17,39⟩
def destination : Field := ⟨56,8⟩

end Entry

structure IoApicEntry where
  vector : Nat
  deliveryMode : Nat
  destinationMode : Nat
  deliveryStatus : Nat
  pinPolarity : Nat
  remoteIrr : Nat
  triggerMode : Nat
  mask : Nat
  unused : Nat
  destination : Nat
  deriving DecidableEq, Repr

def entryFields (e : IoApicEntry) : List (Field × Nat) :=
  [(Entry.vector,e.vector),(Entry.deliveryMode,e.deliveryMode),(Entry.destinationMode,e.destinationMode),
    (Entry.deliveryStatus,e.deliveryStatus),(Entry.pinPolarity,e.pinPolarity),(Entry.remoteIrr,e.remoteIrr),
    (Entry.triggerMode,e.triggerMode),(Entry.mask,e.mask),(Entry.unused,e.unused),(Entry.destination,e.destination)]

def entryWord (e : IoApicEntry) : BitVec 64 := BitVec.ofNat 64 (assign (entryFields e) 0)

def entryOf (word : BitVec 64) : IoApicEntry :=
  ⟨Entry.vector.get word.toNat,Entry.deliveryMode.get word.toNat,Entry.destinationMode.get word.toNat,
    Entry.deliveryStatus.get word.toNat,Entry.pinPolarity.get word.toNat,Entry.remoteIrr.get word.toNat,
    Entry.triggerMode.get word.toNat,Entry.mask.get word.toNat,Entry.unused.get word.toNat,Entry.destination.get word.toNat⟩

def apicIoRegister (writable : BitVec 8 → BitVec 32) (irq : BitVec 8) (entry : IoApicEntry) (s : IoApic) : IoApic :=
  apicIoSetEntry writable irq (entryWord entry) s

/-! The table the registers stand for: 128 words, the last eight of them the registers below
the first entry, which an index from 120 on reaches. -/

abbrev Table := Fin 128 → BitVec 64

def slot (index : BitVec 8) : Fin 128 := Fin.ofNat 128 index.toNat

def lowRegister (i : Fin 128) : BitVec 8 := BitVec.ofNat 8 (16+2*i)
def highRegister (i : Fin 128) : BitVec 8 := BitVec.ofNat 8 (16+2*i+1)

def word (registers : BitVec 8 → BitVec 32) (i : Fin 128) : BitVec 64 := registers (highRegister i) ++ registers (lowRegister i)

def store (writable : BitVec 8 → BitVec 32) (i : Fin 128) (bits : BitVec 64) (registers : BitVec 8 → BitVec 32) : BitVec 8 → BitVec 32 :=
  let low := lowRegister i
  let high := highRegister i
  let registers := Function.update registers low (mixed (writable low) (registers low) (bits.setWidth 32))
  Function.update registers high (mixed (writable high) (registers high) (bits.extractLsb' 32 32))

def firstSlot : Fin 128 := 120

/-! Runs of calls, while the controller changes bits of its own. -/

inductive Event where
  | getId
  | getVersion
  | getMaxEntries
  | getEntry (index : BitVec 8)
  | setEntry (index : BitVec 8) (entry : BitVec 64)
  | register (irq : BitVec 8) (entry : IoApicEntry)
  /-- The controller changes bits that it does not let be written. -/
  | changes (slot : Fin 128) (bits : BitVec 64)

section
variable (writable : BitVec 8 → BitVec 32)

def happen (s : IoApic) : Event → Option (BitVec 64) × IoApic
  | .getId => (some ((apicIoGetId s).1.setWidth 64),(apicIoGetId s).2)
  | .getVersion => (some ((apicIoGetVersion s).1.setWidth 64),(apicIoGetVersion s).2)
  | .getMaxEntries => (some ((apicIoGetMaxEntries s).1.setWidth 64),(apicIoGetMaxEntries s).2)
  | .getEntry index => (some (apicIoGetEntry index s).1,(apicIoGetEntry index s).2)
  | .setEntry index entry => (none,apicIoSetEntry writable index entry s)
  | .register irq entry => (none,apicIoRegister writable irq entry s)
  | .changes slot bits => (none,{ s with registers := store (fun r => ~~~writable r) slot bits s.registers })

def run : List Event → IoApic → List (Option (BitVec 64)) × IoApic
  | [], s => ([],s)
  | event::events, s =>
    let first := happen writable s event
    let rest := run events first.2
    (first.1::rest.1,rest.2)

end

def tableHappen (writable : Table) (table : Table) : Event → Option (BitVec 64) × Table
  | .getId => (some (((table firstSlot).extractLsb' 24 8).setWidth 64),table)
  | .getVersion => (some (((table firstSlot).extractLsb' 32 8).setWidth 64),table)
  | .getMaxEntries => (some (((table firstSlot).extractLsb' 48 8).setWidth 64),table)
  | .getEntry index => (some (table (slot index)),table)
  | .setEntry index entry => (none,Function.update table (slot index) (mixed (writable (slot index)) (table (slot index)) entry))
  | .register irq entry => (none,Function.update table (slot irq) (mixed (writable (slot irq)) (table (slot irq)) (entryWord entry)))
  | .changes i bits => (none,Function.update table i (mixed (~~~writable i) (table i) bits))

def tableRun (writable : Table) : List Event → Table → List (Option (BitVec 64)) × Table
  | [], table => ([],table)
  | event::events, table =>
    let first := tableHappen writable table event
    let rest := tableRun writable events first.2
    (first.1::rest.1,rest.2)

/-! Registers and slots. -/

theorem entryRegister (index : BitVec 8) : registerEntry index = lowRegister (slot index) := by
  refine BitVec.eq_of_toNat_eq ?_
  simp [registerEntry,lowRegister,slot]
  omega

theorem entrySelected (index : BitVec 8) : ((registerEntry index).setWidth 32).setWidth 8 = lowRegister (slot index) := by
  rw [entryRegister]
  simp

theorem nextSelected (index : BitVec 8) : ((registerEntry index).setWidth 32 + 1).setWidth 8 = highRegister (slot index) := by
  rw [entryRegister]
  refine BitVec.eq_of_toNat_eq ?_
  simp [lowRegister,highRegister]

theorem lowInjective {i j : Fin 128} (same : lowRegister i = lowRegister j) : i = j := by
  have numbers := congrArg BitVec.toNat same
  simp only [lowRegister,BitVec.toNat_ofNat] at numbers
  omega

theorem highInjective {i j : Fin 128} (same : highRegister i = highRegister j) : i = j := by
  have numbers := congrArg BitVec.toNat same
  simp only [highRegister,BitVec.toNat_ofNat] at numbers
  omega

theorem lowHigh (i j : Fin 128) : lowRegister i ≠ highRegister j := by
  intro same
  have numbers := congrArg BitVec.toNat same
  simp only [lowRegister,highRegister,BitVec.toNat_ofNat] at numbers
  omega

theorem mixedAppend {v w : Nat} (a b c : BitVec v) (d e f : BitVec w) : mixed (a ++ d) (b ++ e) (c ++ f) = mixed a b c ++ mixed d e f := by
  simp [mixed,BitVec.not_append]

theorem wordHalves (bits : BitVec 64) : (bits.extractLsb' 32 32 ++ bits.setWidth 32 : BitVec (32+32)) = bits := by
  refine BitVec.eq_of_toNat_eq ?_
  have small : bits.toNat % 2^32 < 2^32 := Nat.mod_lt _ (by decide)
  rw [BitVec.toNat_append,BitVec.extractLsb'_toNat,BitVec.toNat_setWidth,← Nat.shiftLeft_add_eq_or_of_lt small,Nat.shiftLeft_eq,
    Nat.shiftRight_eq_div_pow]
  omega

theorem wordStore (writable : BitVec 8 → BitVec 32) (i : Fin 128) (bits : BitVec 64) (registers : BitVec 8 → BitVec 32) :
    word (store writable i bits registers) = Function.update (word registers) i (mixed (word writable i) (word registers i) bits) := by
  funext j
  unfold word store
  by_cases same : j = i
  · subst same
    have apart := lowHigh j j
    rw [Function.update_self,Function.update_self,Function.update_of_ne apart,Function.update_self,Function.update_of_ne apart.symm,
      ← mixedAppend]
    exact congrArg (mixed _ _) (wordHalves bits)
  · have low : lowRegister j ≠ lowRegister i := fun equal => same (lowInjective equal)
    have high : highRegister j ≠ highRegister i := fun equal => same (highInjective equal)
    rw [Function.update_of_ne same,Function.update_of_ne high,Function.update_of_ne (lowHigh i j).symm,
      Function.update_of_ne (lowHigh j i),Function.update_of_ne low]

/-! The calls. -/

variable {s : IoApic}

theorem dataEntry (index : BitVec 8) : readData (select ((registerEntry index).setWidth 32) s) = s.registers (lowRegister (slot index)) :=
  congrArg s.registers (entrySelected index)

theorem halvesJoin (low high : BitVec 32) : low.setWidth 64 ||| (high.setWidth 64 <<< 32) = (high ++ low : BitVec (32+32)) := by
  refine BitVec.eq_of_toNat_eq ?_
  have first := low.isLt
  have second := high.isLt
  rw [BitVec.toNat_append,BitVec.toNat_or,BitVec.toNat_shiftLeft,BitVec.toNat_setWidth,BitVec.toNat_setWidth,Nat.or_comm,
    Nat.mod_eq_of_lt (show low.toNat < 2^64 by omega),Nat.mod_eq_of_lt (show high.toNat < 2^64 by omega),
    Nat.mod_eq_of_lt (show high.toNat <<< 32 < 2^64 by rw [Nat.shiftLeft_eq]; omega)]

theorem getEntryWord (index : BitVec 8) : (apicIoGetEntry index s).1 = word s.registers (slot index) := by
  unfold apicIoGetEntry
  simp only [dataEntry]
  rw [halvesJoin]
  exact congrArg (fun register => s.registers register ++ _) (nextSelected index)

theorem lowHalf (entry : BitVec 64) : (entry &&& 0xFFFFFFFF).setWidth 32 = entry.setWidth 32 := by
  refine BitVec.eq_of_toNat_eq ?_
  have mask (n : Nat) : n &&& 4294967295 = n % 4294967296 := Nat.and_two_pow_sub_one_eq_mod n 32
  simp [mask]

theorem highHalf (entry : BitVec 64) : (entry >>> 32).setWidth 32 = entry.extractLsb' 32 32 := by
  refine BitVec.eq_of_toNat_eq ?_
  simp

theorem setEntryStore (writable : BitVec 8 → BitVec 32) (index : BitVec 8) (entry : BitVec 64) :
    (apicIoSetEntry writable index entry s).registers = store writable (slot index) entry s.registers := by
  have first := entrySelected index
  have second := nextSelected index
  simp only [apicIoSetEntry,writeData,selected,select,first,second,lowHalf,highHalf]
  rfl

theorem byteOf (data : BitVec 32) (start : Nat) : ((data >>> start) &&& 0b11111111).setWidth 8 = data.extractLsb' start 8 := by
  refine BitVec.eq_of_toNat_eq ?_
  have mask (n : Nat) : n &&& 255 = n % 2^8 := Nat.and_two_pow_sub_one_eq_mod n 8
  simp [mask]

theorem lowByte {high low : BitVec 32} {start : Nat} (inside : start+8 ≤ 32) :
    (high ++ low : BitVec (32+32)).extractLsb' start 8 = low.extractLsb' start 8 := BitVec.extractLsb'_append_eq_of_add_le inside

theorem highByte {high low : BitVec 32} {start : Nat} (past : 32 ≤ start) :
    (high ++ low : BitVec (32+32)).extractLsb' start 8 = high.extractLsb' (start-32) 8 := BitVec.extractLsb'_append_eq_of_le past

theorem dataId : readData (select registerId s) = s.registers (lowRegister firstSlot) :=
  congrArg s.registers (show registerId.setWidth 8 = lowRegister firstSlot by decide)

theorem dataVersion : readData (select registerVersion s) = s.registers (highRegister firstSlot) :=
  congrArg s.registers (show registerVersion.setWidth 8 = highRegister firstSlot by decide)

theorem getIdByte : (apicIoGetId s).1 = (word s.registers firstSlot).extractLsb' 24 8 := by
  refine (byteOf (readData (select registerId s)) 24).trans ?_
  rw [dataId,word,lowByte (by decide)]

theorem getVersionByte : (apicIoGetVersion s).1 = (word s.registers firstSlot).extractLsb' 32 8 := by
  refine (byteOf (readData (select registerVersion s)) 0).trans ?_
  rw [dataVersion,word,highByte (by decide)]

theorem getMaxEntriesByte : (apicIoGetMaxEntries s).1 = (word s.registers firstSlot).extractLsb' 48 8 := by
  refine (byteOf (readData (select registerVersion s)) 16).trans ?_
  rw [dataVersion,word,highByte (by decide)]

theorem happenTable (writable : BitVec 8 → BitVec 32) (event : Event) (s : IoApic) :
    (happen writable s event).1 = (tableHappen (word writable) (word s.registers) event).1 ∧
      word (happen writable s event).2.registers = (tableHappen (word writable) (word s.registers) event).2 := by
  cases event with
  | getId =>
    refine ⟨?_,rfl⟩
    rw [happen,getIdByte]
    rfl
  | getVersion =>
    refine ⟨?_,rfl⟩
    rw [happen,getVersionByte]
    rfl
  | getMaxEntries =>
    refine ⟨?_,rfl⟩
    rw [happen,getMaxEntriesByte]
    rfl
  | getEntry index => exact ⟨congrArg (some ·) (getEntryWord index),rfl⟩
  | setEntry index entry =>
    refine ⟨rfl,?_⟩
    rw [happen,setEntryStore,wordStore]
    rfl
  | register irq entry =>
    refine ⟨rfl,?_⟩
    rw [happen,apicIoRegister,setEntryStore,wordStore]
    rfl
  | changes i bits =>
    have flipped : word (fun r => ~~~writable r) i = ~~~(word writable i) := BitVec.not_append.symm
    refine ⟨rfl,?_⟩
    rw [happen,wordStore,flipped]
    rfl

theorem windowTable (writable : BitVec 8 → BitVec 32) (events : List Event) (s : IoApic) :
    (run writable events s).1 = (tableRun (word writable) events (word s.registers)).1 ∧
      word (run writable events s).2.registers = (tableRun (word writable) events (word s.registers)).2 := by
  induction events generalizing s with
  | nil => exact ⟨rfl,rfl⟩
  | cons event events ih =>
    obtain ⟨answer,table⟩ := happenTable writable event s
    obtain ⟨answers,final⟩ := ih (happen writable s event).2
    rw [table] at answers final
    exact ⟨congrArg₂ List.cons answer answers,final⟩

/-! An entry, once registered. -/

structure Proper (e : IoApicEntry) : Prop where
  vector : e.vector < 2^8
  deliveryMode : e.deliveryMode < 2^3
  destinationMode : e.destinationMode < 2^1
  deliveryStatus : e.deliveryStatus < 2^1
  pinPolarity : e.pinPolarity < 2^1
  remoteIrr : e.remoteIrr < 2^1
  triggerMode : e.triggerMode < 2^1
  mask : e.mask < 2^1
  unused : e.unused < 2^39
  destination : e.destination < 2^8

def blankEntry : IoApicEntry := ⟨0,0,0,0,0,0,0,0,0,0⟩

theorem entryFieldsAre (e : IoApicEntry) {p : Field → Prop} (fields : ∀ f ∈ (entryFields blankEntry).map Prod.fst, p f) :
    ∀ f ∈ entryFields e, p f.1 := by
  have same : (entryFields e).map Prod.fst = (entryFields blankEntry).map Prod.fst := rfl
  intro f member
  exact fields f.1 (same ▸ List.mem_map_of_mem member)

theorem entryGet (e : IoApicEntry) {g : Field} (apart : ∀ f ∈ (entryFields blankEntry).map Prod.fst, f = g ∨ Apart f g) :
    g.get (entryWord e).toNat = (entryFields e).foldl (fun v f => if f.1 = g then f.2 % 2^g.width else v) (g.get 0) := by
  have small : assign (entryFields e) 0 < 2^64 :=
    assignBound (@entryFieldsAre e (fun f => f.start+f.width ≤ 64) (by decide)) (by decide)
  rw [entryWord,BitVec.toNat_ofNat,Nat.mod_eq_of_lt small]
  exact getAssign (entryFieldsAre e apart)

theorem entryBack {e : IoApicEntry} (proper : Proper e) : entryOf (entryWord e) = e := by
  have field {g : Field} {v : Nat} (apart : ∀ f ∈ (entryFields blankEntry).map Prod.fst, f = g ∨ Apart f g) (small : v < 2^g.width)
      (last : (entryFields e).foldl (fun v f => if f.1 = g then f.2 % 2^g.width else v) (g.get 0) = v % 2^g.width) :
      g.get (entryWord e).toNat = v := by rw [entryGet e apart,last,Nat.mod_eq_of_lt small]
  unfold entryOf
  rw [field (by decide) proper.vector rfl,field (by decide) proper.deliveryMode rfl,field (by decide) proper.destinationMode rfl,
    field (by decide) proper.deliveryStatus rfl,field (by decide) proper.pinPolarity rfl,field (by decide) proper.remoteIrr rfl,
    field (by decide) proper.triggerMode rfl,field (by decide) proper.mask rfl,field (by decide) proper.unused rfl,
    field (by decide) proper.destination rfl]

theorem mixedWritten {w : Nat} (writable old new : BitVec w) : mixed writable old new &&& writable = new &&& writable := by
  ext i inside
  simp only [mixed,BitVec.getElem_and,BitVec.getElem_or,BitVec.getElem_not]
  cases writable[i] <;> simp

theorem mixedKept {w : Nat} (writable old new : BitVec w) : mixed (~~~writable) old new &&& writable = old &&& writable := by
  ext i inside
  simp only [mixed,BitVec.getElem_and,BitVec.getElem_or,BitVec.getElem_not]
  cases writable[i] <;> simp

def Event.sets : Event → Option (Fin 128)
  | .setEntry index _ => some (slot index)
  | .register irq _ => some (slot irq)
  | _ => none

theorem tableKept (writable table : Table) {i : Fin 128} {event : Event} (other : event.sets ≠ some i) :
    (tableHappen writable table event).2 i &&& writable i = table i &&& writable i := by
  have apart {j : Fin 128} (different : some j ≠ some i) : i ≠ j := fun same => different (congrArg some same.symm)
  cases event with
  | setEntry index entry | register irq entry =>
    simp only [tableHappen]
    rw [Function.update_of_ne (apart other)]
  | changes j bits =>
    simp only [tableHappen]
    by_cases same : i = j
    · subst same
      rw [Function.update_self,mixedKept]
    · rw [Function.update_of_ne same]
  | _ => rfl

theorem tableRunKept (writable table : Table) {i : Fin 128} {events : List Event} (others : ∀ event ∈ events, event.sets ≠ some i) :
    (tableRun writable events table).2 i &&& writable i = table i &&& writable i := by
  induction events generalizing table with
  | nil => rfl
  | cons event events ih =>
    have rest := ih (tableHappen writable table event).2 fun later member => others later (List.mem_cons_of_mem _ member)
    exact rest.trans (tableKept writable table (others event List.mem_cons_self))

theorem entryStays (writable : BitVec 8 → BitVec 32) {e : IoApicEntry} (proper : Proper e) (irq : BitVec 8) {events : List Event}
    (others : ∀ event ∈ events, event.sets ≠ some (slot irq)) (s : IoApic) :
    entryOf (entryWord e) = e ∧
      word (run writable (.register irq e :: events) s).2.registers (slot irq) &&& word writable (slot irq) =
        entryWord e &&& word writable (slot irq) := by
  refine ⟨entryBack proper,?_⟩
  rw [(windowTable writable (.register irq e :: events) s).2]
  refine (tableRunKept (word writable) _ others).trans ?_
  simp only [tableHappen]
  rw [Function.update_self,mixedWritten]

def keyboardEntry (destination : Nat) : IoApicEntry := { blankEntry with vector := 0x23, destination }

theorem keyboardStays :
    Proper (keyboardEntry 3) ∧ (∀ event ∈ [Event.getId,.setEntry 2 7,.changes 1 0],event.sets ≠ some (slot 1)) ∧
    entryOf (entryWord (keyboardEntry 3)) = keyboardEntry 3 ∧
      word (run (fun _ => 0xFFFEAFFF) (.register 1 (keyboardEntry 3) :: [.getId,.setEntry 2 7,.changes 1 0]) ⟨0,fun _ => 0⟩).2.registers
          (slot 1) &&& word (fun _ => 0xFFFEAFFF) (slot 1) = entryWord (keyboardEntry 3) &&& word (fun _ => 0xFFFEAFFF) (slot 1) := by
  have proper : Proper (keyboardEntry 3) := by constructor <;> decide
  have others : ∀ event ∈ [Event.getId,.setEntry 2 7,.changes 1 0],event.sets ≠ some (slot 1) := by decide
  exact ⟨proper,others,entryStays (fun _ => 0xFFFEAFFF) proper 1 others ⟨0,fun _ => 0⟩⟩

end Kokos.Apic

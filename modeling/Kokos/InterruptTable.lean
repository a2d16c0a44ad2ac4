import Kokos.BitFields

/-! idt.c: the interrupt descriptor table of one CPU, 256 entries of 16 bytes in a page. -/
namespace Kokos.Interrupts
open ByteMemory BitFields

/-! struct idt_entry, as a number of 128 bits. -/

def offset1 : Field := ⟨0,16⟩
def codeSegment : Field := ⟨16,16⟩
def interruptStack : Field := ⟨32,8⟩
def gateType : Field := ⟨40,4⟩
def privilegeLevel : Field := ⟨45,2⟩
def present : Field := ⟨47,1⟩
def offset2 : Field := ⟨48,16⟩
def offset3 : Field := ⟨64,32⟩

def gateTypeInterrupt : Nat := 0b1110
def gateTypeTrap : Nat := 0b1111
def stackTypeCurrent : Nat := 0
def stackTypeDoubleFault : Nat := 1
def gdtKernelCodeSegment : Nat := 0x8

inductive ConsoleCall where
  | print (text : String)
  | printI32 (value base : Nat)
  | printU64 (value base : Nat)
  | newLine
  deriving DecidableEq, Repr

def loadEntry (m : Memory) (table : Nat) (vector : Fin 256) : Nat := readBytes m (table+16*vector) 16
def storeEntry (m : Memory) (table : Nat) (vector : Fin 256) (entry : Nat) : Memory := writeBytes m (table+16*vector) 16 entry

def registerEntry (functionPointer interruptType ist entry : Nat) : Nat :=
  let entry := offset1.set (functionPointer &&& 0xFFFF) entry
  let entry := codeSegment.set gdtKernelCodeSegment entry
  let entry := interruptStack.set (ist &&& 0b111) entry
  let entry := gateType.set (interruptType &&& 0xF) entry
  let entry := present.set 1 entry
  let entry := offset2.set ((functionPointer >>> 16) &&& 0xFFFF) entry
  offset3.set ((functionPointer >>> 32) &&& 0xFFFFFFFF) entry

structure Screen where
  memory : Memory
  printed : List ConsoleCall

def warning (vector : Fin 256) : List ConsoleCall :=
  [.print "warning: overwriting interrupt vector #",.printI32 vector 10,.newLine]

def idtRegisterInterrupt (table : Nat) (vector : Fin 256) (functionPointer interruptType ist : Nat) (s : Screen) : Screen :=
  let entry := loadEntry s.memory table vector
  ⟨storeEntry s.memory table vector (registerEntry functionPointer interruptType ist entry),
    if present.get entry ≠ 0 then s.printed ++ warning vector else s.printed⟩

def idtEnableInterrupt (table : Nat) (vector : Fin 256) (s : Screen) : Screen :=
  { s with memory := storeEntry s.memory table vector (present.set 1 (loadEntry s.memory table vector)) }

def idtDisableInterrupt (table : Nat) (vector : Fin 256) (s : Screen) : Screen :=
  { s with memory := storeEntry s.memory table vector (present.set 0 (loadEntry s.memory table vector)) }

def debugLine (vector : Nat) (entry : Nat) : List ConsoleCall :=
  [.print "[idt] entry #",.printU64 vector 10,
    .print " offset=0x",.printU64 (offset1.get entry ||| (offset2.get entry <<< 16) ||| (offset3.get entry <<< 32)) 16,
    .print " code_segment=",.printU64 (codeSegment.get entry) 10,
    .print " type=0b",.printU64 (gateType.get entry) 2,
    .print " level=",.printU64 (privilegeLevel.get entry) 10,
    .print " ist=",.printU64 (interruptStack.get entry) 10,.newLine]

/-- The entries below 256 - 17, in turn. -/
def idtDebug (table : Nat) (s : Screen) : Screen :=
  { s with printed := s.printed ++ (List.range (256-17)).flatMap fun i =>
      let entry := readBytes s.memory (table+16*i) 16
      if present.get entry = 0 then [] else debugLine i entry }

inductive Operation where
  | register (vector : Fin 256) (functionPointer interruptType ist : Nat)
  | enable (vector : Fin 256)
  | disable (vector : Fin 256)
  deriving DecidableEq, Repr

def operate (table : Nat) (s : Screen) : Operation → Screen
  | .register vector functionPointer interruptType ist => idtRegisterInterrupt table vector functionPointer interruptType ist s
  | .enable vector => idtEnableInterrupt table vector s
  | .disable vector => idtDisableInterrupt table vector s

/-! What a table is for: a handler, its kind and its stack for each vector. -/

structure Gate where
  handler : Nat
  codeSegment : Nat
  kind : Nat
  stack : Nat
  privilege : Nat
  present : Bool
  deriving DecidableEq, Repr

def noGate : Gate := ⟨0,0,0,0,0,false⟩

def gateOf (entry : Nat) : Gate :=
  ⟨offset1.get entry + 2^16*offset2.get entry + 2^32*offset3.get entry,codeSegment.get entry,gateType.get entry,
    interruptStack.get entry,privilegeLevel.get entry,decide (present.get entry ≠ 0)⟩

def Operation.vector : Operation → Fin 256
  | .register vector _ _ _ => vector
  | .enable vector => vector
  | .disable vector => vector

def gateAfter (gate : Gate) : Operation → Gate
  | .register _ functionPointer interruptType ist =>
    ⟨functionPointer % 2^64,gdtKernelCodeSegment,interruptType % 16,ist % 8,gate.privilege,true⟩
  | .enable _ => { gate with present := true }
  | .disable _ => { gate with present := false }

def warnsAbout (gate : Gate) : Operation → List ConsoleCall
  | .register vector _ _ _ => if gate.present then warning vector else []
  | _ => []

def gateThrough (operations : List Operation) (gates : Fin 256 → Gate) (vector : Fin 256) : Gate :=
  (operations.filter (·.vector = vector)).foldl gateAfter (gates vector)

def warnings (gates : Fin 256 → Gate) : List Operation → List ConsoleCall
  | [] => []
  | operation :: operations => warnsAbout (gates operation.vector) operation ++
    warnings (Function.update gates operation.vector (gateAfter (gates operation.vector) operation)) operations

/-! One entry. -/

theorem registerGate (functionPointer interruptType ist entry : Nat) :
    gateOf (registerEntry functionPointer interruptType ist entry) =
      ⟨functionPointer % 2^64,gdtKernelCodeSegment,interruptType % 16,ist % 8,privilegeLevel.get entry,true⟩ := by
  have low : functionPointer &&& 0xFFFF = functionPointer % 2^16 := Nat.and_two_pow_sub_one_eq_mod functionPointer 16
  have middle : (functionPointer >>> 16) &&& 0xFFFF = functionPointer / 2^16 % 2^16 := by
    rw [← Nat.shiftRight_eq_div_pow]
    exact Nat.and_two_pow_sub_one_eq_mod _ 16
  have high : (functionPointer >>> 32) &&& 0xFFFFFFFF = functionPointer / 2^32 % 2^32 := by
    rw [← Nat.shiftRight_eq_div_pow]
    exact Nat.and_two_pow_sub_one_eq_mod _ 32
  have kind : interruptType &&& 0xF = interruptType % 2^4 := Nat.and_two_pow_sub_one_eq_mod interruptType 4
  have stack : ist &&& 0b111 = ist % 2^3 := Nat.and_two_pow_sub_one_eq_mod ist 3
  simp (disch := decide) only [registerEntry,gateOf,getApart,getSame,low,middle,high,kind,stack]
  simp only [offset1,codeSegment,interruptStack,gateType,present,offset2,offset3,gdtKernelCodeSegment,Gate.mk.injEq]
  refine ⟨?_,by decide,?_,?_,trivial,by decide⟩ <;> omega

theorem presentGate {entry value : Nat} (bit : value < 2) :
    gateOf (present.set value entry) = { gateOf entry with present := decide (value ≠ 0) } := by
  have same : value % 2^present.width = value := Nat.mod_eq_of_lt bit
  simp (disch := decide) only [gateOf,getApart,getSame,same]

theorem registerBound {functionPointer interruptType ist entry : Nat} (bound : entry < 256^16) :
    registerEntry functionPointer interruptType ist entry < 256^16 := by
  have bound : entry < 2^128 := bound
  change _ < 2^128
  unfold registerEntry
  refine setInside _ (by decide) (setInside _ (by decide) (setInside _ (by decide) (setInside _ (by decide) (setInside _ (by decide)
    (setInside _ (by decide) (setInside _ (by decide) bound))))))

/-! The table. -/

variable {m : Memory} {table entry : Nat} {vector other : Fin 256}

theorem loadStoreEntry (bound : entry < 256^16) : loadEntry (storeEntry m table vector entry) table vector = entry :=
  readWriteBytes m _ bound

theorem loadStoreApart (apart : other ≠ vector) : loadEntry (storeEntry m table vector entry) table other = loadEntry m table other := by
  have numbers : (other : Nat) ≠ vector := fun same => apart (Fin.ext same)
  exact readBytesCongr (writeBytesOther m 16 entry (by omega)) ⟨Nat.le_refl _,Nat.le_refl _⟩

def gatesIn (m : Memory) (table : Nat) (vector : Fin 256) : Gate := gateOf (loadEntry m table vector)

theorem gatesStore (bound : entry < 256^16) :
    gatesIn (storeEntry m table vector entry) table = Function.update (gatesIn m table) vector (gateOf entry) := by
  funext v
  by_cases same : v = vector
  · subst same
    rw [Function.update_self,gatesIn,loadStoreEntry bound]
  · rw [Function.update_of_ne same,gatesIn,loadStoreApart same]
    rfl

theorem operateGates (s : Screen) (operation : Operation) :
    gatesIn (operate table s operation).memory table =
      Function.update (gatesIn s.memory table) operation.vector (gateAfter (gatesIn s.memory table operation.vector) operation) := by
  cases operation with
  | register vector functionPointer interruptType ist =>
    have bound : registerEntry functionPointer interruptType ist (loadEntry s.memory table vector) < 256^16 :=
      registerBound (readBytesBound s.memory (table+16*vector) 16)
    exact (gatesStore bound).trans (congrArg _ (registerGate ..))
  | enable vector =>
    have bound : present.set 1 (loadEntry s.memory table vector) < 2^128 :=
      setInside _ (by decide) (readBytesBound s.memory (table+16*vector) 16)
    exact (gatesStore bound).trans (congrArg _ (presentGate (by decide)))
  | disable vector =>
    have bound : present.set 0 (loadEntry s.memory table vector) < 2^128 :=
      setInside _ (by decide) (readBytesBound s.memory (table+16*vector) 16)
    exact (gatesStore bound).trans (congrArg _ (presentGate (by decide)))

theorem operatePrints (s : Screen) (operation : Operation) :
    (operate table s operation).printed = s.printed ++ warnsAbout (gatesIn s.memory table operation.vector) operation := by
  cases operation with
  | register vector functionPointer interruptType ist =>
    by_cases taken : present.get (loadEntry s.memory table vector) = 0 <;>
      simp [operate,idtRegisterInterrupt,warnsAbout,Operation.vector,gatesIn,gateOf,taken]
  | enable vector | disable vector => exact (List.append_nil _).symm

theorem operateOutside (s : Screen) (operation : Operation) {a size : Nat} (apart : a+size ≤ table ∨ table+4096 ≤ a) :
    SameBytes s.memory (operate table s operation).memory a size := by
  cases operation with
  | register vector functionPointer interruptType ist => exact writeBytesOther _ _ _ (by omega)
  | enable vector => exact writeBytesOther _ _ _ (by omega)
  | disable vector => exact writeBytesOther _ _ _ (by omega)

/-! Lists of operations. -/

def operateAll (table : Nat) (operations : List Operation) (s : Screen) : Screen := operations.foldl (operate table) s

theorem throughUpdate (gates : Fin 256 → Gate) (operation : Operation) (operations : List Operation) :
    gateThrough operations (Function.update gates operation.vector (gateAfter (gates operation.vector) operation)) =
      gateThrough (operation::operations) gates := by
  funext v
  unfold gateThrough
  by_cases here : operation.vector = v
  · subst here
    rw [Function.update_self,List.filter_cons_of_pos (by simp),List.foldl_cons]
  · rw [Function.update_of_ne (Ne.symm here),List.filter_cons_of_neg (by simpa using here)]

theorem allGates (operations : List Operation) (s : Screen) :
    gatesIn (operateAll table operations s).memory table = gateThrough operations (gatesIn s.memory table) := by
  induction operations generalizing s with
  | nil => rfl
  | cons operation operations ih =>
    have rest := ih (operate table s operation)
    rwa [operateGates,throughUpdate] at rest

theorem allPrints (operations : List Operation) (s : Screen) :
    (operateAll table operations s).printed = s.printed ++ warnings (gatesIn s.memory table) operations := by
  induction operations generalizing s with
  | nil => exact (List.append_nil _).symm
  | cons operation operations ih =>
    have rest := ih (operate table s operation)
    rw [operateGates,operatePrints,List.append_assoc] at rest
    exact rest

theorem allOutside (operations : List Operation) (s : Screen) {a size : Nat} (apart : a+size ≤ table ∨ table+4096 ≤ a) :
    SameBytes s.memory (operateAll table operations s).memory a size := by
  induction operations generalizing s with
  | nil => exact fun _ _ _ => rfl
  | cons operation operations ih =>
    exact sameTrans (operateOutside s operation apart) (ih (operate table s operation))

theorem tableFollows (table : Nat) (operations : List Operation) (s : Screen) :
    (∀ v, gatesIn (operateAll table operations s).memory table v = gateThrough operations (gatesIn s.memory table) v) ∧
    (operateAll table operations s).printed = s.printed ++ warnings (gatesIn s.memory table) operations ∧
    ∀ a size, a+size ≤ table ∨ table+4096 ≤ a → SameBytes s.memory (operateAll table operations s).memory a size :=
  ⟨congrFun (allGates operations s),allPrints operations s,fun _ _ apart => allOutside operations s apart⟩

/-! idt_debug. -/

def showGate (vector : Nat) (gate : Gate) : List ConsoleCall :=
  [.print "[idt] entry #",.printU64 vector 10,.print " offset=0x",.printU64 gate.handler 16,
    .print " code_segment=",.printU64 gate.codeSegment 10,.print " type=0b",.printU64 gate.kind 2,
    .print " level=",.printU64 gate.privilege 10,.print " ist=",.printU64 gate.stack 10,.newLine]

theorem offsetsJoin (entry : Nat) :
    offset1.get entry ||| (offset2.get entry <<< 16) ||| (offset3.get entry <<< 32) = (gateOf entry).handler := by
  have low : offset1.get entry < 2^16 := fieldBound
  have middle : offset2.get entry < 2^16 := fieldBound
  have both : offset1.get entry + 2^16*offset2.get entry < 2^32 := by omega
  rw [Nat.shiftLeft_eq,Nat.shiftLeft_eq,Nat.mul_comm _ (2^16),Nat.mul_comm _ (2^32),Nat.or_comm (offset1.get entry),
    ← Nat.two_pow_add_eq_or_of_lt low,Nat.add_comm (2^16*_),Nat.or_comm,← Nat.two_pow_add_eq_or_of_lt both,Nat.add_comm]
  rfl

def shown : List (Fin 256) := (List.finRange (256-17)).map (Fin.castLE (by decide))

theorem shownVectors : shown.map Fin.val = List.range (256-17) := by
  rw [shown,List.map_map,← List.map_coe_finRange_eq_range]
  rfl

theorem debugLines (table : Nat) (s : Screen) :
    (idtDebug table s).printed = s.printed ++ shown.flatMap fun v =>
      if (gatesIn s.memory table v).present then showGate v (gatesIn s.memory table v) else [] := by
  unfold idtDebug
  rw [← shownVectors,List.flatMap_map]
  refine congrArg (s.printed ++ ·) (List.flatMap_congr fun v _ => ?_)
  by_cases taken : present.get (loadEntry s.memory table v) = 0
  · simp [gatesIn,gateOf,loadEntry] at taken ⊢
    simp [taken]
  · simp only [loadEntry] at taken
    simp [gatesIn,gateOf,loadEntry,taken,debugLine,showGate]
    exact offsetsJoin _

theorem zeroGates (m : Memory) (table : Nat) : gatesIn (zeroBytes m table 4096) table = fun _ => noGate := by
  funext v
  have zero : loadEntry (zeroBytes m table 4096) table v = 0 := readZeroBytes m (by omega)
  unfold gatesIn gateOf
  rw [zero,getZero,getZero,getZero,getZero,getZero,getZero,getZero,getZero]
  rfl

theorem debugFollows (m : Memory) (table : Nat) (operations : List Operation) (before : List ConsoleCall) :
    (idtDebug table (operateAll table operations ⟨zeroBytes m table 4096,before⟩)).printed =
      before ++ warnings (fun _ => noGate) operations ++ shown.flatMap fun v =>
        if (gateThrough operations (fun _ => noGate) v).present then showGate v (gateThrough operations (fun _ => noGate) v)
        else [] := by
  rw [debugLines,allGates,allPrints,zeroGates]

end Kokos.Interrupts

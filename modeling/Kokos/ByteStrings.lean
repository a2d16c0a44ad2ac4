import Kokos.ByteMemory
import Kokos.CountedLoops

/-! Lists of bytes in memory, strings that end at a zero byte, and memory that records the
addresses it is written to. -/
namespace Kokos.ByteStrings
open ByteMemory CountedLoops

def char (c : Char) : UInt8 := UInt8.ofNat c.toNat

def chars (str : String) : List UInt8 := str.toList.map char

def loadBytes (m : Memory) : Nat → Nat → List UInt8
  | _, 0 => []
  | a, n+1 => m a :: loadBytes m (a+1) n

section
variable {m m' : Memory} {a n : Nat} {bytes rest : List UInt8}

theorem loadBytesLength (m : Memory) (a n : Nat) : (loadBytes m a n).length = n := by
  induction n generalizing a with
  | zero => rfl
  | succ n ih => simp [loadBytes,ih]

theorem loadBytesCongr (same : SameBytes m m' a n) : loadBytes m' a n = loadBytes m a n := by
  induction n generalizing a with
  | zero => rfl
  | succ n ih =>
    simp only [loadBytes]
    rw [same a (Nat.le_refl _) (by omega),ih (sameInside same (by omega))]

theorem loadBytesAppend (m : Memory) (a k n : Nat) : loadBytes m a (k+n) = loadBytes m a k ++ loadBytes m (a+k) n := by
  induction k generalizing a with
  | zero => simp [loadBytes]
  | succ k ih =>
    rw [Nat.succ_add]
    simp only [loadBytes,ih,List.cons_append]
    rw [show a+1+k = a+(k+1) by omega]

theorem loadBytesGet {i : Nat} (inside : i < n) : (loadBytes m a n)[i]? = some (m (a+i)) := by
  induction n generalizing a i with
  | zero => omega
  | succ n ih =>
    cases i with
    | zero => rfl
    | succ i =>
      simp only [loadBytes,List.getElem?_cons_succ]
      rw [ih (by omega),show a+1+i = a+(i+1) by omega]

theorem loadBytesIff : loadBytes m a bytes.length = bytes ↔ ∀ i < bytes.length, bytes[i]? = some (m (a+i)) := by
  constructor
  · intro same i inside
    rw [← loadBytesGet inside,same]
  · intro same
    refine List.ext_getElem? fun i => ?_
    by_cases inside : i < bytes.length
    · rw [loadBytesGet inside,same i inside]
    · rw [List.getElem?_eq_none (by rw [loadBytesLength]; omega),List.getElem?_eq_none (by omega)]

theorem loadBytesSplit (same : loadBytes m a (bytes ++ rest).length = bytes ++ rest) :
    loadBytes m a bytes.length = bytes ∧ loadBytes m (a + bytes.length) rest.length = rest := by
  rw [List.length_append,loadBytesAppend] at same
  exact List.append_inj same (loadBytesLength _ _ _)

structure Terminated (m : Memory) (a : Nat) (str : List UInt8) : Prop where
  contents : loadBytes m a str.length = str
  proper : ∀ c ∈ str, c ≠ 0
  stop : m (a + str.length) = 0

theorem eachOf {P : UInt8 → Prop} [DecidablePred P] {str : List UInt8} (all : str.all (fun c => decide (P c)) = true) : ∀ c ∈ str, P c :=
  fun c member => of_decide_eq_true (List.all_eq_true.mp all c member)

theorem terminatedRest (str : Terminated m a (bytes ++ rest)) : Terminated m (a + bytes.length) rest := by
  obtain ⟨_,last⟩ := loadBytesSplit str.contents
  refine ⟨last,fun c member => str.proper c (List.mem_append_right _ member),?_⟩
  have stop := str.stop
  rwa [List.length_append,← Nat.add_assoc] at stop

theorem terminatedHead {c : UInt8} (str : Terminated m a (c::rest)) : m a = c ∧ c ≠ 0 ∧ Terminated m (a+1) rest := by
  have split : Terminated m a ([c] ++ rest) := str
  exact ⟨(List.cons.inj str.contents).1,str.proper c List.mem_cons_self,terminatedRest split⟩

end

/-! Writes. -/

structure Store where
  memory : Memory
  writes : List Nat

def Store.put (s : Store) (a : Nat) (c : UInt8) : Store := ⟨Function.update s.memory a c,a :: s.writes⟩

structure Left (s s' : Store) (a : Nat) (bytes : List UInt8) : Prop where
  contents : loadBytes s'.memory a bytes.length = bytes
  others : ∀ x, x < a ∨ a + bytes.length ≤ x → s'.memory x = s.memory x
  writes : ∀ x, x ∈ s'.writes ↔ x ∈ s.writes ∨ a ≤ x ∧ x < a + bytes.length

section
variable {s s' s'' : Store} {a : Nat} {bytes rest tail : List UInt8}

theorem leftNothing (s : Store) (a : Nat) : Left s s a [] := by
  refine ⟨rfl,fun _ _ => rfl,fun x => ?_⟩
  have nowhere : ¬ (a ≤ x ∧ x < a+0) := by omega
  exact (or_iff_left nowhere).symm

theorem leftPut (s : Store) (a : Nat) (c : UInt8) : Left s (s.put a c) a [c] := by
  refine ⟨?_,fun x away => ?_,fun x => ?_⟩
  · simp [loadBytes,Store.put]
  · simp only [List.length_singleton] at away
    exact Function.update_of_ne (by omega) _ _
  · have here : x = a ↔ a ≤ x ∧ x < a+1 := by omega
    simp only [Store.put,List.mem_cons,List.length_singleton]
    rw [here,or_comm]

theorem leftOver (first : Left s s' a (bytes ++ tail)) (second : Left s' s'' (a + bytes.length) rest) :
    Left s s'' a (bytes ++ rest ++ tail.drop rest.length) := by
  obtain ⟨front,back⟩ := loadBytesSplit first.contents
  have size : (bytes ++ rest ++ tail.drop rest.length).length = bytes.length + rest.length + (tail.length - rest.length) := by simp [Nat.add_assoc]
  have others := first.others
  have writes := first.writes
  rw [List.length_append] at others writes
  refine ⟨?_,fun x away => ?_,fun x => ?_⟩
  · have kept : loadBytes s''.memory a bytes.length = bytes := by
      rw [loadBytesCongr fun x low high => second.others x (by omega),front]
    have shown : loadBytes s''.memory (a + bytes.length + rest.length) (tail.length - rest.length) = tail.drop rest.length := by
      rw [loadBytesCongr fun x low high => second.others x (by omega)]
      by_cases more : rest.length ≤ tail.length
      · have split := loadBytesAppend s'.memory (a + bytes.length) rest.length (tail.length - rest.length)
        rw [Nat.add_sub_cancel' more,back] at split
        have rest := congrArg (List.drop rest.length) split
        rwa [List.drop_left' (loadBytesLength _ _ _),eq_comm] at rest
      · rw [Nat.sub_eq_zero_of_le (by omega),List.drop_eq_nil_of_le (by omega)]
        rfl
    rw [size,loadBytesAppend,loadBytesAppend,kept,second.contents,← Nat.add_assoc,shown]
  · rw [size] at away
    rw [second.others x (by omega)]
    exact others x (by omega)
  · rw [size,second.writes,writes,or_assoc]
    exact or_congr_right (by omega)

theorem leftAppend (first : Left s s' a bytes) (second : Left s' s'' (a + bytes.length) rest) : Left s s'' a (bytes ++ rest) := by
  have first' : Left s s' a (bytes ++ []) := by rwa [List.append_nil]
  have both := leftOver first' second
  rwa [List.drop_nil,List.append_nil] at both

theorem leftTerminated (left : Left s s' a (bytes ++ [0])) (proper : ∀ c ∈ bytes, c ≠ 0) : Terminated s'.memory a bytes := by
  obtain ⟨front,last⟩ := loadBytesSplit left.contents
  exact ⟨front,proper,(List.cons.inj last).1⟩

theorem leftBehind (first : Left s s' a bytes) (c : UInt8) : Left s (s'.put (a + bytes.length) c) a (bytes ++ [c]) :=
  leftAppend first (leftPut s' _ c)

end

end Kokos.ByteStrings

import Kokos.HeapChunks
import Kokos.Strings

/-! string_length, string_compare, memory_set and memory_compare. A char is signed; the result of
string_compare is a difference of two of them. -/
namespace Kokos.Comparisons
open ByteMemory ByteStrings CountedLoops WhileLoops

def signed (c : UInt8) : Int := c.toBitVec.toInt

def lengthBody (m : Memory) (s : Nat × Nat) : (Nat × Nat) ⊕ Nat := if m s.1 ≠ 0 then .inl (s.1+1,s.2+1) else .inr s.2

def stringLength (fuel : Nat) (m : Memory) (str : Nat) : Option Nat := loop (lengthBody m) fuel (str,0)

def compareBody (m : Memory) (s : Nat × Nat) : (Nat × Nat) ⊕ Int :=
  let d := signed (m s.2) - signed (m s.1)
  if d ≠ 0 then .inr d
  else if m s.1 = 0 ∨ m s.2 = 0 then .inr (if m s.1 = m s.2 then 0 else 1)
  else .inl (s.1+1,s.2+1)

def stringCompare (fuel : Nat) (m : Memory) (a b : Nat) : Option Int := loop (compareBody m) fuel (a,b)

def memorySet (m : Memory) (address size : Nat) (value : UInt8) : Memory :=
  countUp size (fun i m => Function.update m (address+i) value) m

structure Comparing where
  i : Nat
  a : Nat
  b : Nat

def memoryCompareBody (m : Memory) (size : Nat) (s : Comparing) : Comparing ⊕ Int :=
  if s.i < size then if m s.a ≠ m s.b then .inr 0 else .inl ⟨s.i+1,s.a+1,s.b+1⟩ else .inr 1

def memoryCompare (fuel : Nat) (m : Memory) (a b size : Nat) : Option Int := loop (memoryCompareBody m size) fuel ⟨0,a,b⟩

def signedText (str : List UInt8) : List Int := str.map signed ++ [0]

section
variable {m : Memory} {a b n : Nat} {s t : List UInt8}

theorem signedEqual {c d : UInt8} : signed c = signed d ↔ c = d := by
  constructor
  · intro same
    exact UInt8.toBitVec_inj.mp (BitVec.eq_of_toInt_eq same)
  · exact congrArg signed

theorem signedZero {c : UInt8} : signed c = 0 ↔ c = 0 := @signedEqual c 0

theorem lengthEnds (str : Terminated m a s) : Ends (lengthBody m) (a,n) (n + s.length) := by
  induction s generalizing a n with
  | nil =>
    have stop : m a = 0 := str.stop
    exact .leave (by simp [lengthBody,stop])
  | cons c s ih =>
    obtain ⟨here,nonzero,rest⟩ := terminatedHead str
    have pass : lengthBody m (a,n) = .inl (a+1,n+1) := by simp [lengthBody,here,nonzero]
    have later := ih rest (n := n+1)
    rw [show n+1 + s.length = n + (c::s).length by rw [List.length_cons]; omega] at later
    exact .goOn pass later

theorem compareDiffers (differ : m a ≠ m b) : Ends (compareBody m) (a,b) (signed (m b) - signed (m a)) := by
  have nonzero : signed (m b) - signed (m a) ≠ 0 := fun same => differ (signedEqual.mp (by omega))
  exact .leave (if_pos nonzero)

theorem compareEnds (first : Terminated m a s) (second : Terminated m b t) : ∃ d, Ends (compareBody m) (a,b) d ∧
    Ends (compareBody m) (b,a) (-d) ∧ (d = 0 ↔ s = t) ∧ (0 < d ↔ signedText s < signedText t) := by
  induction s generalizing a b t with
  | nil =>
    have stop : m a = 0 := first.stop
    cases t with
    | nil =>
      have stop' : m b = 0 := second.stop
      refine ⟨0,.leave ?_,.leave ?_,by simp,by simp [signedText]⟩
      · simp [compareBody,stop,stop']
      · simp [compareBody,stop,stop']
    | cons c t =>
      obtain ⟨here,nonzero,_⟩ := terminatedHead second
      have differ : m a ≠ m b := by rw [stop,here]; exact nonzero.symm
      have back := compareDiffers differ.symm
      rw [← neg_sub] at back
      refine ⟨_,compareDiffers differ,back,?_,?_⟩
      · rw [stop,here,signedZero.mpr rfl,sub_zero,signedZero]
        simp [nonzero]
      · have other : (0 : Int) ≠ signed c := fun same => nonzero (signedZero.mp same.symm)
        rw [stop,here,signedZero.mpr rfl,sub_zero]
        simp [signedText,List.cons_lt_cons_iff,other]
  | cons c s ih =>
    obtain ⟨here,nonzero,rest⟩ := terminatedHead first
    cases t with
    | nil =>
      have stop : m b = 0 := second.stop
      have differ : m a ≠ m b := by rw [stop,here]; exact nonzero
      have back := compareDiffers differ.symm
      rw [← neg_sub] at back
      refine ⟨_,compareDiffers differ,back,?_,?_⟩
      · rw [stop,here,signedZero.mpr rfl,zero_sub,neg_eq_zero,signedZero]
        simp [nonzero]
      · have other : signed c ≠ 0 := fun same => nonzero (signedZero.mp same)
        rw [stop,here,signedZero.mpr rfl,zero_sub]
        simp [signedText,List.cons_lt_cons_iff,other]
    | cons d t =>
      obtain ⟨here',nonzero',rest'⟩ := terminatedHead second
      by_cases same : c = d
      · subst same
        obtain ⟨r,there,back,equal,less⟩ := ih rest rest'
        have pass : ∀ x y, m x = c → m y = c → compareBody m (x,y) = .inl (x+1,y+1) := by
          intro x y hx hy
          simp [compareBody,hx,hy,nonzero]
        refine ⟨r,.goOn (pass a b here here') there,.goOn (pass b a here' here) back,?_,?_⟩
        · rw [equal,List.cons.injEq,eq_self_iff_true,true_and]
        · rw [less]
          simp [signedText]
      · have differ : m a ≠ m b := by rw [here,here']; exact same
        have back := compareDiffers differ.symm
        rw [← neg_sub] at back
        have other : signed c ≠ signed d := fun equal => same (signedEqual.mp equal)
        refine ⟨_,compareDiffers differ,back,?_,?_⟩
        · rw [here,here',sub_eq_zero,signedEqual,List.cons.injEq]
          exact ⟨fun equal => absurd equal.symm same,fun equal => absurd equal.1 same⟩
        · rw [here,here',sub_pos]
          simp [signedText,List.cons_lt_cons_iff,other]

theorem stringsOrdered (first : Terminated m a s) (second : Terminated m b t) :
    (∃ least, ∀ fuel, least ≤ fuel → stringLength fuel m a = some s.length) ∧
    ∃ d, (∃ least, ∀ fuel, least ≤ fuel → stringCompare fuel m a b = some d ∧ stringCompare fuel m b a = some (-d)) ∧
      (d = 0 ↔ s = t) ∧ (0 < d ↔ signedText s < signedText t) := by
  have counted := lengthEnds first (n := 0)
  rw [Nat.zero_add] at counted
  obtain ⟨d,there,back,equal,less⟩ := compareEnds first second
  obtain ⟨least,forward⟩ := loopOfEnds there
  obtain ⟨least',backward⟩ := loopOfEnds back
  exact ⟨loopOfEnds counted,d,⟨max least least',fun fuel enough => ⟨forward fuel (by omega),backward fuel (by omega)⟩⟩,equal,less⟩

end

def twoStrings : Memory := fun a => if a = 0 then 97 else if a = 1 then 98 else if a = 8 then 0xC3 else if a = 9 then 0xA9 else 0

theorem stringsOrderedTwo : ∃ d, (∃ fuel, stringCompare fuel twoStrings 0 8 = some d) ∧ ¬ 0 < d ∧ d ≠ 0 := by
  have first : Terminated twoStrings 0 [97,98] := ⟨rfl,by simp,rfl⟩
  have second : Terminated twoStrings 8 [0xC3,0xA9] := ⟨rfl,by simp,rfl⟩
  obtain ⟨_,d,⟨least,returns⟩,equal,less⟩ := stringsOrdered first second
  exact ⟨d,⟨least,(returns least (Nat.le_refl _)).1⟩,mt less.mp (by decide),mt equal.mp (by decide)⟩

/-! Ranges of bytes. -/

section
variable {m : Memory} {a b size : Nat} {value : UInt8}

theorem setBytes : (∀ x, ¬ (a ≤ x ∧ x < a+size) → memorySet m a size value x = m x) ∧
    ∀ i < size, memorySet m a size value (a+i) = value := by
  refine @countRule Memory size (fun i m => Function.update m (a+i) value) m
    (fun n t => (∀ x, ¬ (a ≤ x ∧ x < a+n) → t x = m x) ∧ ∀ i < n, t (a+i) = value) ?_ ?_
  · exact ⟨fun _ _ => rfl,fun i none => absurd none (Nat.not_lt_zero i)⟩
  · rintro n t inside ⟨others,set⟩
    refine ⟨fun x outside => ?_,fun i less => ?_⟩
    · rw [Function.update_of_ne (by omega)]
      exact others x (by omega)
    · by_cases this : i = n
      · subst this
        exact Function.update_self _ _ _
      · rw [Function.update_of_ne (by omega)]
        exact set i (by omega)

theorem memoryCompareEnds (m : Memory) (size k i a b : Nat) (left : i+k = size) :
    Ends (memoryCompareBody m size) ⟨i,a,b⟩ (if loadBytes m a k = loadBytes m b k then 1 else 0) := by
  induction k generalizing i a b with
  | zero =>
    refine .leave ?_
    unfold memoryCompareBody
    rw [if_neg (by dsimp only; omega)]
    rfl
  | succ k ih =>
    have inside : i < size := by omega
    by_cases same : m a = m b
    · have pass : memoryCompareBody m size ⟨i,a,b⟩ = .inl ⟨i+1,a+1,b+1⟩ := by simp [memoryCompareBody,inside,same]
      have later := ih (i+1) (a+1) (b+1) (by omega)
      simp only [loadBytes,same,List.cons.injEq,true_and]
      exact .goOn pass later
    · have different : ¬ loadBytes m a (k+1) = loadBytes m b (k+1) := fun equal => same (List.cons.inj equal).1
      rw [if_neg different]
      exact .leave (by simp [memoryCompareBody,inside,same])

theorem rangesCompared (m : Memory) (a b size : Nat) :
    (∃ least, ∀ fuel, least ≤ fuel → memoryCompare fuel m a b size =
      some (if loadBytes m a size = loadBytes m b size then 1 else 0)) ∧
    (a+size ≤ b ∨ b+size ≤ a → ∃ least, ∀ fuel, least ≤ fuel → memoryCompare fuel (Heap.memoryCopy m a b size) a b size = some 1) ∧
    ∀ value, ∃ least, ∀ fuel, least ≤ fuel →
      memoryCompare fuel (memorySet (memorySet m a size value) b size value) a b size = some 1 := by
  have compared : ∀ m, ∃ least, ∀ fuel, least ≤ fuel → memoryCompare fuel m a b size =
      some (if loadBytes m a size = loadBytes m b size then 1 else 0) :=
    fun m => loopOfEnds (memoryCompareEnds m size size 0 a b (Nat.zero_add _))
  have equal : ∀ m : Memory, (∀ i < size, m (a+i) = m (b+i)) → loadBytes m a size = loadBytes m b size := by
    intro m same
    refine List.ext_getElem? fun i => ?_
    by_cases inside : i < size
    · rw [loadBytesGet inside,loadBytesGet inside,same i inside]
    · rw [List.getElem?_eq_none (by rw [loadBytesLength]; omega),List.getElem?_eq_none (by rw [loadBytesLength]; omega)]
  refine ⟨compared m,fun apart => ?_,fun value => ?_⟩
  · obtain ⟨outside,copied⟩ := @Heap.memoryCopySpec m a b size (size : Int) (by omega)
    have same := equal (Heap.memoryCopy m a b size) fun i inside => by
      rw [copied i inside (by omega)]
      exact outside a size (by omega) (a+i) (by omega) (by omega)
    have returns := compared (Heap.memoryCopy m a b size)
    rwa [if_pos same] at returns
  · have same := equal (memorySet (memorySet m a size value) b size value) fun i inside => by
      rw [(@setBytes (memorySet m a size value) b size value).2 i inside]
      by_cases meets : b ≤ a+i ∧ a+i < b+size
      · have there := (@setBytes (memorySet m a size value) b size value).2 (a+i-b) (by omega)
        rwa [show b + (a+i-b) = a+i by omega] at there
      · rw [(@setBytes (memorySet m a size value) b size value).1 _ meets]
        exact (@setBytes m a size value).2 i inside
    have returns := compared (memorySet (memorySet m a size value) b size value)
    rwa [if_pos same] at returns

end

end Kokos.Comparisons

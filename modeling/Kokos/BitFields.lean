import Kokos.ByteMemory
import Mathlib.Tactic.Ring

/-! Bit fields of a number, as a packed struct lays them out from the lowest bit up, and
numbers of any size that lie in memory little-endian. -/
namespace Kokos.BitFields
open ByteMemory

def getField (x start width : Nat) : Nat := x / 2^start % 2^width

def setField (x start width v : Nat) : Nat := x % 2^start + 2^start*(v % 2^width + 2^width*(x / 2^(start+width)))

variable {x v s w s' w' n : Nat}

theorem fieldBound : getField x s w < 2^w := Nat.mod_lt _ (Nat.two_pow_pos w)

theorem setAbove : setField x s w v / 2^s = v % 2^w + 2^w*(x / 2^(s+w)) := by
  unfold setField
  rw [Nat.add_mul_div_left _ _ (Nat.two_pow_pos s),Nat.div_eq_of_lt (Nat.mod_lt _ (Nat.two_pow_pos s)),Nat.zero_add]

theorem getSet : getField (setField x s w v) s w = v % 2^w := by
  unfold getField
  rw [setAbove,Nat.add_mul_mod_self_left,Nat.mod_mod]

theorem fieldLow (inside : s+w ≤ n) : getField (x % 2^n) s w = getField x s w := by
  unfold getField
  have divides : 2^s*2^w ∣ 2^n := by
    rw [← Nat.pow_add]
    exact Nat.pow_dvd_pow 2 inside
  rw [← Nat.mod_mul_right_div_self,← Nat.mod_mul_right_div_self x,Nat.mod_mod_of_dvd _ divides]

theorem fieldHigh (past : n ≤ s) : getField x s w = getField (x / 2^n) (s-n) w := by
  unfold getField
  rw [Nat.div_div_eq_div_mul,← Nat.pow_add,Nat.add_sub_cancel' past]

theorem setLow : setField x s w v % 2^s = x % 2^s := by
  unfold setField
  rw [Nat.add_mul_mod_self_left,Nat.mod_mod]

theorem setHigh : setField x s w v / 2^(s+w) = x / 2^(s+w) := by
  rw [Nat.pow_add,← Nat.div_div_eq_div_mul,setAbove,Nat.add_mul_div_left _ _ (Nat.two_pow_pos w),
    Nat.div_eq_of_lt (Nat.mod_lt _ (Nat.two_pow_pos w)),Nat.zero_add,Nat.pow_add]

theorem getOther (apart : s'+w' ≤ s ∨ s+w ≤ s') : getField (setField x s w v) s' w' = getField x s' w' := by
  rcases apart with below | above
  · rw [← fieldLow below,setLow,fieldLow below]
  · rw [fieldHigh above,setHigh,← fieldHigh above]

theorem setBound (inside : s+w ≤ n) (bound : x < 2^n) : setField x s w v < 2^n := by
  have rest : x / 2^(s+w) < 2^(n-(s+w)) := by
    refine Nat.div_lt_of_lt_mul ?_
    rwa [← Nat.pow_add,Nat.add_sub_cancel' inside]
  have top : setField x s w v / 2^(s+w) < 2^(n-(s+w)) := by rwa [setHigh]
  have whole := (Nat.div_lt_iff_lt_mul (Nat.two_pow_pos (s+w))).mp top
  rwa [← Nat.pow_add,Nat.sub_add_cancel inside] at whole

structure Field where
  start : Nat
  width : Nat
  deriving DecidableEq

def Field.get (f : Field) (x : Nat) : Nat := getField x f.start f.width
def Field.set (f : Field) (v x : Nat) : Nat := setField x f.start f.width v

def Apart (f g : Field) : Prop := f.start+f.width ≤ g.start ∨ g.start+g.width ≤ f.start

instance (f g : Field) : Decidable (Apart f g) := by
  unfold Apart; infer_instance

theorem getSame (f : Field) : f.get (f.set v x) = v % 2^f.width := getSet

theorem getApart {f g : Field} (apart : Apart f g) : g.get (f.set v x) = g.get x := getOther (Or.symm apart)

theorem setInside (f : Field) (inside : f.start+f.width ≤ n) (bound : x < 2^n) : f.set v x < 2^n := setBound inside bound

theorem getZero (f : Field) : f.get 0 = 0 := by
  unfold Field.get getField
  rw [Nat.zero_div,Nat.zero_mod]

def assign (fields : List (Field × Nat)) (x : Nat) : Nat := fields.foldl (fun x f => f.1.set f.2 x) x

theorem assignBound {fields : List (Field × Nat)} (inside : ∀ f ∈ fields, f.1.start+f.1.width ≤ n) (bound : x < 2^n) :
    assign fields x < 2^n := by
  induction fields generalizing x with
  | nil => exact bound
  | cons f fields ih =>
    exact ih (fun g member => inside g (List.mem_cons_of_mem _ member)) (setInside f.1 (inside f List.mem_cons_self) bound)

theorem getAssign {fields : List (Field × Nat)} {g : Field} (apart : ∀ f ∈ fields, f.1 = g ∨ Apart f.1 g) :
    g.get (assign fields x) = fields.foldl (fun v f => if f.1 = g then f.2 % 2^g.width else v) (g.get x) := by
  induction fields generalizing x with
  | nil => rfl
  | cons f fields ih =>
    have first : g.get (f.1.set f.2 x) = if f.1 = g then f.2 % 2^g.width else g.get x := by
      by_cases same : f.1 = g
      · rw [if_pos same,← same,getSame]
      · rw [if_neg same,getApart ((apart f List.mem_cons_self).resolve_left same)]
    exact (ih fun h member => apart h (List.mem_cons_of_mem _ member)).trans (by rw [first]; rfl)

/-! Numbers in memory. -/

def readBytes (m : Memory) : Nat → Nat → Nat
  | _, 0 => 0
  | a, n+1 => (m a).toNat + 256*readBytes m (a+1) n

def writeBytes (m : Memory) (a n v : Nat) : Memory :=
  fun x => if a ≤ x ∧ x < a+n then UInt8.ofNat (v / 256^(x-a)) else m x

theorem readDigits {m : Memory} {a : Nat} (digits : ∀ k, k < n → (m (a+k)).toNat = v / 256^k % 256) :
    readBytes m a n = v % 256^n := by
  induction n generalizing a v with
  | zero =>
    rw [Nat.pow_zero,Nat.mod_one]
    rfl
  | succ n ih =>
    have first := digits 0 (Nat.succ_pos n)
    have rest : readBytes m (a+1) n = v / 256 % 256^n := ih fun k less => by
      have digit := digits (k+1) (Nat.succ_lt_succ less)
      rw [Nat.pow_succ,Nat.mul_comm,← Nat.div_div_eq_div_mul] at digit
      rwa [Nat.add_right_comm,Nat.add_assoc]
    rw [Nat.add_zero,Nat.pow_zero,Nat.div_one] at first
    rw [readBytes,first,rest,Nat.pow_succ,Nat.mul_comm (256^n),Nat.mod_mul]

theorem readBytesBound (m : Memory) (a n : Nat) : readBytes m a n < 256^n := by
  induction n generalizing a with
  | zero => exact Nat.one_pos
  | succ n ih =>
    have first := (m a).toNat_lt
    have rest := ih (a+1)
    rw [readBytes,Nat.pow_succ]
    omega

theorem readWriteBytes (m : Memory) (a : Nat) (bound : v < 256^n) : readBytes (writeBytes m a n v) a n = v := by
  have digits : ∀ k, k < n → (writeBytes m a n v (a+k)).toNat = v / 256^k % 256 := by
    intro k less
    have here : a ≤ a+k ∧ a+k < a+n := by omega
    simp [writeBytes,here]
  rw [readDigits digits,Nat.mod_eq_of_lt bound]

theorem readBytesCongr {m m' : Memory} {a size b : Nat} (same : SameBytes m m' a size) (inside : a ≤ b ∧ b+n ≤ a+size) :
    readBytes m' b n = readBytes m b n := by
  induction n generalizing b with
  | zero => rfl
  | succ n ih => rw [readBytes,readBytes,same b (by omega) (by omega),ih (by omega)]

theorem writeBytesOther (m : Memory) {a b size : Nat} (n v : Nat) (apart : b+size ≤ a ∨ a+n ≤ b) :
    SameBytes m (writeBytes m a n v) b size := by
  intro x low high
  have outside : ¬ (a ≤ x ∧ x < a+n) := by omega
  simp only [writeBytes,if_neg outside]

theorem readBytesJoin (m : Memory) (a n k : Nat) : readBytes m a (n+k) = readBytes m a n + 256^n*readBytes m (a+n) k := by
  induction n generalizing a with
  | zero => simp [readBytes]
  | succ n ih =>
    rw [Nat.add_right_comm n 1 k,readBytes,ih,readBytes,Nat.add_right_comm a 1 n,Nat.add_assoc a n 1,Nat.pow_succ]
    ring

theorem readWriteApart (m : Memory) {a b k : Nat} (apart : b+k ≤ a ∨ a+n ≤ b) : readBytes (writeBytes m a n v) b k = readBytes m b k :=
  readBytesCongr (writeBytesOther m n v apart) ⟨Nat.le_refl _,Nat.le_refl _⟩

theorem readZeroBytes (m : Memory) {a size b : Nat} (inside : a ≤ b ∧ b+n ≤ a+size) : readBytes (zeroBytes m a size) b n = 0 := by
  have digits : ∀ k, k < n → (zeroBytes m a size (b+k)).toNat = 0 / 256^k % 256 := by
    intro k less
    have here : a ≤ b+k ∧ b+k < a+size := by omega
    rw [Nat.zero_div,Nat.zero_mod]
    simp [zeroBytes,here]
  rw [readDigits digits,Nat.zero_mod]

theorem readZeroApart (m : Memory) {a size b : Nat} (apart : b+n ≤ a ∨ a+size ≤ b) :
    readBytes (zeroBytes m a size) b n = readBytes m b n :=
  readBytesCongr (zeroBytesOther m apart) ⟨Nat.le_refl _,Nat.le_refl _⟩

end Kokos.BitFields

import Mathlib.Order.Interval.Finset.Nat

/-! Bits of fixed-width words, as a bitmap uses them: the mask a narrow signed
shift leaves in a wide word, and the scan for the lowest clear bit. -/
namespace Kokos.WordBits

/-- `1 << bit` in `int`, converted to an unsigned 64-bit operand. The count is
taken mod 32 by the shift instruction and the sign bit fills the upper half. -/
def intMask (bit : Nat) : BitVec 64 := ((1#32) <<< (bit % 32)).signExtend 64

def intMaskNot (bit : Nat) : BitVec 64 := (~~~((1#32) <<< (bit % 32))).signExtend 64

theorem intMaskBit (bit i : Nat) (inside : i < 64) :
    (intMask bit).getLsbD i = if bit % 32 = 31 then decide (31 ≤ i) else decide (i = bit % 32) := by
  have table : ∀ b : Fin 32, ∀ j : Fin 64, (((1#32) <<< b.val).signExtend 64).getLsbD j.val =
      if b.val = 31 then decide (31 ≤ j.val) else decide (j.val = b.val) := by decide +kernel
  exact table ⟨bit % 32, Nat.mod_lt _ (by decide)⟩ ⟨i, inside⟩

theorem intMaskNotBit (bit i : Nat) (inside : i < 64) :
    (intMaskNot bit).getLsbD i = !(intMask bit).getLsbD i := by
  have table : ∀ b : Fin 32, ∀ j : Fin 64, ((~~~((1#32) <<< b.val)).signExtend 64).getLsbD j.val =
      !(((1#32) <<< b.val).signExtend 64).getLsbD j.val := by decide +kernel
  exact table ⟨bit % 32, Nat.mod_lt _ (by decide)⟩ ⟨i, inside⟩

def scanOnes {w : Nat} : Nat → BitVec w → Nat → Nat
  | 0, _, bit => bit
  | fuel+1, bits, bit => if bits.getLsbD 0 then scanOnes fuel (bits >>> 1) (bit+1) else bit

theorem scanOnesSpec {w : Nat} (fuel : Nat) (bits : BitVec w) (bit : Nat) :
    ∃ n, scanOnes fuel bits bit = bit+n ∧ n ≤ fuel ∧ (∀ i < n, bits.getLsbD i = true) ∧
      (n < fuel → bits.getLsbD n = false) := by
  induction fuel generalizing bits bit with
  | zero => exact ⟨0,rfl,Nat.le_refl _,by simp,by simp⟩
  | succ fuel ih =>
    cases low : bits.getLsbD 0 with
    | false => exact ⟨0,by simp [scanOnes,low],by omega,by simp,fun _ => low⟩
    | true =>
      obtain ⟨n,value,bound,ones,zero⟩ := ih (bits >>> 1) (bit+1)
      refine ⟨n+1,?_,by omega,?_,?_⟩
      · simp only [scanOnes,low,if_true,value]; omega
      · intro i hi
        cases i with
        | zero => exact low
        | succ i => simpa [Nat.add_comm] using ones i (by omega)
      · intro hn
        simpa [Nat.add_comm] using zero (by omega)

theorem allOnesOfBits {w : Nat} (bits : BitVec w) (ones : ∀ i < w, bits.getLsbD i = true) :
    bits = BitVec.allOnes w := by
  apply BitVec.eq_of_getLsbD_eq
  intro i hi
  simp [ones i hi,hi]

theorem scanOnesZero {w : Nat} (bits : BitVec w) (some : bits ≠ BitVec.allOnes w) :
    scanOnes w bits 0 < w ∧ bits.getLsbD (scanOnes w bits 0) = false ∧
      ∀ i < scanOnes w bits 0, bits.getLsbD i = true := by
  obtain ⟨n,value,bound,ones,zero⟩ := scanOnesSpec w bits 0
  simp only [Nat.zero_add] at value
  have less : n < w := by
    by_contra full
    exact some (allOnesOfBits bits (fun i hi => ones i (by omega)))
  rw [value]
  exact ⟨less,zero less,ones⟩

theorem scanOnesEnds {w fuel : Nat} (bits : BitVec w) (some : bits ≠ BitVec.allOnes w) (enough : w ≤ fuel) :
    scanOnes fuel bits 0 = scanOnes w bits 0 := by
  obtain ⟨less,zero,ones⟩ := scanOnesZero bits some
  obtain ⟨n,value,_,ones',zero'⟩ := scanOnesSpec fuel bits 0
  rw [Nat.zero_add] at value
  rw [value]
  rcases Nat.lt_trichotomy n (scanOnes w bits 0) with before | same | after
  · have clear := zero' (by omega)
    rw [ones n before] at clear
    cases clear
  · exact same
  · rw [ones' _ after] at zero
    cases zero

theorem andZeroIff {w : Nat} (a b : BitVec w) :
    a &&& b = 0#w ↔ ∀ i < w, a.getLsbD i = true → b.getLsbD i = false := by
  constructor
  · intro zero i hi ha
    have h := congrArg (fun x => x.getLsbD i) zero
    simpa [ha] using h
  · intro h
    apply BitVec.eq_of_getLsbD_eq
    intro i hi
    cases ha : a.getLsbD i with
    | false => simp [ha]
    | true => simp [ha,h i hi ha]

/-! The same for numbers: a run of mask bits cuts a field out of a word. -/

theorem andField (x s w : Nat) : x &&& (2^(s+w) - 2^s) = x / 2^s % 2^w * 2^s := by
  have mask : 2^(s+w) - 2^s = (2^w - 1) <<< s := by
    rw [Nat.shiftLeft_eq,Nat.sub_mul,Nat.pow_add,Nat.mul_comm,Nat.one_mul]
  have field : x / 2^s % 2^w * 2^s = ((x >>> s) % 2^w) <<< s := by
    rw [Nat.shiftLeft_eq,Nat.shiftRight_eq_div_pow]
  rw [mask,field]
  apply Nat.eq_of_testBit_eq
  intro i
  simp only [Nat.testBit_and,Nat.testBit_shiftLeft,Nat.testBit_mod_two_pow,Nat.testBit_shiftRight,
    Nat.testBit_two_pow_sub_one]
  by_cases low : s ≤ i
  · simp [low,Bool.and_comm]
  · simp [low]

theorem orAdd {b s : Nat} (a : Nat) (small : b < 2^s) : 2^s*a ||| b = 2^s*a + b :=
  (Nat.two_pow_add_eq_or_of_lt small a).symm

theorem orAddPlaced {b s : Nat} (a : Nat) (small : b < 2^s) : a*2^s ||| b = a*2^s + b := by
  rw [Nat.mul_comm]
  exact orAdd a small

end Kokos.WordBits

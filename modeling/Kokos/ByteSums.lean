import Kokos.CountedLoops
import Mathlib.Algebra.BigOperators.Group.Finset.Basic

/-! Sums of bytes, as loops over machine integers compute them, and what it tells of some
bytes that their sum is a multiple of 256. -/
namespace Kokos.ByteSums
open CountedLoops

def byteSum (f : Nat → UInt8) (n : Nat) : Nat := ∑ i ∈ Finset.range n, (f i).toNat

variable {f f' : Nat → UInt8} {n k : Nat}

theorem sumBytes (f : Nat → UInt8) (n : Nat) : (countUp n (fun i sum => sum + f i) 0).toNat = byteSum f n % 256 := by
  induction n with
  | zero => rfl
  | succ n ih =>
    unfold byteSum at ih ⊢
    rw [Finset.sum_range_succ,countUp,UInt8.toNat_add,ih,Nat.mod_add_mod]

theorem sumWords (f : Nat → UInt8) (n : Nat) :
    (countUp n (fun i sum => sum + (f i).toUInt32) 0).toNat = byteSum f n % 2^32 := by
  induction n with
  | zero => rfl
  | succ n ih =>
    unfold byteSum at ih ⊢
    rw [Finset.sum_range_succ,countUp,UInt32.toNat_add,ih,Nat.mod_add_mod,UInt8.toNat_toUInt32]

theorem sumApart (inside : k < n) (f : Nat → UInt8) :
    byteSum f n = (f k).toNat + ∑ i ∈ (Finset.range n).erase k, (f i).toNat :=
  (Finset.add_sum_erase _ _ (Finset.mem_range.mpr inside)).symm

theorem sumChanged (inside : k < n) (same : ∀ i < n, i ≠ k → f' i = f i) :
    byteSum f' n + (f k).toNat = byteSum f n + (f' k).toNat := by
  have others : ∑ i ∈ (Finset.range n).erase k, (f' i).toNat = ∑ i ∈ (Finset.range n).erase k, (f i).toNat := by
    refine Finset.sum_congr rfl fun i member => ?_
    rw [same i (Finset.mem_range.mp (Finset.mem_of_mem_erase member)) (Finset.ne_of_mem_erase member)]
  rw [sumApart inside f,sumApart inside f',others]
  omega

theorem changeFound (inside : k < n) (same : ∀ i < n, i ≠ k → f' i = f i) (whole : byteSum f n % 256 = 0)
    (whole' : byteSum f' n % 256 = 0) : f' k = f k := by
  have changed := sumChanged inside same
  have byte := (f k).toNat_lt
  have byte' := (f' k).toNat_lt
  exact UInt8.toNat_inj.mp (by omega)

end Kokos.ByteSums

import Mathlib.Order.Interval.Finset.Nat
import Kokos.WordBits

/-! A table of 64-bit words as a set of numbered bits, and the bits that one table
has gained over another. -/
namespace Kokos.BitTables
open WordBits

abbrev Table := Nat → BitVec 64

def bitAt (t : Table) (p : Nat) : Bool := (t (p/64)).getLsbD (p%64)

def gained (n : Nat) (t u : Table) : Finset Nat :=
  (Finset.range n).filter fun p => bitAt t p = false ∧ bitAt u p = true

def Grown (t u : Table) : Prop := ∀ p, bitAt t p = true → bitAt u p = true

variable {t u v : Table} {n p : Nat}

theorem bitPlace (t : Table) {w j : Nat} (inside : j < 64) : bitAt t (64*w+j) = (t w).getLsbD j := by
  unfold bitAt
  rw [show (64*w+j)/64 = w by omega,show (64*w+j)%64 = j by omega]

theorem meetsIff (x mask : BitVec 64) : x &&& mask ≠ 0 ↔ ∃ j < 64, x.getLsbD j = true ∧ mask.getLsbD j = true := by
  have clear := andZeroIff x mask
  constructor
  · intro some
    by_contra none
    refine some (clear.mpr fun i inside here => ?_)
    cases there : mask.getLsbD i with
    | false => rfl
    | true => exact absurd ⟨i,inside,here,there⟩ none
  · rintro ⟨j,inside,here,there⟩ zero
    rw [clear.mp zero j inside here] at there
    contradiction

theorem grownRefl (t : Table) : Grown t t := fun _ h => h

theorem grownTrans (first : Grown t u) (second : Grown u v) : Grown t v := fun p h => second p (first p h)

theorem gainedSelf (n : Nat) (t : Table) : gained n t t = ∅ := by
  refine Finset.filter_eq_empty_iff.mpr fun p _ both => ?_
  rw [both.1] at both
  exact Bool.noConfusion both.2

theorem gainedMember : p ∈ gained n t u ↔ p < n ∧ bitAt t p = false ∧ bitAt u p = true := by
  unfold gained
  rw [Finset.mem_filter,Finset.mem_range]

theorem gainedCard (first : Grown t u) (second : Grown u v) :
    (gained n t v).card = (gained n t u).card + (gained n u v).card := by
  have apart : Disjoint (gained n t u) (gained n u v) := by
    refine Finset.disjoint_left.mpr fun p left right => ?_
    have set := (gainedMember.mp left).2.2
    rw [(gainedMember.mp right).2.1] at set
    contradiction
  rw [← Finset.card_union_of_disjoint apart]
  congr 1
  ext p
  simp only [Finset.mem_union,gainedMember]
  constructor
  · rintro ⟨inside,clear,set⟩
    cases mid : bitAt u p with
    | false => exact Or.inr ⟨inside,rfl,set⟩
    | true => exact Or.inl ⟨inside,clear,rfl⟩
  · rintro (⟨inside,clear,set⟩ | ⟨inside,clear,set⟩)
    · exact ⟨inside,clear,second p set⟩
    · refine ⟨inside,?_,set⟩
      cases before : bitAt t p with
      | false => rfl
      | true =>
        rw [first p before] at clear
        contradiction

end Kokos.BitTables

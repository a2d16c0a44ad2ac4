import Kokos.PagingRanges
import Kokos.PagingCounter

/-! Which translations paging_unmap removes. It rounds its range up to the size of the
page at its start, and clears whatever lies in that range. -/
namespace Kokos.Paging
open BudgetedCalls RadixTables

section
variable {σ : Type}

def SamePage (E : Nat → Nat → Nat) (a b : Nat) : Prop :=
  ∃ e ≤ 3, Leaf shape E 3 (pageNumber a) e ∧ numberAt a e = numberAt b e

def EndsOnPage (root : Nat) (s : Machine σ) (target bytes : Nat) : Prop :=
  ∀ d ≤ 3, Leaf shape (s.entries root) 3 (pageNumber target) d → ∀ k, bytes ≤ k → k < blocks d bytes * span d →
    target % 2^48 + k < 2^48 → ∀ e ≤ 3, Leaf shape (s.entries root) 3 (pageNumber (target+k)) e → k - (target+k) % span e < bytes

theorem spanDivides {d e : Nat} (depth : d ≤ e) (low : e ≤ 3) : span e ∣ span d := by
  unfold span
  refine Nat.mul_dvd_mul_left _ (Nat.pow_dvd_pow _ (by omega))

theorem pageNumberLow (a : Nat) : pageNumber (a % 2^48) = pageNumber a := by
  unfold pageNumber
  omega

theorem pageStart {d e target a k : Nat} (depth : d ≤ e) (low : e ≤ 3) (aligned : target % span d = 0)
    (here : a % 2^48 = target % 2^48 + k) :
    (target+k) % span e ≤ k ∧ numberAt a e = numberAt (target + (k - (target+k) % span e)) e := by
  have whole : span e ∣ target := Nat.dvd_trans (spanDivides depth low) (Nat.dvd_of_mod_eq_zero aligned)
  have offset : (target+k) % span e = k % span e := by
    obtain ⟨q,rfl⟩ := whole
    rw [Nat.mul_add_mod]
  have first : k - k % span e = span e * (k / span e) := by
    have parts := Nat.div_add_mod k (span e)
    omega
  rw [offset]
  have down : k - k % span e ≤ k := Nat.sub_le _ _
  have inside : (target + (k - k % span e)) % 2^48 = target % 2^48 + (k - k % span e) := by
    have bound := Nat.mod_lt a (show 0 < 2^48 by decide)
    omega
  refine ⟨Nat.mod_le _ _,?_⟩
  obtain ⟨q,start⟩ := (Nat.dvd_mod_iff (spanSpace low)).mpr whole
  have positive := spanPositive e
  rw [numberLow,numberLow,here,inside,first,start,Nat.mul_add_div positive,← Nat.mul_add,Nat.mul_div_cancel_left _ positive]

theorem spaceOffset {target a k : Nat} (here : a % 2^48 = target % 2^48 + k) : pageNumber (target+k) = pageNumber a := by
  have bound := Nat.mod_lt a (show 0 < 2^48 by decide)
  rw [← pageNumberLow,← pageNumberLow a,here]
  congr 1
  omega

theorem rangeOffset {d target a m : Nat} (depth : d ≤ 3) (aligned : target % span d = 0)
    (low : numberAt target d ≤ numberAt a d) (high : numberAt a d < numberAt target d + m) :
    ∃ k < m * span d, a % 2^48 = target % 2^48 + k := by
  have positive := spanPositive d
  obtain ⟨q,start⟩ := (Nat.dvd_mod_iff (spanSpace depth)).mpr (Nat.dvd_of_mod_eq_zero aligned)
  rw [numberLow,numberLow,start,Nat.mul_div_cancel_left _ positive] at low high
  have above := (Nat.le_div_iff_mul_le positive).mp low
  have below := (Nat.div_lt_iff_lt_mul positive).mp high
  rw [Nat.mul_comm] at above
  rw [Nat.add_mul,Nat.mul_comm q] at below
  exact ⟨a % 2^48 - span d * q,by omega,by omega⟩

variable [PageAllocator σ] {root fuel target bytes v d : Nat} {start s s' : Machine σ} {ok : Bool}

theorem removedInRange (depth : d ≤ 3) (leaf : Leaf shape (s.entries root) 3 (pageNumber target) d) (aligned : target % span d = 0)
    (orderly : Orderly root s (.unmap target bytes)) (ends : EndsOnPage root s target bytes)
    (outcome : UnmapOutcome root d (numberAt target d) bytes s.world s'.world ok) {a : Nat}
    (changed : s'.translate root a ≠ s.translate root a) : ∃ k < bytes, SamePage (s.entries root) a (target+k) := by
  obtain ⟨done,val,c,c',looped⟩ := outcome.looped
  have few := looped.few
  have grounded := entriesGrounded s.world.memory root
  have grounded' := entriesGrounded s'.world.memory root
  unfold Machine.translate at changed
  rw [translation,translation] at changed
  have inside : numberAt target d ≤ numberAt a d ∧ numberAt a d < numberAt target d + done := by
    by_contra outside
    exact changed (resolveOutside grounded grounded' looped.filled depth (by omega)).1
  have gone : ¬ Mapped (entries s'.world.memory root) a := fun mapped =>
    changed (resolveErased grounded grounded' looped.filled depth (fun j hj => looped.values j hj) mapped).2
  have was : Mapped (s.entries root) a := by
    by_contra none
    exact changed ((resolveNone gone).trans (resolveNone none).symm)
  obtain ⟨e,low,page⟩ := was
  have deep : d ≤ e := by
    by_contra above
    obtain ⟨j,number⟩ := Nat.exists_eq_add_of_le inside.1
    have clear := clearAhead leaf (orderly d depth leaf aligned) (show j ≤ blocks d bytes by omega)
      (by rw [← number]; exact overBound a d depth) fun i first less => looped.arrived i first (by omega)
    rw [← number] at clear
    exact clearNoLeaf clear depth (by omega) page
  obtain ⟨k,far,here⟩ := rangeOffset depth aligned inside.1 (show numberAt a d < numberAt target d + blocks d bytes by omega)
  obtain ⟨within,same⟩ := pageStart deep low aligned here
  refine ⟨k - (target+k) % span e,?_,e,low,page,same⟩
  by_cases short : k < bytes
  · omega
  · have space := Nat.mod_lt a (show 0 < 2^48 by decide)
    refine ends d depth leaf k (by omega) far (by omega) e low ?_
    rw [spaceOffset here]
    exact page

theorem removedWhole (depth : d ≤ 3) (leaf : Leaf shape (s.entries root) 3 (pageNumber target) d) (aligned : target % span d = 0)
    (orderly : Orderly root s (.unmap target bytes)) (word : bytes < 2^64)
    (outcome : UnmapOutcome root d (numberAt target d) bytes s.world s'.world true) {k : Nat} (inside : k < bytes) :
    ¬ Mapped (s'.entries root) (target+k) := by
  obtain ⟨done,val,c,c',looped⟩ := outcome.looped
  obtain ⟨rfl,points,_⟩ := looped.goes rfl
  have room := pointsBound points
  obtain ⟨j,few,number⟩ := rangeNumber depth (alignedStart depth aligned) room (by omega) word inside
  have clear := clearAhead leaf (orderly d depth leaf aligned) (Nat.le_of_lt few) (by omega) fun i first less =>
    looped.arrived i first (by omega)
  rw [← number] at clear
  exact erasedUnmapped looped.filled depth (fun j hj => looped.values j hj) ⟨by omega,by omega⟩ clear

theorem unmapRemovesRange (sane : Sane root start) (run : Reached fuel (Orderly root) start s)
    (orderly : Orderly root s (.unmap target bytes)) (ends : EndsOnPage root s target bytes) (word : bytes < 2^64)
    (call : perform fuel s (.unmap target bytes) = .ok (v,s')) :
    (∀ a, s'.translate root a ≠ s.translate root a → ∃ k < bytes, SamePage (s.entries root) a (target+k)) ∧
      (v = 1 → ∀ k < bytes, ¬ Mapped (s'.entries root) (target+k)) := by
  have effect := performed (reachedSane (fun _ _ h => h) sane run) orderly call
  cases effect with
  | untouched result _ =>
    refine ⟨fun a changed => ?_,fun one => absurd one (by decide)⟩
    have shows : entries s'.world.memory root = entries s.world.memory root := result.2.1.shows
    unfold Machine.translate at changed
    rw [translation,translation,shows] at changed
    exact absurd rfl changed
  | @unmapped _ _ d ok depth leaf aligned result _ =>
    refine ⟨fun a changed => removedInRange depth leaf aligned orderly ends result changed,fun one k inside => ?_⟩
    cases ok with
    | false => exact absurd one (by decide)
    | true => exact removedWhole depth leaf aligned orderly word result inside

end

theorem unmapRemovesPage : ∃ s s', perform 1 (blank false) (.mapAt (.physical 0x50000) 0x3000 4096 2) = .ok (0x3000,s) ∧
    perform 1 s (.unmap 0x3000 4096) = .ok (1,s') ∧
    (∀ a, s'.translate 0x1000 a ≠ s.translate 0x1000 a → ∃ k < 4096, SamePage (s.entries 0x1000) a (0x3000+k)) ∧
    ∀ k < 4096, ¬ Mapped (s'.entries 0x1000) (0x3000+k) := by
  have runs : returns (perform 1 (blank false) (.mapAt (.physical 0x50000) 0x3000 4096 2)) (fun v s =>
      returns (perform 1 s (.unmap 0x3000 4096)) fun v' _ =>
        decide (v = 0x3000 ∧ v' = 1 ∧ s.entries 0x1000 3 3 ≠ 0 ∧ Clear shape (s.entries 0x1000) 3 4)) = true := by
    decide +kernel
  obtain ⟨v,s,first,rest⟩ := returnsOk runs
  obtain ⟨v',s',second,facts⟩ := returnsOk rest
  obtain ⟨rfl,rfl,there,clear4⟩ := of_decide_eq_true facts
  have leaf : Leaf shape (s.entries 0x1000) 3 3 3 := ⟨there,leafDepth _ (by decide)⟩
  have only : ∀ d ≤ 3, Leaf shape (s.entries 0x1000) 3 (pageNumber 0x3000) d → d = 3 :=
    fun d depth other => leafUnique (entriesGrounded _ _) depth (by decide) other leaf
  have orderly : Orderly 0x1000 s (.unmap 0x3000 4096) := by
    intro d depth other _ j low high _ _
    obtain rfl := only d depth other
    obtain rfl : j = 1 := Nat.le_antisymm high low
    exact clear4
  have ends : EndsOnPage 0x1000 s 0x3000 4096 := by
    intro d depth other k low high
    obtain rfl := only d depth other
    have rounded : blocks 3 4096 * span 3 = 4096 := by decide
    omega
  have removed := unmapRemovesRange (blankSane false) (.step .start blankOrderly first) orderly ends (by decide) second
  exact ⟨s,s',first,second,removed.1,removed.2 rfl⟩

theorem emptyUnmapRemovesPage : ∃ s s', Reached 1 (fun _ _ => True) (blank false) s ∧ s.translate 0x1000 0x1FF000 = 0x50000 ∧
    perform 1 s (.unmap 0x1FF000 0) = .ok (0,s') ∧
    ¬ ∀ a, s'.translate 0x1000 a ≠ s.translate 0x1000 a → ∃ k < 0, SamePage (s.entries 0x1000) a (0x1FF000+k) := by
  have runs : returns (perform 1 (blank false) (.mapAt (.physical 0x50000) 0x1FF000 4096 2)) (fun _ s =>
      returns (perform 1 s (.unmap 0x1FF000 0)) fun v' s' =>
        decide (v' = 0 ∧ s.translate 0x1000 0x1FF000 = 0x50000 ∧ s'.translate 0x1000 0x1FF000 = 0)) = true := by decide +kernel
  obtain ⟨v,s,first,rest⟩ := returnsOk runs
  obtain ⟨v',s',second,facts⟩ := returnsOk rest
  obtain ⟨rfl,before,after⟩ := of_decide_eq_true facts
  refine ⟨s,s',.step .start trivial first,before,second,fun kept => ?_⟩
  obtain ⟨k,none,_⟩ := kept 0x1FF000 (by rw [before,after]; decide)
  exact absurd none (Nat.not_lt_zero k)

end Kokos.Paging

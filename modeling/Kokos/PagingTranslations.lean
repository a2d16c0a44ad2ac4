import Kokos.PagingRuns

/-! What mapping calls leave of the translations that were there before. Only the
first entry of a range is tested, so the rest of the range has to be free; and a
call that fails in its loop, at the end of the address space, has already written. -/
namespace Kokos.Paging
open BudgetedCalls RadixTables

section
variable {σ : Type}

def Machine.translate (s : Machine σ) (root address : Nat) : Nat :=
  pagingGetPhysicalAddress s.world.memory root address

def RangeVacant (root : Nat) (s : Machine σ) (source : Source) (start bytes flags : Nat) : Prop :=
  Accepts s.world.hugepagesSupported (s.entries root) (depthOf flags) start source bytes flags →
    ∀ a, start ≤ numberAt a (depthOf flags) → numberAt a (depthOf flags) < start + blocks (depthOf flags) bytes →
      ¬ Mapped (s.entries root) a

def Vacant (root : Nat) (s : Machine σ) : Request → Prop
  | .map source bytes flags => ∀ start, StartsAt root s (.map source bytes flags) start →
      RangeVacant root s source start bytes flags
  | .mapAt source target bytes flags => RangeVacant root s source (numberAt target (depthOf flags)) bytes flags
  | .unmap _ _ => False

theorem rangeVacant {root : Nat} {s : Machine σ} {source : Source} {first bytes flags : Nat}
    (empty : ∀ j < blocks (depthOf flags) bytes, Clear shape (s.entries root) (depthOf flags) (first+j) ∧
      s.entries root (depthOf flags) (first+j) = 0) : RangeVacant root s source first bytes flags := by
  intro _ a low high
  obtain ⟨clear,zero⟩ := empty (numberAt a (depthOf flags) - first) (by omega)
  rw [show first + (numberAt a (depthOf flags) - first) = numberAt a (depthOf flags) by omega] at clear zero
  exact notMapped (entriesGrounded _ _) (depthCases flags).2 clear zero

theorem mappedOfTranslate {root a : Nat} {s : Machine σ} (nonzero : s.translate root a ≠ 0) : Mapped (s.entries root) a := by
  by_contra none
  unfold Machine.translate at nonzero
  rw [translation] at nonzero
  exact nonzero (resolveNone none)

variable [PageAllocator σ] {root fuel : Nat} {start s s' : Machine σ} {r : Request} {v : Nat}

theorem resultKeeps {source : Source} {first bytes flags done : Nat} {ok : Bool} {c c' : PagingContext} {val : Nat → Nat}
    (result : MapResult source root first bytes flags c s.world s'.world ok c' done val)
    (vacant : RangeVacant root s source first bytes flags) {a : Nat} (mapped : Mapped (s.entries root) a) :
    s'.translate root a = s.translate root a := by
  have outside : numberAt a (depthOf flags) < first ∨ first+done ≤ numberAt a (depthOf flags) := by
    by_contra inside
    have few := result.few
    have accepts := resultAccepted result (by omega)
    exact vacant accepts a (by omega) (by omega) mapped
  unfold Machine.translate
  rw [translation,translation]
  exact (resolveOutside (entriesGrounded _ _) (entriesGrounded _ _) result.filled (depthCases flags).2 outside).1

theorem mappingKeepsTranslations (sane : Sane root start) (run : Reached fuel (Orderly root) start s)
    (orderly : Orderly root s r) (vacant : Vacant root s r) (call : perform fuel s r = .ok (v,s')) {a : Nat}
    (mapped : Mapped (s.entries root) a) : s'.translate root a = s.translate root a := by
  have effect := performed (reachedSane (fun _ _ h => h) sane run) orderly call
  cases effect with
  | refused _ same => rw [same]
  | mapped starts result _ _ => exact resultKeeps result (vacant _ starts) mapped
  | mappedAt _ result _ _ => exact resultKeeps result vacant mapped
  | untouched _ _ => exact vacant.elim
  | unmapped _ _ _ _ _ => exact vacant.elim

def EndsInside (root : Nat) (s : Machine σ) (source : Source) (target bytes flags : Nat) : Prop :=
  Accepts s.world.hugepagesSupported (s.entries root) (depthOf flags) (numberAt target (depthOf flags)) source bytes flags →
    target % span (depthOf flags) = 0 → numberAt target (depthOf flags) + blocks (depthOf flags) bytes < 512^(depthOf flags + 1)

theorem failedMapAtChangesNothing {source : Source} {target bytes flags : Nat} (sane : Sane root start)
    (run : Reached fuel (Orderly root) start s) (orderly : Orderly root s (.mapAt source target bytes flags))
    (inside : EndsInside root s source target bytes flags) (nonzero : target ≠ 0)
    (call : perform fuel s (.mapAt source target bytes flags) = .ok (0,s')) :
    (∀ a, s'.translate root a = s.translate root a) ∧ s'.world.usedVirtualPages = s.world.usedVirtualPages := by
  have effect := performed (reachedSane (fun _ _ h => h) sane run) orderly call
  generalize value : (0 : Nat) = v at effect
  cases effect with
  | @mappedAt _ _ _ _ ok _ done _ _ result aligned _ =>
    have failed : ok = false := by
      cases ok with
      | false => rfl
      | true => exact absurd value.symm nonzero
    subst failed
    obtain rfl := resultNothing result fun some => inside (resultAccepted result some) (aligned some)
    refine ⟨fun a => ?_,result.counted⟩
    unfold Machine.translate
    rw [translation,translation]
    exact (resolveOutside (entriesGrounded _ _) (entriesGrounded _ _) result.filled (depthCases flags).2 (by omega)).1

end

theorem mappingKeepsNeighbour : ∃ s s', perform 1 (blank false) (.mapAt (.physical 0x50000) 0x3000 4096 2) = .ok (0x3000,s) ∧
    perform 1 s (.mapAt (.physical 0x60000) 0x2000 4096 2) = .ok (0x2000,s') ∧
    s.translate 0x1000 0x3000 = 0x50000 ∧ s'.translate 0x1000 0x3000 = 0x50000 := by
  have runs : returns (perform 1 (blank false) (.mapAt (.physical 0x50000) 0x3000 4096 2)) (fun v s =>
      returns (perform 1 s (.mapAt (.physical 0x60000) 0x2000 4096 2)) fun v' _ =>
        decide (v = 0x3000 ∧ v' = 0x2000 ∧ Walkable (s.entries 0x1000) 3 0x2000 ∧ Runway (s.entries 0x1000) 2 4096 2 ∧
          Clear shape (s.entries 0x1000) 3 2 ∧ s.entries 0x1000 3 2 = 0 ∧
          s.translate 0x1000 0x3000 = 0x50000)) = true := by decide +kernel
  obtain ⟨v,s,first,rest⟩ := returnsOk runs
  obtain ⟨v',s',second,facts⟩ := returnsOk rest
  obtain ⟨rfl,rfl,walkable,runway,clear2,zero2,value⟩ := of_decide_eq_true facts
  have vacant : RangeVacant 0x1000 s (.physical 0x60000) 2 4096 2 := rangeVacant fun j one => by
    obtain rfl : j = 0 := Nat.lt_one_iff.mp one
    exact ⟨clear2,zero2⟩
  have orderly : Orderly 0x1000 s (.mapAt (.physical 0x60000) 0x2000 4096 2) := orderlyAt _ walkable runway
  have kept := mappingKeepsTranslations (blankSane false) (.step .start blankOrderly first) orderly vacant second (mappedOfTranslate (a := 0x3000) (by rw [value]; decide))
  exact ⟨s,s',first,second,value,kept.trans value⟩

theorem mappingReplacesSecondPage : ∃ s s', Reached 1 (fun _ _ => True) (blank false) s ∧
    perform 1 s (.mapAt (.physical 0x100000) 0x2000 8192 2) = .ok (0x2000,s') ∧ has 2 flagReplace = false ∧
    Mapped (s.entries 0x1000) 0x3000 ∧ s.translate 0x1000 0x3000 = 0x50000 ∧ s'.translate 0x1000 0x3000 = 0x101000 := by
  have runs : returns (perform 1 (blank false) (.mapAt (.physical 0x50000) 0x3000 4096 2)) (fun _ s =>
      returns (perform 1 s (.mapAt (.physical 0x100000) 0x2000 8192 2)) fun v' s' =>
        decide (v' = 0x2000 ∧ s.translate 0x1000 0x3000 = 0x50000 ∧ s'.translate 0x1000 0x3000 = 0x101000)) = true := by
    decide +kernel
  obtain ⟨v,s,first,rest⟩ := returnsOk runs
  obtain ⟨v',s',second,facts⟩ := returnsOk rest
  obtain ⟨rfl,before,after⟩ := of_decide_eq_true facts
  exact ⟨s,s',.step .start trivial first,second,by decide,mappedOfTranslate (by rw [before]; decide),before,after⟩

theorem failedMapAtOccupied : ∃ s s', perform 1 (blank false) (.mapAt (.physical 0x50000) 0x3000 4096 2) = .ok (0x3000,s) ∧
    perform 1 s (.mapAt (.physical 0x60000) 0x3000 4096 2) = .ok (0,s') ∧
    (∀ a, s'.translate 0x1000 a = s.translate 0x1000 a) ∧ s'.world.usedVirtualPages = s.world.usedVirtualPages := by
  have runs : returns (perform 1 (blank false) (.mapAt (.physical 0x50000) 0x3000 4096 2)) (fun v s =>
      returns (perform 1 s (.mapAt (.physical 0x60000) 0x3000 4096 2)) fun v' _ =>
        decide (v = 0x3000 ∧ v' = 0 ∧ Walkable (s.entries 0x1000) 3 0x3000 ∧ Runway (s.entries 0x1000) 3 4096 2)) =
      true := by decide +kernel
  obtain ⟨v,s,first,rest⟩ := returnsOk runs
  obtain ⟨v',s',second,facts⟩ := returnsOk rest
  obtain ⟨rfl,rfl,walkable,runway⟩ := of_decide_eq_true facts
  have orderly : Orderly 0x1000 s (.mapAt (.physical 0x60000) 0x3000 4096 2) := orderlyAt _ walkable runway
  have inside : EndsInside 0x1000 s (.physical 0x60000) 0x3000 4096 2 := fun _ _ => by decide
  exact ⟨s,s',first,second,
    failedMapAtChangesNothing (blankSane false) (.step .start blankOrderly first) orderly inside (by decide) second⟩

theorem failedMapAtMapsLastPage : ∃ s', Reached 1 (fun _ _ => True) (blank false) (blank false) ∧
    perform 1 (blank false) (.mapAt (.physical 0x50000) 0xFFFFFFFFF000 4096 2) = .ok (0,s') ∧
    (blank false).translate 0x1000 0xFFFFFFFFF000 = 0 ∧ s'.translate 0x1000 0xFFFFFFFFF000 = 0x50000 := by
  have runs : returns (perform 1 (blank false) (.mapAt (.physical 0x50000) 0xFFFFFFFFF000 4096 2)) (fun v s' =>
      decide (v = 0 ∧ (blank false).translate 0x1000 0xFFFFFFFFF000 = 0 ∧
        s'.translate 0x1000 0xFFFFFFFFF000 = 0x50000)) = true := by decide +kernel
  obtain ⟨v,s',call,facts⟩ := returnsOk runs
  obtain ⟨rfl,before,after⟩ := of_decide_eq_true facts
  exact ⟨s',.start,call,before,after⟩

end Kokos.Paging

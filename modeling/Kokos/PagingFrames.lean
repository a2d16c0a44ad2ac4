import Kokos.PagingTranslations

/-! Which memory the paging code touches. In a run of orderly calls every access lies
in a table page; and when the physical ranges that are mapped hold neither tables
nor free pages, no table page is ever mapped as data. -/
namespace Kokos.Paging
open BudgetedCalls RadixTables

section
variable {σ : Type}

def Machine.frame (s : Machine σ) (root address : Nat) : Nat := s.translate root address / 4096 * 4096

theorem frameSame {root a : Nat} {s s' : Machine σ} (same : resolve (s'.entries root) a = resolve (s.entries root) a) :
    s'.frame root a = s.frame root a := by
  unfold Machine.frame Machine.translate
  rw [translation,translation]
  exact congrArg (fun x => x / 4096 * 4096) same

variable [PageAllocator σ]

def DataRange (s : Machine σ) (address length : Nat) : Prop :=
  address + length ≤ 2^52 ∧ ∀ p, p % 4096 = 0 → address ≤ p → p < address + length →
    PageAllocator.Taken s.world.allocator p ∧ p ∉ s.world.tables

def MapsData (s : Machine σ) : Request → Prop
  | .map (.physical address) bytes flags => DataRange s address (blocks (depthOf flags) bytes * span (depthOf flags))
  | .mapAt (.physical address) _ bytes flags => DataRange s address (blocks (depthOf flags) bytes * span (depthOf flags))
  | _ => True

def FramesApart (root : Nat) (s : Machine σ) : Prop :=
  ∀ a, Mapped (s.entries root) a →
    PageAllocator.Taken s.world.allocator (s.frame root a) ∧ s.frame root a ∉ s.world.tables

variable {root fuel : Nat} {start s s' : Machine σ} {r : Request} {v : Nat}

theorem mapApart {source : Source} {first bytes flags done : Nat} {ok : Bool} {c c' : PagingContext} {val : Nat → Nat}
    (apart : FramesApart root s)
    (result : MapResult source root first bytes flags c s.world s'.world ok c' done val)
    (data : ∀ address, source = .physical address →
      DataRange s address (blocks (depthOf flags) bytes * span (depthOf flags))) : FramesApart root s' := by
  intro a mapped
  have depth := depthCases flags
  by_cases outside : numberAt a (depthOf flags) < first ∨ first+done ≤ numberAt a (depthOf flags)
  · obtain ⟨same,both⟩ := resolveOutside (entriesGrounded _ _) (entriesGrounded _ _) result.filled depth.2 outside
    rw [frameSame same]
    exact apartEvolves result.evolves (apart a (both.mp mapped))
  · have few := result.few
    have hj : numberAt a (depthOf flags) - first < done := by omega
    have here : numberAt a (depthOf flags) = first + (numberAt a (depthOf flags) - first) := by omega
    have value := result.values _ hj
    obtain ⟨resolved,_⟩ := resolveInside (entriesGrounded s'.world.memory root) result.filled depth.2 hj here
      (valueLeaf value)
    have inner : a % (4096*512^(3 - depthOf flags)) < span (depthOf flags) :=
      Nat.mod_lt _ (Nat.mul_pos (by decide) (Nat.pow_pos (by decide)))
    generalize numberAt a (depthOf flags) - first = j at *
    have frame : s'.frame root a = ((val j &&& 0xFFFFFFFFFF000) + a % (4096*512^(3 - depthOf flags))) / 4096 * 4096 := by
      unfold Machine.frame Machine.translate
      rw [translation]
      exact congrArg (fun x => x / 4096 * 4096) resolved
    cases source with
    | allocated =>
      obtain ⟨three,drawn⟩ := value
      obtain ⟨page,_,taken,noTable⟩ := drawnFrame drawn
      rw [three] at frame inner
      have same : s'.frame root a = val j &&& 0xFFFFFFFFFF000 := by
        rw [frame]
        have := page.1
        simp only [span] at inner
        omega
      rw [same]
      exact ⟨taken,noTable⟩
    | physical address =>
      have accepts := resultAccepted result (by omega)
      obtain ⟨bound,held⟩ := data address rfl
      have room : span (depthOf flags) * j + span (depthOf flags) ≤ blocks (depthOf flags) bytes * span (depthOf flags) := by
        rw [← Nat.mul_succ,Nat.mul_comm]
        exact Nat.mul_le_mul_right _ (by omega)
      have entry : val j &&& 0xFFFFFFFFFF000 = address + span (depthOf flags) * j := by
        rw [show val j = physicalEntry (depthOf flags) address (pagingConvertFlags (flags % 2^16)) j from value]
        exact physicalFrame depth.1 accepts.2.2.1 (by omega) _
      rw [entry] at frame
      have aligned : address % 4096 = 0 := by
        have block : span (depthOf flags) % 4096 = 0 := by simp [span]
        have := Nat.mod_mod_of_dvd address (Nat.dvd_of_mod_eq_zero block)
        rw [accepts.2.2.1] at this
        omega
      exact apartEvolves result.evolves (held _ (by omega) (by omega) (by omega))

theorem unmapApart {d first bytes : Nat} {ok : Bool} (apart : FramesApart root s) (depth : d ≤ 3)
    (outcome : UnmapOutcome root d first bytes s.world s'.world ok) : FramesApart root s' := by
  obtain ⟨done,val,c,c',looped⟩ := outcome.looped
  have zero : ∀ j < done, val j = 0 := fun j hj => looped.values j hj
  intro a mapped
  obtain ⟨before,same⟩ := resolveErased (entriesGrounded s.world.memory root) (entriesGrounded s'.world.memory root)
    looped.filled depth zero mapped
  rw [frameSame same]
  exact apartEvolves looped.evolves (apart a before)

theorem effectApart (apart : FramesApart root s) (data : MapsData s r) (effect : Effect root s s' r v) :
    FramesApart root s' := by
  cases effect with
  | refused _ same => rw [same]; exact apart
  | mapped _ result _ _ => exact mapApart apart result fun address same => by subst same; exact data
  | mappedAt _ result _ _ => exact mapApart apart result fun address same => by subst same; exact data
  | untouched result _ =>
    have shows : s'.entries root = s.entries root := result.2.1.shows
    intro a mapped
    rw [shows] at mapped
    have same : s'.frame root a = s.frame root a := frameSame (by rw [shows])
    rw [same]
    exact apartEvolves result.2.1.evolves (apart a mapped)
  | unmapped depth _ _ result _ => exact unmapApart apart depth result

def Confined (root : Nat) (s : Machine σ) (r : Request) : Prop := Orderly root s r ∧ MapsData s r

theorem effectEvolves (effect : Effect root s s' r v) : Evolves root s.world s'.world := by
  cases effect with
  | refused _ same => rw [same]; exact evolvesRefl root s.world
  | mapped _ result _ _ => exact result.evolves
  | mappedAt _ result _ _ => exact result.evolves
  | untouched result _ => exact result.2.1.evolves
  | unmapped _ _ _ result _ =>
    obtain ⟨_,_,_,_,looped⟩ := result.looped
    exact looped.evolves

theorem confinedKeeps (sane : Sane root start) (apart : FramesApart root start)
    (run : Reached fuel (Confined root) start s) :
    Sane root s ∧ FramesApart root s ∧ Evolves root start.world s.world := by
  have step : ∀ (s : Machine σ) r v s', Sane root s ∧ FramesApart root s ∧ Evolves root start.world s.world →
      Confined root s r → perform fuel s r = .ok (v,s') →
      Sane root s' ∧ FramesApart root s' ∧ Evolves root start.world s'.world := by
    rintro s r v s' ⟨sane,apart,evolves⟩ confined call
    have effect := performed sane confined.1 call
    exact ⟨effectSane sane effect,effectApart apart confined.2 effect,evolvesTrans evolves (effectEvolves effect)⟩
  exact reachedKeeps step ⟨sane,apart,evolvesRefl root start.world⟩ run

theorem tablesOnly (sane : Sane root start) (only : start.world.tables = [root]) (apart : FramesApart root start)
    (run : Reached fuel (Confined root) start s) {a : Nat × Nat} (access : a ∈ s.world.accesses) :
    (∃ t ∈ s.world.tables, (t = root ∨ ¬ PageAllocator.Taken start.world.allocator t) ∧
      t ≤ a.1 ∧ a.1+a.2 ≤ t+4096) ∧
    ∀ u, Mapped (s.entries root) u → a.1+a.2 ≤ s.frame root u ∨ s.frame root u + 4096 ≤ a.1 := by
  obtain ⟨now,held,evolves⟩ := confinedKeeps sane apart run
  obtain ⟨t,member,low,high⟩ := now.tree.inside a access
  refine ⟨⟨t,member,?_,low,high⟩,fun u mapped => ?_⟩
  · rcases evolves.newer t member with old | free
    · rw [only] at old
      exact Or.inl (List.mem_singleton.mp old)
    · exact Or.inr free
  · have page := (now.tree.tables t member).1.1
    have other : s.frame root u ≠ t := fun same => (held u mapped).2 (same ▸ member)
    have whole : s.frame root u % 4096 = 0 := Nat.mul_mod_left _ _
    omega

end

theorem blankApart (huge : Bool) : FramesApart 0x1000 (blank huge) := fun a mapped => absurd mapped (blankUnmapped huge a)

theorem tablesOnlyDevicePage : ∃ s, perform 1 (blank false) (.mapAt (.physical 0x100000) 0x3000 4096 2) = .ok (0x3000,s) ∧
    ∀ a ∈ s.world.accesses, (∃ t ∈ s.world.tables, (t = 0x1000 ∨ ¬ PageAllocator.Taken twoWords t) ∧
      t ≤ a.1 ∧ a.1+a.2 ≤ t+4096) ∧
    ∀ u, Mapped (s.entries 0x1000) u → a.1+a.2 ≤ s.frame 0x1000 u ∨ s.frame 0x1000 u + 4096 ≤ a.1 := by
  obtain ⟨s,call⟩ := blankReturns (show 0x100000 % 4096 = 0 by decide)
  have data : MapsData (blank false) (.mapAt (.physical 0x100000) 0x3000 4096 2) := by
    refine ⟨by decide,fun p aligned low high => ⟨?_,?_⟩⟩
    · rintro ⟨w,hw,b,hb,same,_⟩
      have words : w < 2 := hw
      unfold PhysicalMemory.pageAddress at same
      omega
    · intro member
      have root := List.mem_singleton.mp member
      omega
  have confined : Confined 0x1000 (blank false) (.mapAt (.physical 0x100000) 0x3000 4096 2) :=
    ⟨blankOrderly,data⟩
  exact ⟨s,call,fun a access => tablesOnly (blankSane false) rfl (blankApart false) (.step .start confined call) access⟩

/-- A page mapped at an address inside a 1 GiB page: the walk takes the huge page for
a table and links a new table into the data. -/
theorem walkWritesIntoHugePage : ∃ s s', Reached 1 (fun _ _ => True) (blank true) s ∧
    perform 1 s (.mapAt (.physical 0x100000) 0x40000000 4096 2) = .ok (0,s') ∧
    Mapped (s.entries 0x1000) 0x40000000 ∧ s.frame 0x1000 0x40000000 = 0x40000000 ∧
    (0x40000008,8) ∈ s'.world.accesses ∧ (∀ t ∈ s'.world.tables, ¬ (t ≤ 0x40000008 ∧ 0x40000008 < t+4096)) ∧
    ByteMemory.readWord s.world.memory 0x40000008 = 0 ∧ ByteMemory.readWord s'.world.memory 0x40000008 ≠ 0 := by
  have runs : returns (perform 1 (blank true) (.mapAt (.physical 0x40000000) 0x40000000 4096 0b10010)) (fun _ s =>
      returns (perform 1 s (.mapAt (.physical 0x100000) 0x40000000 4096 2)) fun v' s' =>
        decide (v' = 0 ∧ s.translate 0x1000 0x40000000 = 0x40000000 ∧ (0x40000008,8) ∈ s'.world.accesses ∧
          (∀ t ∈ s'.world.tables, ¬ (t ≤ 0x40000008 ∧ 0x40000008 < t+4096)) ∧
          ByteMemory.readWord s.world.memory 0x40000008 = 0 ∧
          ByteMemory.readWord s'.world.memory 0x40000008 ≠ 0)) = true := by
    decide +kernel
  obtain ⟨v,s,first,rest⟩ := returnsOk runs
  obtain ⟨v',s',second,facts⟩ := returnsOk rest
  obtain ⟨rfl,value,access,outside,before,after⟩ := of_decide_eq_true facts
  refine ⟨s,s',.step .start trivial first,second,mappedOfTranslate (by rw [value]; decide),?_,access,outside,before,after⟩
  unfold Machine.frame
  rw [value]

end Kokos.Paging

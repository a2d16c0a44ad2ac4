import Kokos.PagingTranslations

/-! paging_used_pages against the pages that are mapped. The counter is adjusted by
the length that was asked for, so it is right as long as a mapping call maps all
of a range that was free, and an unmapping call unmaps all of a range that was mapped. -/
namespace Kokos.Paging
open BudgetedCalls RadixTables

theorem countRange {N lo hi : Nat} {p q : Nat → Prop} [DecidablePred p] [DecidablePred q] (bound : hi ≤ N)
    (outside : ∀ v < N, v < lo ∨ hi ≤ v → (q v ↔ p v)) (none : ∀ v, lo ≤ v → v < hi → ¬ p v)
    (all : ∀ v, lo ≤ v → v < hi → q v) :
    ((Finset.range N).filter q).card = ((Finset.range N).filter p).card + (hi - lo) := by
  have union : (Finset.range N).filter q = (Finset.range N).filter p ∪ Finset.Ico lo hi := by
    ext v
    simp only [Finset.mem_union,Finset.mem_filter,Finset.mem_range,Finset.mem_Ico]
    by_cases inside : lo ≤ v ∧ v < hi
    · have := all v inside.1 inside.2
      exact ⟨fun _ => Or.inr inside,fun _ => ⟨by omega,this⟩⟩
    · constructor
      · rintro ⟨less,here⟩
        exact Or.inl ⟨less,(outside v less (by omega)).mp here⟩
      · rintro (⟨less,here⟩ | here)
        · exact ⟨less,(outside v less (by omega)).mpr here⟩
        · exact absurd here inside
  have apart : Disjoint ((Finset.range N).filter p) (Finset.Ico lo hi) := by
    rw [Finset.disjoint_left]
    intro v left right
    rw [Finset.mem_Ico] at right
    exact none v right.1 right.2 (Finset.mem_filter.mp left).2
  rw [union,Finset.card_union_of_disjoint apart,Nat.card_Ico]

instance (E : Nat → Nat → Nat) (a : Nat) : Decidable (Mapped E a) :=
  decidable_of_iff (∃ e < 4, Leaf shape E 3 (pageNumber a) e)
    ⟨fun ⟨e,he,leaf⟩ => ⟨e,Nat.le_of_lt_succ he,leaf⟩,fun ⟨e,he,leaf⟩ => ⟨e,Nat.lt_succ_of_le he,leaf⟩⟩

def mappedPages (E : Nat → Nat → Nat) : Finset Nat := (Finset.range (2^36)).filter fun v => Mapped E (4096*v)

theorem overInside {v d n m : Nat} (page : v < 2^36) :
    (n ≤ numberAt (4096*v) d ↔ n*512^(3-d) ≤ v) ∧ (numberAt (4096*v) d < m ↔ v < m*512^(3-d)) := by
  have positive : 0 < 512^(3-d) := Nat.pow_pos (by decide)
  rw [overPage page]
  exact ⟨Nat.le_div_iff_mul_le positive,Nat.div_lt_iff_lt_mul positive⟩

theorem mappedPagesRange {E E' : Nat → Nat → Nat} {d n m : Nat} (depth : d ≤ 3) (inside : n+m < 512^(d+1))
    (outside : ∀ a, numberAt a d < n ∨ n+m ≤ numberAt a d → (Mapped E' a ↔ Mapped E a))
    (none : ∀ a, n ≤ numberAt a d → numberAt a d < n+m → ¬ Mapped E a)
    (all : ∀ a, n ≤ numberAt a d → numberAt a d < n+m → Mapped E' a) :
    (mappedPages E').card = (mappedPages E).card + m*512^(3-d) := by
  have bound := spaceEnd depth inside
  have length : (n+m)*512^(3-d) - n*512^(3-d) = m*512^(3-d) := by
    rw [Nat.add_mul]; omega
  rw [← length]
  refine countRange bound ?_ ?_ ?_
  · intro v page away
    obtain ⟨low,high⟩ := overInside (n := n) (m := n+m) (d := d) page
    exact outside _ (by omega)
  · intro v low high
    have page : v < 2^36 := by omega
    obtain ⟨above,below⟩ := overInside (n := n) (m := n+m) (d := d) page
    exact none _ (above.mpr low) (below.mpr high)
  · intro v low high
    have page : v < 2^36 := by omega
    obtain ⟨above,below⟩ := overInside (n := n) (m := n+m) (d := d) page
    exact all _ (above.mpr low) (below.mpr high)

theorem mappedPagesBound (E : Nat → Nat → Nat) : (mappedPages E).card ≤ 2^36 := by
  have few := Finset.card_filter_le (Finset.range (2^36)) fun v => Mapped E (4096*v)
  rwa [Finset.card_range] at few

theorem tableOfMapped (root : Nat) {d a : Nat} {E : Nat → Nat → Nat} (grounded : Grounded shape E) (low : 1 ≤ d) (depth : d ≤ 3)
    (clear : Clear shape E d (numberAt a d)) (mapped : Mapped E a) : (tab shape root E d (numberAt a d / 512)).isSome := by
  obtain ⟨e,he,leaf⟩ := mapped
  have deeper : d ≤ e := by
    by_contra higher
    exact clearNoLeaf clear depth (show e < d by omega) leaf
  obtain ⟨k,rfl⟩ : ∃ k, d = k+1 := ⟨d-1,by omega⟩
  simp only [tab]
  rw [overUp a k (by omega)]
  exact leafLink grounded he deeper leaf

section
variable {σ : Type}

def Fits (root : Nat) (s : Machine σ) (source : Source) (start bytes flags : Nat) : Prop :=
  Accepts s.world.hugepagesSupported (s.entries root) (depthOf flags) start source bytes flags →
    start + blocks (depthOf flags) bytes < 512^(depthOf flags + 1)

def WhollyMapped (root : Nat) (s : Machine σ) (d target bytes : Nat) : Prop :=
  (∀ a, numberAt target d ≤ numberAt a d → numberAt a d < numberAt target d + blocks d bytes → Mapped (s.entries root) a) ∧
    numberAt target d + blocks d bytes < 512^(d+1) ∧
    (tab shape root (s.entries root) d ((numberAt target d + blocks d bytes)/512)).isSome

def Exact (root : Nat) (s : Machine σ) : Request → Prop
  | .map source bytes flags => ∀ start, StartsAt root s (.map source bytes flags) start →
      RangeVacant root s source start bytes flags ∧ Fits root s source start bytes flags
  | .mapAt source target bytes flags => target % span (depthOf flags) = 0 →
      RangeVacant root s source (numberAt target (depthOf flags)) bytes flags ∧
        Fits root s source (numberAt target (depthOf flags)) bytes flags
  | .unmap target bytes => ∀ d ≤ 3, Leaf shape (s.entries root) 3 (pageNumber target) d → target % span d = 0 →
      WhollyMapped root s d target bytes

variable {root fuel : Nat} {start s s' : Machine σ} {r : Request} {v : Nat}

def Balanced (root : Nat) (s : Machine σ) : Prop := s.world.usedVirtualPages = (mappedPages (s.entries root)).card

theorem balancedSame (balanced : Balanced root s) (shows : ∀ a, Mapped (s'.entries root) a ↔ Mapped (s.entries root) a)
    (used : s'.world.usedVirtualPages = s.world.usedVirtualPages) : Balanced root s' := by
  have same : mappedPages (s'.entries root) = mappedPages (s.entries root) := Finset.filter_congr fun v _ => shows (4096*v)
  unfold Balanced
  rw [used,same,balanced]

variable [PageAllocator σ]

theorem mapBalanced {source : Source} {first bytes flags done : Nat} {ok : Bool} {c c' : PagingContext} {val : Nat → Nat}
    (balanced : Balanced root s)
    (result : MapResult source root first bytes flags c s.world s'.world ok c' done val)
    (exact : 0 < done → RangeVacant root s source first bytes flags ∧ Fits root s source first bytes flags) :
    Balanced root s' := by
  have depth := (depthCases flags).2
  have outside : ∀ a, numberAt a (depthOf flags) < first ∨ first+done ≤ numberAt a (depthOf flags) →
      (Mapped (s'.entries root) a ↔ Mapped (s.entries root) a) := fun a away =>
    (resolveOutside (entriesGrounded _ _) (entriesGrounded _ _) result.filled depth away).2
  cases ok with
  | false =>
    obtain rfl := resultNothing result fun some => (exact some).2 (resultAccepted result some)
    exact balancedSame balanced (fun a => outside a (by omega)) (result.counted.trans (if_neg Bool.false_ne_true))
  | true =>
    obtain ⟨all,accepts,_⟩ := result.succeeds rfl
    obtain ⟨vacant,fits⟩ := exact (by rw [all]; exact blocksPositive _ _)
    have inside := fits accepts
    have whole := vacant accepts
    have counted : s'.world.usedVirtualPages =
        (s.world.usedVirtualPages + blocks (depthOf flags) bytes * 512^(3 - depthOf flags)) % 2^64 :=
      result.counted.trans (if_pos rfl)
    rw [← all] at inside whole counted
    have inner : ∀ a, first ≤ numberAt a (depthOf flags) → numberAt a (depthOf flags) < first+done → Mapped (s'.entries root) a := by
      intro a low high
      exact (resolveInside (entriesGrounded s'.world.memory root) result.filled depth
        (show numberAt a (depthOf flags) - first < done by omega) (by omega) (valueLeaf (result.values _ (by omega)))).2
    have card := mappedPagesRange depth inside outside whole inner
    have bound := mappedPagesBound (s'.entries root)
    unfold Balanced at balanced ⊢
    rw [counted,balanced,← card]
    omega

theorem unmapBalanced {d target bytes : Nat} {ok : Bool} (balanced : Balanced root s) (depth : d ≤ 3)
    (leaf : Leaf shape (s.entries root) 3 (pageNumber target) d)
    (clear : ClearOnWay root (s.entries root) d (numberAt target d) (blocks d bytes))
    (whole : WhollyMapped root s d target bytes)
    (outcome : UnmapOutcome root d (numberAt target d) bytes s.world s'.world ok) : Balanced root s' := by
  obtain ⟨done,val,c,c',looped⟩ := outcome.looped
  obtain ⟨mapped,inside,table⟩ := whole
  have grounded := entriesGrounded s.world.memory root
  have low : 1 ≤ d := by
    by_contra top
    obtain rfl : d = 0 := by omega
    have inner := leaf.2
    rw [leafRoot] at inner
    contradiction
  -- An entry of the range is mapped, so that it has a table if no larger page is over it.
  have under : ∀ j < blocks d bytes, Clear shape (s.entries root) d (numberAt target d + j) →
      HasTable root d (s.entries root) (numberAt target d + j) := by
    intro j less inner
    have here := overAt depth (show numberAt target d + j < 512^(d+1) by omega)
    have found := tableOfMapped root grounded low depth (a := (numberAt target d + j) * span d)
      (by rw [here]; exact inner) (mapped _ (by omega) (by omega))
    rwa [here] at found
  have clearAll : ∀ j ≤ blocks d bytes, Clear shape (s.entries root) d (numberAt target d + j) := by
    intro j
    induction j using Nat.strong_induction_on with
    | h j ih =>
      intro few
      refine clearAhead leaf clear few (by omega) fun i _ less => ?_
      exact under i (by omega) (ih i less (by omega))
  have tables : ∀ j ≤ blocks d bytes, (tab shape root (s.entries root) d ((numberAt target d + j)/512)).isSome := by
    intro j few
    by_cases last : j = blocks d bytes
    · rw [last]
      exact table
    · exact under j (by omega) (clearAll j few)
  have finished := unmapFinishes outcome inside tables
  subst finished
  have all : done = blocks d bytes := (looped.goes rfl).1
  subst all
  have zero : ∀ j < blocks d bytes, val j = 0 := fun j hj => looped.values j hj
  have outside : ∀ a, numberAt a d < numberAt target d ∨ numberAt target d + blocks d bytes ≤ numberAt a d →
      (Mapped (s.entries root) a ↔ Mapped (s'.entries root) a) := fun a away =>
    (resolveOutside grounded (entriesGrounded s'.world.memory root) looped.filled depth away).2.symm
  have none : ∀ a, numberAt target d ≤ numberAt a d → numberAt a d < numberAt target d + blocks d bytes → ¬ Mapped (s'.entries root) a := by
    intro a above below
    have inner := clearAll (numberAt a d - numberAt target d) (by omega)
    rw [show numberAt target d + (numberAt a d - numberAt target d) = numberAt a d by omega] at inner
    exact erasedUnmapped looped.filled depth zero ⟨above,below⟩ inner
  have card := mappedPagesRange depth inside outside none mapped
  have bound := mappedPagesBound (s.entries root)
  have counted := outcome.counted.trans (if_pos rfl)
  unfold Balanced at balanced ⊢
  rw [counted,balanced,card]
  generalize blocks d bytes * 512^(3-d) = length at *
  omega

theorem effectBalanced (balanced : Balanced root s) (orderly : Orderly root s r) (exact : Exact root s r)
    (effect : Effect root s s' r v) : Balanced root s' := by
  cases effect with
  | refused _ same => rw [same]; exact balanced
  | mapped starts result _ _ => exact mapBalanced balanced result fun _ => exact _ starts
  | mappedAt _ result aligned _ => exact mapBalanced balanced result fun some => exact (aligned some)
  | untouched result _ =>
    have shows : s'.entries root = s.entries root := result.2.1.shows
    exact balancedSame balanced (fun a => by rw [shows]) result.2.1.used
  | unmapped depth leaf aligned result _ =>
    exact unmapBalanced balanced depth leaf (orderly _ depth leaf aligned) (exact _ depth leaf aligned) result

theorem usedPagesBalanced (sane : Sane root start) (none : ∀ a, ¬ Mapped (start.entries root) a)
    (zero : start.world.usedVirtualPages = 0) (run : Reached fuel (fun s r => Orderly root s r ∧ Exact root s r) start s) :
    s.world.usedVirtualPages = (mappedPages (s.entries root)).card := by
  have first : Balanced root start := by
    have empty : mappedPages (start.entries root) = ∅ := Finset.filter_eq_empty_iff.mpr fun v _ => none (4096*v)
    unfold Balanced
    rw [zero,empty,Finset.card_empty]
  have step : ∀ (s : Machine σ) r v s', Sane root s ∧ Balanced root s → Orderly root s r ∧ Exact root s r →
      perform fuel s r = .ok (v,s') → Sane root s' ∧ Balanced root s' := by
    rintro s r v s' ⟨sane,balanced⟩ ⟨orderly,exact⟩ call
    have effect := performed sane orderly call
    exact ⟨effectSane sane effect,effectBalanced balanced orderly exact effect⟩
  exact (reachedKeeps step ⟨sane,first⟩ run).2

end

theorem usedPagesOnePage : ∃ s s', perform 1 (blank false) (.mapAt (.physical 0x50000) 0x3000 4096 2) = .ok (0x3000,s) ∧
    perform 1 s (.unmap 0x3000 4096) = .ok (1,s') ∧ s.world.usedVirtualPages = 1 ∧ s'.world.usedVirtualPages = 0 ∧
    s'.world.usedVirtualPages = (mappedPages (s'.entries 0x1000)).card := by
  have runs : returns (perform 1 (blank false) (.mapAt (.physical 0x50000) 0x3000 4096 2)) (fun v s =>
      returns (perform 1 s (.unmap 0x3000 4096)) fun v' s' =>
        decide (v = 0x3000 ∧ v' = 1 ∧ s.world.usedVirtualPages = 1 ∧ s'.world.usedVirtualPages = 0 ∧
          s.entries 0x1000 3 3 ≠ 0 ∧ Clear shape (s.entries 0x1000) 3 4 ∧
          (tab shape 0x1000 (s.entries 0x1000) 3 0).isSome)) = true := by decide +kernel
  obtain ⟨v,s,first,rest⟩ := returnsOk runs
  obtain ⟨v',s',second,facts⟩ := returnsOk rest
  obtain ⟨rfl,rfl,one,zero,there,clear4,table⟩ := of_decide_eq_true facts
  have leaf : Leaf shape (s.entries 0x1000) 3 3 3 := ⟨there,leafDepth _ (by decide)⟩
  have only : ∀ d ≤ 3, Leaf shape (s.entries 0x1000) 3 (pageNumber 0x3000) d → d = 3 :=
    fun d depth other => leafUnique (entriesGrounded _ _) depth (by decide) other leaf
  have empty : RangeVacant 0x1000 (blank false) (.physical 0x50000) 3 4096 2 := fun _ a _ _ => blankUnmapped false a
  have mapExact : Exact 0x1000 (blank false) (.mapAt (.physical 0x50000) 0x3000 4096 2) := fun _ =>
    ⟨empty,fun _ => by decide⟩
  have unmapOrderly : Orderly 0x1000 s (.unmap 0x3000 4096) := by
    intro d depth other _ j low high _ _
    obtain rfl := only d depth other
    obtain rfl : j = 1 := Nat.le_antisymm high low
    exact clear4
  have unmapExact : Exact 0x1000 s (.unmap 0x3000 4096) := by
    intro d depth other _
    obtain rfl := only d depth other
    refine ⟨fun a low high => ⟨3,by decide,?_⟩,by decide,table⟩
    have here : numberAt a 3 = 3 := Nat.le_antisymm (Nat.le_of_lt_succ high) low
    unfold Leaf
    rw [show pageNumber a / shape.fanout^(3-3) = 3 from here]
    exact leaf
  have run : Reached 1 (fun s r => Orderly 0x1000 s r ∧ Exact 0x1000 s r) (blank false) s' :=
    .step (.step .start ⟨blankOrderly,mapExact⟩ first) ⟨unmapOrderly,unmapExact⟩ second
  exact ⟨s,s',first,second,one,zero,usedPagesBalanced (blankSane false) (blankUnmapped false) rfl run⟩

theorem usedPagesWraps : ∃ s, Reached 1 (fun _ _ => True) (blank false) s ∧ s.world.usedVirtualPages = 2^64 - 1 ∧
    s.world.usedVirtualPages ≠ (mappedPages (s.entries 0x1000)).card := by
  have runs : returns (perform 1 (blank false) (.mapAt (.physical 0x50000) 0x3000 4096 2)) (fun _ s =>
      returns (perform 1 s (.unmap 0x3000 8192)) fun v' s' =>
        decide (v' = 1 ∧ s'.world.usedVirtualPages = 2^64 - 1)) = true := by decide +kernel
  obtain ⟨v,s,first,rest⟩ := returnsOk runs
  obtain ⟨v',s',second,facts⟩ := returnsOk rest
  obtain ⟨rfl,used⟩ := of_decide_eq_true facts
  refine ⟨s',.step (.step .start trivial first) trivial second,used,?_⟩
  have few := mappedPagesBound (s'.entries 0x1000)
  omega

end Kokos.Paging

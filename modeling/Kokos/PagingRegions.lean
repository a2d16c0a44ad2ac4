import Mathlib.Algebra.GroupWithZero.Nat
import Kokos.PagingFrontier
import Kokos.PagingTranslations

/-! Runs of mapping at the cursor, with pages of one size, and of unmapping whole
regions. The live regions are the abstract state: disjoint ranges of addresses,
each with the physical address behind every one of its bytes. -/
namespace Kokos.Paging
open BudgetedCalls RadixTables

structure Region where
  address : Nat
  bytes : Nat
  source : Source
  physical : Nat → Nat

def Region.first (d : Nat) (r : Region) : Nat := r.address / span d
def Region.count (d : Nat) (r : Region) : Nat := blocks d r.bytes

def Region.length (d : Nat) (r : Region) : Nat := r.count d * span d

def Region.Contains (d : Nat) (r : Region) (a : Nat) : Prop := r.address ≤ a ∧ a < r.address + r.length d

structure Holds (root d : Nat) (E : Nat → Nat → Nat) (r : Region) : Prop where
  aligned : r.address % span d = 0
  inside : r.first d + r.count d < 512^(d+1)
  leaf : ∀ j < r.count d, E d (r.first d + j) ≠ 0 ∧ shape.leaf d (E d (r.first d + j)) = true
  next : (tab shape root E d ((r.first d + r.count d)/512)).isSome
  reaches : ∀ o < r.length d, resolve E (r.address + o) = r.physical o

def Apart (d : Nat) (r s : Region) : Prop :=
  r.first d + r.count d ≤ s.first d ∨ s.first d + s.count d ≤ r.first d

theorem apartSymmetric {d : Nat} {r s : Region} (h : Apart d r s) : Apart d s r := h.symm

section
variable {root d : Nat} {E E' : Nat → Nat → Nat} {r : Region}

theorem regionStart (aligned : r.address % span d = 0) : r.address = r.first d * span d :=
  (Nat.div_mul_cancel (Nat.dvd_of_mod_eq_zero aligned)).symm

theorem regionContains (aligned : r.address % span d = 0) {a : Nat} (low : a < 2^48) :
    r.Contains d a ↔ r.first d ≤ numberAt a d ∧ numberAt a d < r.first d + r.count d := by
  have positive := spanPositive d
  unfold Region.Contains Region.length
  rw [regionStart aligned,numberOf low,Nat.le_div_iff_mul_le positive,Nat.div_lt_iff_lt_mul positive,Nat.add_mul]

theorem regionOffset (depth : d ≤ 3) (aligned : r.address % span d = 0) (inside : r.first d + r.count d < 512^(d+1))
    {o : Nat} (ho : o < r.length d) :
    o / span d < r.count d ∧ numberAt (r.address + o) d = r.first d + o / span d := by
  rw [regionStart aligned]
  obtain ⟨index,number,_⟩ := offsetNumber depth inside ho
  exact ⟨index,number⟩

theorem holdsFilled {n m : Nat} {val : Nat → Nat} (low : 1 ≤ d) (depth : d ≤ 3) (grounded : Grounded shape E)
    (grounded' : Grounded shape E') (filled : Filled shape E E' d n m val) (holds : Holds root d E r)
    (away : r.first d + r.count d ≤ n ∨ n+m ≤ r.first d) : Holds root d E' r where
  aligned := holds.aligned
  inside := holds.inside
  leaf j hj := by
    rw [filled.beside d _ (Nat.le_refl _) (by simp; omega)]
    exact holds.leaf j hj
  next := by
    obtain ⟨k,rfl⟩ : ∃ k, d = k+1 := ⟨d-1,by omega⟩
    have there := holds.next
    simp only [tab] at there ⊢
    rwa [filledAbove filled (Nat.lt_succ_self k) (linkIsSome.mp there).1]
  reaches o ho := by
    obtain ⟨index,number⟩ := regionOffset depth holds.aligned holds.inside ho
    generalize o / span d = j at index number
    rw [(resolveOutside grounded grounded' filled depth (by omega)).1]
    exact holds.reaches o ho

theorem holdsClear (low : 1 ≤ d) (grounded : Grounded shape E) (holds : Holds root d E r) :
    ∀ j ≤ r.count d, Clear shape E d (r.first d + j) := by
  intro j few
  by_cases last : j = r.count d
  · subst last
    obtain ⟨k,rfl⟩ : ∃ k, d = k+1 := ⟨d-1,by omega⟩
    have there := holds.next
    simp only [tab] at there
    obtain ⟨nonzero,leaf⟩ := linkIsSome.mp there
    exact clearSucc.mpr ⟨clearOfNonzero grounded nonzero,leaf⟩
  · exact clearOfNonzero grounded (holds.leaf j (by omega)).1

theorem holdsTables (low : 1 ≤ d) (grounded : Grounded shape E) (holds : Holds root d E r) :
    ∀ j ≤ r.count d, (tab shape root E d ((r.first d + j)/512)).isSome := by
  intro j few
  by_cases last : j = r.count d
  · rw [last]
    exact holds.next
  · obtain ⟨k,rfl⟩ : ∃ k, d = k+1 := ⟨d-1,by omega⟩
    have link := groundedLink grounded (holds.leaf j (by omega)).1 k (Nat.lt_succ_self k)
    rw [show k+1-k = 1 by omega,Nat.pow_one] at link
    exact link

end

section
variable {σ : Type} [PageAllocator σ]

structure Fit (d m : Nat) (s : Machine σ) (source : Source) (bytes flags : Nat) : Prop where
  size : depthOf flags = d
  some : 1 ≤ bytes
  bound : bytes ≤ 2^39
  given : match source with
    | .physical address => address % span d = 0 ∧ address + blocks d bytes * span d ≤ 2^52 ∧
        (d = 1 → s.world.hugepagesSupported = true)
    | .allocated => d = 3
  room : startOf d m s.context bytes flags + blocks d bytes < 512^(d+1)

def Source.reaches (source : Source) (root : Nat) (s : Machine σ) (address : Nat) : Nat → Nat :=
  match source with
  | .physical given => fun o => given + o
  | .allocated => fun o => s.translate root (address + o)

def HandedOut (start s : Machine σ) (page : Nat) : Prop :=
  IsPage page ∧ ¬ PageAllocator.Taken start.world.allocator page ∧
    PageAllocator.Taken s.world.allocator page ∧ page ∉ s.world.tables

structure Framed (d : Nat) (start s : Machine σ) (r : Region) : Prop where
  frame : ∀ j < r.count d, HandedOut start s (r.physical (4096*j))
  whole : ∀ j < r.count d, ∀ o < 4096, r.physical (4096*j+o) = r.physical (4096*j) + o
  different : ∀ i j, i < j → j < r.count d → r.physical (4096*i) ≠ r.physical (4096*j)

def FramesDiffer (d : Nat) (r t : Region) : Prop :=
  r.source = .allocated → t.source = .allocated → ∀ i < r.count d, ∀ j < t.count d, r.physical (4096*i) ≠ t.physical (4096*j)

inductive Staged (root fuel d m : Nat) (start : Machine σ) : Machine σ → List Region → Prop where
  | start : Staged root fuel d m start start []
  | map {s live source bytes flags v s'} (before : Staged root fuel d m start s live) (fit : Fit d m s source bytes flags)
      (call : perform fuel s (.map source bytes flags) = .ok (v,s')) :
      Staged root fuel d m start s' (⟨v,bytes,source,source.reaches root s' v⟩ :: live)
  | unmap {s front r back v s'} (before : Staged root fuel d m start s (front ++ r :: back))
      (call : perform fuel s (.unmap r.address r.bytes) = .ok (v,s')) : Staged root fuel d m start s' (front ++ back)

def livePages (d : Nat) (live : List Region) : Nat := (live.map fun r => r.count d * 512^(3-d)).sum

structure Layout (root d m : Nat) (start s : Machine σ) (live : List Region) (p : Nat) : Prop where
  sane : Sane root s
  evolves : Evolves root start.world s.world
  cursor : Cursor root d m (s.entries root) s.context p
  frontier : Frontier shape (s.entries root) d p
  holds : ∀ r ∈ live, Holds root d (s.entries root) r
  behind : ∀ r ∈ live, m*512^d ≤ r.first d ∧ r.first d + r.count d ≤ p
  apart : live.Pairwise (Apart d)
  vacant : ∀ a, m*512^d ≤ numberAt a d → Mapped (s.entries root) a →
    ∃ r ∈ live, r.first d ≤ numberAt a d ∧ numberAt a d < r.first d + r.count d
  earlier : ∀ a, numberAt a d < m*512^d → s.translate root a = start.translate root a
  used : s.world.usedVirtualPages % 2^64 = (start.world.usedVirtualPages + livePages d live) % 2^64
  framed : ∀ r ∈ live, r.source = .allocated → Framed d start s r
  frames : live.Pairwise (FramesDiffer d)

variable {root fuel d m p : Nat} {start s s' : Machine σ} {live : List Region}

theorem spotGranted {c : PagingContext} {bytes flags : Nat} (some : bytes ≠ 0) (bound : bytes ≤ 2^39) :
    spotChoice c bytes flags ≠ .refuse := by
  unfold spotChoice
  rw [if_neg some]
  split
  · split <;> simp
  · split
    · split <;> simp
    · rw [if_pos (by omega)]
      split <;> simp

theorem regionPositive (d : Nat) (r : Region) : 0 < r.count d := blocksPositive d r.bytes

theorem layoutMapRuns {source : Source} {bytes flags : Nat} (few : m < 512) (layout : Layout root d m start s live p)
    (fit : Fit d m s source bytes flags) :
    Runs (fun s : Machine σ => pool s.world) (fuel ≤ 511)
      (8 + demand source d (startOf d m s.context bytes flags) bytes) (fun s => perform fuel s (.map source bytes flags)) s
      fun v s' => ∃ val, v = startOf d m s.context bytes flags * span d ∧
        MapResult source root (startOf d m s.context bytes flags) bytes flags s.context s.world s'.world true s'.context
          (blocks d bytes) val ∧
        Cursor root d m (s'.entries root) s'.context (startOf d m s.context bytes flags + blocks d bytes) ∧
        Frontier shape (s'.entries root) d (startOf d m s.context bytes flags + blocks d bytes) := by
  have zero : bytes ≠ 0 := Nat.pos_iff_ne_zero.mp fit.some
  have suits : Suits s.world.hugepagesSupported d source bytes := by
    refine ⟨zero,?_⟩
    have given := fit.given
    cases source with
    | physical address => exact ⟨given.2.2,given.1⟩
    | allocated => exact given
  refine performRuns (f := fun r w => (r.1,⟨w,r.2⟩)) (x := mapAnywhere source fuel s.context bytes flags) rfl (fun _ _ => rfl) ?_
  exact mapCursorRuns layout.sane.tree fit.size few layout.cursor layout.frontier (spotGranted zero fit.bound)
    (Or.inl fit.bound) suits fit.room

theorem mappedReaches {source : Source} {n bytes flags v : Nat} {c c' : PagingContext} {val : Nat → Nat}
    (fit : Fit d m s source bytes flags) (address : v = n * span d) (inside : n + blocks d bytes < 512^(d+1))
    (result : MapResult source root n bytes flags c s.world s'.world true c' (blocks d bytes) val) :
    ∀ o < blocks d bytes * span d, resolve (s'.entries root) (v + o) = source.reaches root s' v o := by
  intro o ho
  cases source with
  | allocated => exact (translation s'.world.memory root (v+o)).symm
  | physical given =>
    rw [address]
    exact physicalReaches fit.size fit.given.1 fit.given.2.1 inside result o ho

theorem handedOutEvolves {page : Nat} (evolves : Evolves root s.world s'.world) (handed : HandedOut start s page) :
    HandedOut start s' page := by
  obtain ⟨isPage,free,apart⟩ := handed
  exact ⟨isPage,free,apartEvolves evolves apart⟩

theorem framedEvolves {r : Region} (evolves : Evolves root s.world s'.world) (framed : Framed d start s r) :
    Framed d start s' r :=
  ⟨fun j hj => handedOutEvolves evolves (framed.frame j hj),framed.whole,framed.different⟩

theorem allocatedReaches {n bytes flags v : Nat} {c c' : PagingContext} {val : Nat → Nat} (size : depthOf flags = 3)
    (address : v = n * span 3) (inside : n + blocks 3 bytes < 512^(3+1))
    (result : MapResult .allocated root n bytes flags c s.world s'.world true c' (blocks 3 bytes) val) :
    ∀ j < blocks 3 bytes, ∀ o < 4096, Source.allocated.reaches root s' v (4096*j+o) = (val j &&& 0xFFFFFFFFFF000) + o := by
  intro j hj o ho
  have page : span 3 = 4096 := rfl
  have index : (4096*j+o) / 4096 = j := by omega
  have rest : (4096*j+o) % 4096 = o := by omega
  have reaches := resultReaches size inside result (4096*j+o) (by rw [page]; omega)
  rw [page,index,rest] at reaches
  rw [← page,← address,← translation] at reaches
  exact reaches

theorem allocatedFramed {n bytes flags v : Nat} {c c' : PagingContext} {val : Nat → Nat} (size : depthOf flags = 3)
    (address : v = n * span 3) (inside : n + blocks 3 bytes < 512^(3+1)) (evolves : Evolves root start.world s.world)
    (result : MapResult .allocated root n bytes flags c s.world s'.world true c' (blocks 3 bytes) val) :
    Framed 3 start s' ⟨v,bytes,.allocated,Source.allocated.reaches root s' v⟩ ∧
      ∀ j < blocks 3 bytes, ¬ PageAllocator.Taken s.world.allocator (Source.allocated.reaches root s' v (4096*j)) := by
  have reaches := allocatedReaches size address inside result
  have first : ∀ j < blocks 3 bytes, Source.allocated.reaches root s' v (4096*j) = val j &&& 0xFFFFFFFFFF000 :=
    fun j hj => reaches j hj 0 (by decide)
  have drawn : ∀ j < blocks 3 bytes, _ := fun j hj => drawnFrame (result.values j hj).2
  refine ⟨⟨fun j hj => ?_,fun j hj o ho => ?_,fun i j less hj => ?_⟩,fun j hj => ?_⟩
  · obtain ⟨isPage,free,apart⟩ := drawn j hj
    rw [← first j hj] at isPage free apart
    exact ⟨isPage,fun before => free (evolves.taken _ before),apart⟩
  · exact (reaches j hj o ho).trans (congrArg (· + o) (first j hj).symm)
  · have different := (drawnFrames result).1 i j less hj
    rw [← first i (Nat.lt_trans less hj),← first j hj] at different
    exact different
  · rw [first j hj]
    exact (drawn j hj).2.1

theorem layoutMapped {source : Source} {n bytes flags v : Nat} {val : Nat → Nat} (layout : Layout root d m start s live p)
    (fit : Fit d m s source bytes flags) (later : p ≤ n) (address : v = n * span d) (inside : n + blocks d bytes < 512^(d+1))
    (result : MapResult source root n bytes flags s.context s.world s'.world true s'.context (blocks d bytes) val)
    (cursor : Cursor root d m (s'.entries root) s'.context (n + blocks d bytes))
    (frontier : Frontier shape (s'.entries root) d (n + blocks d bytes)) :
    Layout root d m start s' (⟨v,bytes,source,source.reaches root s' v⟩ :: live) (n + blocks d bytes) := by
  have size := fit.size
  obtain ⟨low,high⟩ := depthCases flags
  rw [size] at low high
  have past := cursorPast layout.cursor
  have filled := result.filled
  rw [size] at filled
  have grounded := entriesGrounded s.world.memory root
  have grounded' := entriesGrounded s'.world.memory root
  have first : (⟨v,bytes,source,source.reaches root s' v⟩ : Region).first d = n := by
    unfold Region.first
    rw [address,Nat.mul_div_cancel _ (spanPositive d)]
  have count : (⟨v,bytes,source,source.reaches root s' v⟩ : Region).count d = blocks d bytes := rfl
  have own : Holds root d (s'.entries root) ⟨v,bytes,source,source.reaches root s' v⟩ := by
    refine ⟨?_,by rw [first,count]; exact inside,?_,?_,mappedReaches fit address inside result⟩
    · rw [address]
      exact Nat.mul_mod_left _ _
    · intro j hj
      have leaf := valueLeaf (result.values j hj)
      rw [size] at leaf
      rw [first,show s'.entries root d (n+j) = val j from filled.value j hj]
      exact leaf
    · have points := (result.succeeds rfl).2.2.1
      rw [size] at points
      rw [first,count]
      exact Option.isSome_iff_exists.mpr ⟨_,(pointsTable points).1⟩
  have framed : source = .allocated → Framed d start s' ⟨v,bytes,source,source.reaches root s' v⟩ ∧
      ∀ j < blocks d bytes, ¬ PageAllocator.Taken s.world.allocator (source.reaches root s' v (4096*j)) := by
    rintro rfl
    obtain rfl : d = 3 := fit.given
    exact allocatedFramed size address inside layout.evolves result
  have outside : ∀ a, numberAt a d < n ∨ n + blocks d bytes ≤ numberAt a d →
      resolve (s'.entries root) a = resolve (s.entries root) a ∧ (Mapped (s'.entries root) a ↔ Mapped (s.entries root) a) :=
    fun a away => resolveOutside grounded grounded' filled high away
  refine ⟨⟨result.tree,result.rooted⟩,evolvesTrans layout.evolves result.evolves,cursor,frontier,?_,?_,?_,?_,?_,?_,?_,?_⟩
  · intro r member
    rcases List.mem_cons.mp member with rfl | old
    · exact own
    · have before := (layout.behind r old).2
      exact holdsFilled low high grounded grounded' filled (layout.holds r old) (by omega)
  · intro r member
    rcases List.mem_cons.mp member with rfl | old
    · rw [first,count]
      omega
    · have before := layout.behind r old
      omega
  · refine List.pairwise_cons.mpr ⟨fun r old => ?_,layout.apart⟩
    have before := (layout.behind r old).2
    unfold Apart
    rw [first,count]
    omega
  · intro a here mapped
    by_cases inner : n ≤ numberAt a d ∧ numberAt a d < n + blocks d bytes
    · exact ⟨_,List.mem_cons_self,by rw [first,count]; exact inner⟩
    · obtain ⟨r,member,within⟩ := layout.vacant a here ((outside a (by omega)).2.mp mapped)
      exact ⟨r,List.mem_cons_of_mem _ member,within⟩
  · intro a before
    have same := (outside a (by omega)).1
    rw [← layout.earlier a before]
    unfold Machine.translate
    rw [translation,translation]
    exact same
  · have counted := result.counted.trans (if_pos rfl)
    have used := layout.used
    rw [size] at counted
    rw [counted]
    simp only [livePages,List.map_cons,List.sum_cons] at used ⊢
    rw [count]
    generalize blocks d bytes * 512^(3-d) = pages
    omega
  · intro r member allocated
    rcases List.mem_cons.mp member with rfl | old
    · exact (framed allocated).1
    · exact framedEvolves result.evolves (layout.framed r old allocated)
  · refine List.pairwise_cons.mpr ⟨fun r old own other i hi j hj same => ?_,layout.frames⟩
    have held := ((layout.framed r old other).frame j hj).2.2.1
    rw [← same] at held
    exact (framed own).2 i hi held

theorem layoutUnmapRuns {r : Region} (low : 1 ≤ d) (high : d ≤ 3) (layout : Layout root d m start s live p) (member : r ∈ live) :
    Runs (fun s : Machine σ => pool s.world) False 0 (fun s => perform fuel s (.unmap r.address r.bytes)) s
      fun v s' => v = 1 ∧ s'.context = s.context ∧ UnmapOutcome root d (r.first d) r.bytes s.world s'.world true := by
  have holds := layout.holds r member
  have grounded := entriesGrounded s.world.memory root
  have positive := regionPositive d r
  have number : numberAt r.address d = r.first d := by
    have none : 0 < r.length d := Nat.mul_pos positive (spanPositive d)
    have zero := (regionOffset high holds.aligned holds.inside none).2
    rwa [Nat.zero_div] at zero
  have leaf : Leaf shape (s.entries root) 3 (pageNumber r.address) d := by
    have first := holds.leaf 0 positive
    rw [Nat.add_zero,← number] at first
    exact first
  have clear := holdsClear low grounded holds
  refine performRuns (f := fun ok w => (if ok then 1 else 0,⟨w,s.context⟩)) (x := pagingUnmap s.context r.address r.bytes)
    rfl (fun _ _ => rfl) ?_
  refine runsPost (unmapRuns layout.sane.rooted layout.sane.tree ?_) ?_
  · intro e he other _ j _ few _ _
    obtain rfl := leafUnique grounded he high other leaf
    rw [number]
    exact clear j few
  · rintro ok w' (⟨_,_,none | ⟨e,he,other,unaligned⟩⟩ | ⟨e,he,other,_,outcome⟩)
    · exact absurd ⟨d,high,leaf⟩ none
    · obtain rfl := leafUnique grounded he high other leaf
      exact absurd holds.aligned unaligned
    · obtain rfl := leafUnique grounded he high other leaf
      rw [number] at outcome
      obtain rfl := unmapFinishes outcome holds.inside (holdsTables low grounded holds)
      exact ⟨rfl,rfl,outcome⟩

theorem layoutUnmapped {front back : List Region} {r : Region} (low : 1 ≤ d) (high : d ≤ 3)
    (layout : Layout root d m start s (front ++ r :: back) p) (context : s'.context = s.context)
    (outcome : UnmapOutcome root d (r.first d) r.bytes s.world s'.world true) :
    Layout root d m start s' (front ++ back) p := by
  obtain ⟨done,val,c,c',looped⟩ := outcome.looped
  obtain rfl : done = r.count d := (looped.goes rfl).1
  have zero : ∀ j < r.count d, val j = 0 := fun j hj => looped.values j hj
  have grounded := entriesGrounded s.world.memory root
  have grounded' := entriesGrounded s'.world.memory root
  have member : r ∈ front ++ r :: back := by simp
  have others : ∀ t ∈ front ++ back, t ∈ front ++ r :: back := by
    intro t here
    rcases List.mem_append.mp here with left | right
    · exact List.mem_append.mpr (Or.inl left)
    · exact List.mem_append.mpr (Or.inr (List.mem_cons_of_mem _ right))
  have middle := (List.pairwise_middle (fun {_ _} => apartSymmetric)).mp layout.apart
  obtain ⟨away,apart⟩ := List.pairwise_cons.mp middle
  have holds := layout.holds r member
  obtain ⟨past,before⟩ := layout.behind r member
  have positive := regionPositive d r
  have outside : ∀ a, numberAt a d < r.first d ∨ r.first d + r.count d ≤ numberAt a d →
      resolve (s'.entries root) a = resolve (s.entries root) a ∧ (Mapped (s'.entries root) a ↔ Mapped (s.entries root) a) :=
    fun a far => resolveOutside grounded grounded' looped.filled high far
  refine ⟨⟨looped.tree,by rw [context]; exact layout.sane.rooted⟩,evolvesTrans layout.evolves looped.evolves,?_,
    frontierFilled looped.filled before layout.frontier,?_,fun t here => layout.behind t (others t here),apart,?_,?_,?_,
    fun t here allocated => framedEvolves looped.evolves (layout.framed t (others t here) allocated),?_⟩
  · have cursor := layout.cursor
    rw [context]
    cases cursor with
    | null _ _ _ => omega
    | placed points lower past => exact .placed (pointsFilled points looped.filled (Nat.le_refl _)) lower past
  · intro t here
    exact holdsFilled low high grounded grounded' looped.filled (layout.holds t (others t here)) (away t here).symm
  · intro a here mapped
    by_cases inner : r.first d ≤ numberAt a d ∧ numberAt a d < r.first d + r.count d
    · have clear := holdsClear low grounded holds (numberAt a d - r.first d) (by omega)
      rw [show r.first d + (numberAt a d - r.first d) = numberAt a d by omega] at clear
      exact absurd mapped (erasedUnmapped looped.filled high zero inner clear)
    · obtain ⟨t,here',within⟩ := layout.vacant a here ((outside a (by omega)).2.mp mapped)
      refine ⟨t,?_,within⟩
      rcases List.mem_append.mp here' with left | right
      · exact List.mem_append.mpr (Or.inl left)
      · rcases List.mem_cons.mp right with rfl | right
        · exact absurd within inner
        · exact List.mem_append.mpr (Or.inr right)
  · intro a less
    rw [← layout.earlier a less]
    unfold Machine.translate
    rw [translation,translation]
    exact (outside a (by omega)).1
  · have counted := outcome.counted.trans (if_pos rfl)
    have used := layout.used
    rw [counted]
    simp only [livePages,List.map_append,List.map_cons,List.sum_append,List.sum_cons] at used ⊢
    rw [show blocks d r.bytes = r.count d from rfl]
    generalize r.count d * 512^(3-d) = pages at *
    omega
  · have symmetric : ∀ {r t : Region}, FramesDiffer d r t → FramesDiffer d t r :=
      fun differ own other i hi j hj same => differ other own j hj i hi same.symm
    exact (List.pairwise_cons.mp ((List.pairwise_middle symmetric).mp layout.frames)).2

/-- A context as cpu_initialize and scheduler_execute leave it: a null cursor, and
level-4 slots 0..m-1 in use. -/
structure Prepared (root m : Nat) (s : Machine σ) : Prop where
  sane : Sane root s
  null : s.context = nullContext root
  slots : ∀ k < 512, s.entries root 0 k ≠ 0 ↔ k < m
  some : 1 ≤ m
  few : m < 512

theorem slotsEmpty (prepared : Prepared root m start) {e k : Nat} (beyond : m ≤ k / 512^e) : start.entries root e k = 0 := by
  have top : ∀ q, m ≤ q → start.entries root 0 q = 0 := by
    intro q past
    by_cases inside : q < 512
    · by_contra some
      have := (prepared.slots q inside).mp some
      omega
    · exact entriesLast (show tableAt shape (row start.world.memory) root 0 (q/512) = none from if_neg (by omega))
  by_cases level : e = 0
  · subst level
    exact top k (by simpa using beyond)
  · refine groundedZero (entriesGrounded start.world.memory root) (Nat.pos_of_ne_zero level) ?_
    rw [show entries start.world.memory root 0 (k / shape.fanout^(e-0)) = 0 from top _ beyond,linkZero]
    rfl

theorem layoutStart (high : d ≤ 3) (prepared : Prepared root m start) : Layout root d m start start [] (m*512^d) where
  sane := prepared.sane
  evolves := evolvesRefl root start.world
  cursor := .null prepared.null (fun k less => (prepared.slots k (Nat.lt_trans less prepared.few)).mpr less)
    (slotsEmpty prepared (by simp))
  frontier := by
    have path : ∀ e ≤ d, m*512^d / 512^(d-e) = m*512^e := by
      intro e he
      rw [show m*512^d = m*512^e*512^(d-e) by rw [Nat.mul_assoc,← Nat.pow_add,show e+(d-e) = d by omega],
        Nat.mul_div_cancel _ (Nat.pow_pos (by decide))]
    have positive : ∀ e, 0 < 512^e := fun e => Nat.pow_pos (by decide)
    refine ⟨fun e he => ?_,?_,fun e k he less => ?_⟩
    · rw [shapeFanout,path e (Nat.le_of_lt he),slotsEmpty prepared (by rw [Nat.mul_div_cancel _ (positive e)])]
      exact leafZero (by omega)
    · exact slotsEmpty prepared (by rw [Nat.mul_div_cancel _ (positive d)])
    · rw [shapeFanout,path e he] at less
      exact slotsEmpty prepared ((Nat.le_div_iff_mul_le (positive e)).mpr (Nat.le_of_lt less))
  holds _ member := nomatch member
  behind _ member := nomatch member
  apart := .nil
  vacant a here mapped := by
    refine absurd mapped (notMapped (d := 0) (entriesGrounded _ _) (Nat.zero_le _) (fun e he => by omega) ?_)
    refine slotsEmpty prepared ?_
    rw [Nat.pow_zero,Nat.div_one]
    by_contra less
    have := (numberTop high).mp (Nat.lt_of_not_le less)
    omega
  earlier _ _ := rfl
  used := rfl
  framed _ member := nomatch member
  frames := .nil

theorem stagedLayout (low : 1 ≤ d) (high : d ≤ 3) (prepared : Prepared root m start)
    (run : Staged root fuel d m start s live) : ∃ p, Layout root d m start s live p := by
  induction run with
  | start => exact ⟨_,layoutStart high prepared⟩
  | map before fit call ih =>
    obtain ⟨p,layout⟩ := ih
    obtain ⟨val,address,result,cursor,frontier⟩ := runsReturned (layoutMapRuns prepared.few layout fit) call
    exact ⟨_,layoutMapped layout fit (startLater _ _ layout.sane.tree low layout.cursor) address fit.room result cursor frontier⟩
  | unmap before call ih =>
    obtain ⟨p,layout⟩ := ih
    obtain ⟨_,context,outcome⟩ := runsReturned (layoutUnmapRuns low high layout (by simp)) call
    exact ⟨p,layoutUnmapped low high layout context outcome⟩

theorem regionsFaithful (low : 1 ≤ d) (high : d ≤ 3) (long : 512 ≤ fuel) (prepared : Prepared root m start)
    (run : Staged root fuel d m start s live) :
    (∀ source bytes flags, Fit d m s source bytes flags →
      Runs (fun s : Machine σ => pool s.world) False (8 + demand source d (startOf d m s.context bytes flags) bytes)
        (fun s => perform fuel s (.map source bytes flags)) s fun v _ => v ≠ 0 ∧ v % span d = 0) ∧
    (∀ r ∈ live, Runs (fun s : Machine σ => pool s.world) False 0
      (fun s => perform fuel s (.unmap r.address r.bytes)) s fun v _ => v = 1) ∧
    live.Pairwise (fun r t => r.address + r.length d ≤ t.address ∨ t.address + t.length d ≤ r.address) ∧
    (∀ r ∈ live, ∀ a, r.Contains d a → s.translate root a = r.physical (a - r.address)) ∧
    (∀ a < 2^48, m ≤ a / 2^39 → (∀ r ∈ live, ¬ r.Contains d a) → s.translate root a = 0) ∧
    (∀ a < 2^48, a / 2^39 < m → s.translate root a = start.translate root a) ∧
    s.world.usedVirtualPages % 2^64 = (start.world.usedVirtualPages + livePages d live) % 2^64 ∧
    (∀ r ∈ live, r.source = .allocated → Framed d start s r) ∧ live.Pairwise (FramesDiffer d) := by
  obtain ⟨p,layout⟩ := stagedLayout low high prepared run
  have slot : ∀ a < 2^48, (a / 2^39 < m ↔ numberAt a d < m*512^d) := by
    intro a bound
    rw [← numberTop high,numberOf bound]
    rfl
  refine ⟨?_,?_,?_,?_,?_,?_,layout.used,layout.framed,layout.frames⟩
  · intro source bytes flags fit
    refine runsMono (layoutMapRuns prepared.few layout fit) (Nat.le_refl _) (by omega) ?_
    rintro v s' ⟨val,address,_⟩
    have later := startLater bytes flags layout.sane.tree low layout.cursor
    have past := cursorPast layout.cursor
    have positive : 0 < m*512^d := Nat.mul_pos prepared.some (Nat.pow_pos (by decide))
    subst address
    exact ⟨Nat.pos_iff_ne_zero.mp (Nat.mul_pos (by omega) (spanPositive d)),Nat.mul_mod_left _ _⟩
  · intro r member
    exact runsPost (layoutUnmapRuns low high layout member) fun v s' h => h.1
  · refine layout.apart.imp_of_mem fun {r t} hr ht away => ?_
    have first := regionStart (layout.holds r hr).aligned
    have second := regionStart (layout.holds t ht).aligned
    unfold Region.length
    rw [first,second,← Nat.add_mul,← Nat.add_mul]
    exact away.imp (Nat.mul_le_mul_right _) (Nat.mul_le_mul_right _)
  · intro r member a inside
    have reaches := (layout.holds r member).reaches (a - r.address) (by have := inside.2; have := inside.1; omega)
    rw [show r.address + (a - r.address) = a by have := inside.1; omega] at reaches
    unfold Machine.translate
    rw [translation]
    exact reaches
  · intro a bound beyond none
    unfold Machine.translate
    rw [translation]
    refine resolveNone fun mapped => ?_
    have here : m*512^d ≤ numberAt a d := by
      have := slot a bound
      omega
    obtain ⟨r,member,within⟩ := layout.vacant a here mapped
    exact none r member ((regionContains (layout.holds r member).aligned bound).mpr within)
  · intro a bound before
    exact layout.earlier a ((slot a bound).mp before)

end

theorem slotTaken {σ : Type} [PageAllocator σ] {root fuel target bytes flags v : Nat} {source : Source} {s s' : Machine σ}
    (sane : Sane root s) (orderly : Orderly root s (.mapAt source target bytes flags))
    (call : perform fuel s (.mapAt source target bytes flags) = .ok (v,s')) (zero : ∀ k, s.entries root 0 k = 0)
    (within : (numberAt target (depthOf flags) + blocks (depthOf flags) bytes) / 512^depthOf flags = 0)
    (some : s'.entries root 0 0 ≠ 0) : ∀ k < 512, s'.entries root 0 k ≠ 0 ↔ k < 1 := by
  intro k _
  cases performed sane orderly call with
  | mappedAt _ result _ _ =>
    constructor
    · intro taken
      rcases result.filled.above 0 k (depthCases flags).1 with same | ⟨_,_,j,few,path⟩
      · exact absurd (same.trans (zero k)) taken
      · have le : (numberAt target (depthOf flags) + j) / 512^depthOf flags ≤
            (numberAt target (depthOf flags) + blocks (depthOf flags) bytes) / 512^depthOf flags :=
          Nat.div_le_div_right (Nat.add_le_add_left (Nat.le_trans few result.few) _)
        rw [shapeFanout,Nat.sub_zero] at path
        omega
    · intro first
      rwa [show k = 0 by omega]

theorem regionsTwoPages : ∃ s0 s1 s2 s, perform 512 (blank false) (.mapAt (.physical 0x50000) 0x3000 4096 2) = .ok (0x3000,s0) ∧
    perform 512 s0 (.map (.physical 0x60000) 8192 2) = .ok (0x8000000000,s1) ∧
    perform 512 s1 (.map .allocated 4096 2) = .ok (0x8000002000,s2) ∧
    perform 512 s2 (.unmap 0x8000000000 8192) = .ok (1,s) ∧
    s2.translate 0x1000 0x8000001004 = 0x61004 ∧ s.translate 0x1000 0x8000001004 = 0 ∧
    (∃ page, HandedOut s0 s page ∧ s.translate 0x1000 0x8000002004 = page + 4) ∧
    s.translate 0x1000 0x3000 = s0.translate 0x1000 0x3000 := by
  have runs : returns (perform 512 (blank false) (.mapAt (.physical 0x50000) 0x3000 4096 2)) (fun v s0 =>
      returns (perform 512 s0 (.map (.physical 0x60000) 8192 2)) fun v1 s1 =>
        returns (perform 512 s1 (.map .allocated 4096 2)) fun v2 s2 =>
          returns (perform 512 s2 (.unmap 0x8000000000 8192)) fun v3 _ =>
            decide (v = 0x3000 ∧ v1 = 0x8000000000 ∧ v2 = 0x8000002000 ∧ v3 = 1 ∧ s0.context = nullContext 0x1000 ∧
              s0.entries 0x1000 0 0 ≠ 0 ∧ startOf 3 1 s1.context 4096 2 + blocks 3 4096 < 512^4)) = true := by
    decide +kernel
  obtain ⟨v,s0,first,rest⟩ := returnsOk runs
  obtain ⟨v1,s1,second,rest⟩ := returnsOk rest
  obtain ⟨v2,s2,third,rest⟩ := returnsOk rest
  obtain ⟨v3,s,last,facts⟩ := returnsOk rest
  obtain ⟨rfl,rfl,rfl,rfl,null,used,room⟩ := of_decide_eq_true facts
  have sane := effectSane (blankSane false) (performed (blankSane false) blankOrderly first)
  have slots := slotTaken (blankSane false) blankOrderly first (blankZero 0) (by decide) used
  have prepared : Prepared 0x1000 1 s0 := ⟨sane,null,slots,by decide,by decide⟩
  have given : Fit 3 1 s0 (.physical 0x60000) 8192 2 := by
    refine ⟨rfl,by decide,by decide,⟨by decide,by decide,fun h => by omega⟩,?_⟩
    rw [null]
    decide
  have own : Fit 3 1 s1 .allocated 4096 2 := ⟨rfl,by decide,by decide,rfl,room⟩
  have both : Staged 0x1000 512 3 1 s0 s2 ([⟨0x8000002000,4096,.allocated,Source.allocated.reaches 0x1000 s2 0x8000002000⟩] ++
      ⟨0x8000000000,8192,.physical 0x60000,fun o => 0x60000+o⟩ :: []) := .map (.map .start given second) own third
  obtain ⟨_,_,_,before,_⟩ := regionsFaithful (by decide) (by decide) (by decide) prepared both
  obtain ⟨_,_,_,reach,vacant,earlier,_,framed,_⟩ :=
    regionsFaithful (by decide) (by decide) (by decide) prepared (.unmap both last)
  refine ⟨s0,s1,s2,s,first,second,third,last,?_,?_,?_,earlier _ (by decide) (by decide)⟩
  · have inside : 0x8000000000 ≤ 0x8000001004 ∧ 0x8000001004 < 0x8000000000 + blocks 3 8192 * span 3 := by decide
    exact before _ (List.mem_cons_of_mem _ List.mem_cons_self) _ inside
  · refine vacant _ (by decide) (by decide) fun r member inside => ?_
    rw [List.mem_singleton.mp member] at inside
    exact absurd inside.1 (show ¬ 0x8000002000 ≤ 0x8000001004 by decide)
  · obtain ⟨r,same⟩ : ∃ r : Region, r = ⟨0x8000002000,4096,.allocated,Source.allocated.reaches 0x1000 s2 0x8000002000⟩ := ⟨_,rfl⟩
    rw [← same] at reach framed
    have address : r.address = 0x8000002000 := by rw [same]
    have count : r.count 3 = 1 := by rw [same]; exact (by decide : blocks 3 4096 = 1)
    have frames := framed r List.mem_cons_self (by rw [same])
    have reaches := reach r List.mem_cons_self 0x8000002004 (by
      unfold Region.Contains Region.length
      rw [address,count]
      decide)
    rw [address] at reaches
    exact ⟨_,frames.frame 0 (by omega),reaches.trans (frames.whole 0 (by omega) 4 (by decide))⟩

end Kokos.Paging

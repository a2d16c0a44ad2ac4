import Kokos.PagingEntries

/-! The page tables under one level-4 table, and what the primitive accesses of
paging.c do to them. -/
namespace Kokos.Paging
open ByteMemory BudgetedCalls RadixTables

variable {σ : Type} [PageAllocator σ]

structure Tree (w : World σ) (root : Nat) : Prop where
  separate : Separate shape root (entries w.memory root)
  linked : ∀ d q g, tab shape root (entries w.memory root) d q = some g → g ∈ w.tables
  tables : ∀ g ∈ w.tables, IsPage g ∧ PageAllocator.Taken w.allocator g
  inside : ∀ a ∈ w.accesses, ∃ t ∈ w.tables, t ≤ a.1 ∧ a.1+a.2 ≤ t+4096

/-- What work on the tables under `root` does to the rest of the machine: new tables
are pages that were free, and a page in use that is no table of the tree keeps its words.
All new links are made alike. -/
structure Evolves (root : Nat) (w w' : World σ) : Prop where
  taken : ∀ p, PageAllocator.Taken w.allocator p → PageAllocator.Taken w'.allocator p
  older : ∀ t ∈ w.tables, t ∈ w'.tables
  newer : ∀ t ∈ w'.tables, t ∈ w.tables ∨ ¬ PageAllocator.Taken w.allocator t
  own : ∀ d q g, tab shape root (entries w'.memory root) d q = some g →
    (∃ e r, tab shape root (entries w.memory root) e r = some g) ∨ ¬ PageAllocator.Taken w.allocator g
  rest : ∀ f, IsPage f → PageAllocator.Taken w.allocator f →
    (∀ d q, tab shape root (entries w.memory root) d q ≠ some f) →
    ∀ i < 512, row w'.memory f i = row w.memory f i
  made : ∀ d n g, shape.link d (entries w'.memory root d n) = some g →
    entries w'.memory root d n = entries w.memory root d n ∨
      entries w'.memory root d n = g ||| entryWritable ||| entryPresent
  huge : w'.hugepagesSupported = w.hugepagesSupported

structure Written (root : Nat) (w w' : World σ) (E : Nat → Nat → Nat) (new : List Nat) : Prop where
  tree : Tree w' root
  shows : entries w'.memory root = E
  evolves : Evolves root w w'
  used : w'.usedVirtualPages = w.usedVirtualPages
  frames : w'.frames = new ++ w.frames

abbrev After (root : Nat) (w w' : World σ) (E : Nat → Nat → Nat) : Prop := Written root w w' E []

def pool (w : World σ) : Nat := PageAllocator.available w.allocator

theorem entryOfTable {m : Memory} {root k n t : Nat} (table : tab shape root (entries m root) k (n/512) = some t) :
    row m t (n % 512) = entries m root k n := by
  have found := (tableAtTab (row m) root k (n/512)).trans table
  simp only [entries,entryAt,shapeFanout,found]

section
variable {root : Nat} {w w' w'' : World σ} {E E' : Nat → Nat → Nat}

theorem evolvesKept (memory : w'.memory = w.memory) (tables : w'.tables = w.tables)
    (taken : ∀ p, PageAllocator.Taken w.allocator p → PageAllocator.Taken w'.allocator p)
    (huge : w'.hugepagesSupported = w.hugepagesSupported) : Evolves root w w' where
  taken := taken
  older _ h := tables ▸ h
  newer _ h := Or.inl (tables ▸ h)
  own d q _ h := Or.inl ⟨d,q,memory ▸ h⟩
  rest _ _ _ _ _ _ := by rw [memory]
  made _ _ _ _ := Or.inl (by rw [memory])
  huge := huge

theorem evolvesRefl (root : Nat) (w : World σ) : Evolves root w w := evolvesKept rfl rfl (fun _ h => h) rfl

theorem evolvesTrans (first : Evolves root w w') (second : Evolves root w' w'') : Evolves root w w'' where
  taken p h := second.taken p (first.taken p h)
  older t h := second.older t (first.older t h)
  newer t h := by
    rcases second.newer t h with old | free
    · exact first.newer t old
    · exact Or.inr fun h => free (first.taken t h)
  own d q g h := by
    rcases second.own d q g h with ⟨e,r,old⟩ | free
    · exact first.own e r g old
    · exact Or.inr fun h => free (first.taken g h)
  rest f page taken outside i hi := by
    have still : ∀ d q, tab shape root (entries w'.memory root) d q ≠ some f := by
      intro d q h
      rcases first.own d q f h with ⟨e,r,old⟩ | free
      · exact outside e r old
      · exact free taken
    rw [second.rest f page (first.taken f taken) still i hi,first.rest f page taken outside i hi]
  made d n g h := by
    rcases second.made d n g h with same | new
    · rcases first.made d n g (same ▸ h) with old | new
      · exact Or.inl (same.trans old)
      · exact Or.inr (same.trans new)
    · exact Or.inr new
  huge := second.huge.trans first.huge

theorem apartEvolves (evolves : Evolves root w w') {p : Nat} (apart : PageAllocator.Taken w.allocator p ∧ p ∉ w.tables) :
    PageAllocator.Taken w'.allocator p ∧ p ∉ w'.tables := by
  refine ⟨evolves.taken p apart.1,fun member => ?_⟩
  rcases evolves.newer p member with old | free
  · exact apart.2 old
  · exact free apart.1

theorem afterRefl (tree : Tree w root) : After root w w (entries w.memory root) :=
  ⟨tree,rfl,evolvesRefl root w,rfl,rfl⟩

theorem afterTrans (first : After root w w' E) (second : After root w' w'' E') : After root w w'' E' :=
  ⟨second.tree,second.shows,evolvesTrans first.evolves second.evolves,second.used.trans first.used,second.frames.trans first.frames⟩

theorem treePage (tree : Tree w root) {d q t : Nat} (table : tab shape root (entries w.memory root) d q = some t) :
    IsPage t ∧ PageAllocator.Taken w.allocator t := tree.tables t (tree.linked d q t table)

theorem treeBlank (zero : ∀ d n, entries w.memory root d n = 0) (member : root ∈ w.tables)
    (tables : ∀ g ∈ w.tables, IsPage g ∧ PageAllocator.Taken w.allocator g)
    (inside : ∀ a ∈ w.accesses, ∃ t ∈ w.tables, t ≤ a.1 ∧ a.1+a.2 ≤ t+4096) : Tree w root := by
  have only : ∀ d q t, tab shape root (entries w.memory root) d q = some t → d = 0 ∧ q = 0 ∧ t = root := by
    intro d q t found
    cases d with
    | zero =>
      simp only [tab] at found
      split at found
      · rename_i first
        exact ⟨rfl,first,(Option.some.inj found).symm⟩
      · cases found
    | succ d =>
      simp only [tab,zero,linkZero] at found
      cases found
  refine ⟨?_,?_,tables,inside⟩
  · intro d q e r t left right
    obtain ⟨d0,q0,_⟩ := only d q t left
    obtain ⟨e0,r0,_⟩ := only e r t right
    exact ⟨d0.trans e0.symm,q0.trans r0.symm⟩
  · intro d q t found
    rw [(only d q t found).2.2]
    exact member

theorem rowWrite (m : Memory) {t i f j : Nat} (v : Nat) (ht : t % 4096 = 0) (hf : f % 4096 = 0) (hi : i < 512)
    (hj : j < 512) (other : ¬ (f = t ∧ j = i)) : row (writeWord m (t+8*i) v) f j = row m f j := by
  apply readWriteOther
  omega

theorem rowZero (m : Memory) {t f j : Nat} (ht : t % 4096 = 0) (hf : f % 4096 = 0) (hj : j < 512) :
    row (zeroBytes m t 4096) f j = if f = t then 0 else row m f j := by
  by_cases same : f = t
  · subst same
    rw [if_pos rfl]
    exact readZeroSame m (by omega)
  · rw [if_neg same]
    exact readZeroOther m (by omega)

theorem afterWrite {k n t v : Nat} {new : List Nat} (tree : Tree w root)
    (table : tab shape root (entries w.memory root) k (n/512) = some t)
    (keeps : ∀ p, PageAllocator.Taken w.allocator p → PageAllocator.Taken w'.allocator p)
    (tables : w'.tables = new ++ w.tables)
    (fresh : ∀ g ∈ new, IsPage g ∧ ¬ PageAllocator.Taken w.allocator g ∧ PageAllocator.Taken w'.allocator g)
    (link : ∀ g, shape.link k v = some g → g ∈ new ∧ v = g ||| entryWritable ||| entryPresent)
    (same : ∀ f, IsPage f → PageAllocator.Taken w.allocator f → ∀ j < 512, ¬ (f = t ∧ j = n % 512) →
      row w'.memory f j = row w.memory f j)
    (value : row w'.memory t (n % 512) = v) (blank : ∀ g ∈ new, ∀ j < 512, row w'.memory g j = 0)
    (inside : ∀ a ∈ w'.accesses, ∃ t ∈ w'.tables, t ≤ a.1 ∧ a.1+a.2 ≤ t+4096)
    (huge : w'.hugepagesSupported = w.hugepagesSupported) (used : w'.usedVirtualPages = w.usedVirtualPages)
    (frames : w'.frames = w.frames) : After root w w' (put shape (entries w.memory root) k n v) := by
  have member : ∀ g, g ∈ w'.tables ↔ g ∈ new ∨ g ∈ w.tables := by
    intro g; rw [tables,List.mem_append]
  have shows : entries w'.memory root = put shape (entries w.memory root) k n v := by
    have number : n/512*512 + n%512 = n := by omega
    have written : entryAt shape (row w'.memory) root =
        put shape (entryAt shape (row w.memory) root) k (n/512*512 + n%512) v :=
      entryAtWrite tree.separate ((tableAtTab (row w.memory) root k (n/512)).trans table)
        (Nat.mod_lt n shape.positive)
        (fun d r h found j hj away => by
          have page := treePage tree ((tableAtTab (row w.memory) root d r).symm.trans found)
          exact same h page.1 page.2 j hj away)
        value (fun g linked j hj => blank g (link g linked).1 j hj)
    rwa [number] at written
  have own : ∀ d q g, tab shape root (entries w'.memory root) d q = some g →
      tab shape root (entries w.memory root) d q = some g ∨ g ∈ new := by
    intro d q g h
    rw [shows] at h
    rcases tabPut h with ⟨old,_⟩ | ⟨_,_,linked⟩
    · exact Or.inl old
    · exact Or.inr (link g linked).1
  refine ⟨⟨?_,?_,?_,inside⟩,shows,⟨keeps,?_,?_,?_,?_,?_,huge⟩,used,frames⟩
  · rw [shows]
    refine separatePut tree.separate ?_
    intro g linked d q found
    exact (fresh g (link g linked).1).2.1 (treePage tree found).2
  · intro d q g h
    rw [member]
    rcases own d q g h with old | h
    · exact Or.inr (tree.linked d q g old)
    · exact Or.inl h
  · intro g h
    rcases (member g).mp h with h | h
    · exact ⟨(fresh g h).1,(fresh g h).2.2⟩
    · exact ⟨(tree.tables g h).1,keeps g (tree.tables g h).2⟩
  · exact fun t h => (member t).mpr (Or.inr h)
  · intro g h
    rcases (member g).mp h with h | h
    · exact Or.inr (fresh g h).2.1
    · exact Or.inl h
  · intro d q g h
    rcases own d q g h with old | h
    · exact Or.inl ⟨d,q,old⟩
    · exact Or.inr (fresh g h).2.1
  · intro f page taken outside i hi
    refine same f page taken i hi ?_
    rintro ⟨rfl,_⟩
    exact outside k (n/512) table
  · intro d q g h
    rw [shows] at h ⊢
    rcases tabPut (d := d+1) (show tab shape root _ (d+1) q = some g from h) with ⟨_,away⟩ | ⟨level,rfl,linked⟩
    · refine Or.inl (putOther _ v (by omega) fun under => ?_)
      rw [putBelow _ v under.1 under.2,linkZero] at h
      cases h
    · obtain rfl : d = k := Nat.succ.inj level
      rw [putSame]
      exact Or.inr (link g linked).2

theorem treeAccess (tree : Tree w root) {k q t i : Nat} (hi : i < 512)
    (table : tab shape root (entries w.memory root) k q = some t) :
    ∀ a ∈ (t+8*i,8) :: w.accesses, ∃ t ∈ w.tables, t ≤ a.1 ∧ a.1+a.2 ≤ t+4096 := by
  intro a member
  rcases List.mem_cons.mp member with rfl | old
  · exact ⟨t,tree.linked k q t table,Nat.le_add_right _ _,by dsimp only; omega⟩
  · exact tree.inside a old

variable {short : Prop} {k n t : Nat}

theorem loadRuns (tree : Tree w root) (table : tab shape root (entries w.memory root) k (n/512) = some t) :
    Runs pool short 0 (load t (n % 512)) w fun v w' =>
      v = entries w.memory root k n ∧ After root w w' (entries w.memory root) := by
  refine ⟨⟨entryOfTable table,?_,rfl,?_,rfl,rfl⟩,Nat.le_refl _⟩
  · exact ⟨tree.separate,tree.linked,tree.tables,treeAccess tree (Nat.mod_lt _ (by decide)) table⟩
  · exact evolvesKept rfl rfl (fun _ h => h) rfl

theorem storeRuns (tree : Tree w root) (table : tab shape root (entries w.memory root) k (n/512) = some t)
    {v : Nat} (bound : v < 2^64) (noLink : shape.link k v = none) :
    Runs pool short 0 (store t (n % 512) v) w fun _ w' =>
      After root w w' (put shape (entries w.memory root) k n v) := by
  have aligned := (treePage tree table).1.1
  have inside : n % 512 < 512 := Nat.mod_lt _ (by decide)
  refine ⟨?_,Nat.le_refl _⟩
  refine afterWrite tree table (fun _ h => h) (List.nil_append _).symm (by simp) ?_ ?_ ?_ (by simp)
    (treeAccess tree inside table) rfl rfl rfl
  · intro g linked
    rw [noLink] at linked
    contradiction
  · intro f page _ j hj away
    exact rowWrite w.memory v aligned page.1 inside hj away
  · exact readWriteSame w.memory _ bound

theorem allocateRuns (tree : Tree w root) :
    Runs pool short 1 memoryPhysicalAllocate w fun page w' =>
      IsPage page ∧ ¬ PageAllocator.Taken w.allocator page ∧ PageAllocator.Taken w'.allocator page ∧
        w'.tables = w.tables ∧ After root w w' (entries w.memory root) := by
  unfold Runs memoryPhysicalAllocate
  cases drawn : PageAllocator.allocate w.allocator with
  | none =>
    have empty := PageAllocator.empty drawn
    dsimp only
    unfold pool
    omega
  | some pair =>
    obtain ⟨g,s⟩ := pair
    obtain ⟨free,held⟩ := PageAllocator.fresh drawn
    have keeps := PageAllocator.keeps drawn
    refine ⟨⟨PageAllocator.isPage drawn,free,held,rfl,⟨tree.separate,tree.linked,?_,tree.inside⟩,rfl,?_,rfl,rfl⟩,
      PageAllocator.spends drawn⟩
    · intro t member
      exact ⟨(tree.tables t member).1,keeps t (tree.tables t member).2⟩
    · exact evolvesKept rfl rfl keeps rfl

theorem newTableRuns (tree : Tree w root) (inner : k < 3)
    (table : tab shape root (entries w.memory root) k (n/512) = some t) :
    Runs pool short 1 (newTable t (n % 512)) w fun g w' =>
      ∃ v, shape.link k v = some g ∧ After root w w' (put shape (entries w.memory root) k n v) := by
  have aligned := (treePage tree table).1.1
  have inside : n % 512 < 512 := Nat.mod_lt _ (by decide)
  unfold Runs
  cases drawn : PageAllocator.allocate w.allocator with
  | none =>
    have empty := PageAllocator.empty drawn
    simp only [newTable,memoryPhysicalAllocate,bind,StateT.bind,Except.bind,drawn]
    unfold pool
    omega
  | some pair =>
    obtain ⟨g,s⟩ := pair
    have page : IsPage g := PageAllocator.isPage drawn
    obtain ⟨free,held⟩ := PageAllocator.fresh drawn
    obtain ⟨linked,bound⟩ := linkPage page inner
    simp only [newTable,memoryPhysicalAllocate,recordTable,memoryZero,store,bind,StateT.bind,Except.bind,drawn]
    show (∃ v, shape.link k v = some g ∧ After root w _ (put shape (entries w.memory root) k n v)) ∧ _
    refine ⟨⟨_,linked,?_⟩,PageAllocator.spends drawn⟩
    refine afterWrite tree table (PageAllocator.keeps drawn) (List.singleton_append (x := g)).symm ?_ ?_ ?_ ?_ ?_ ?_ rfl rfl rfl
    · intro h member
      rw [List.mem_singleton] at member
      rw [member]
      exact ⟨page,free,held⟩
    · intro h found
      rw [linked] at found
      cases Option.some.inj found
      exact ⟨List.mem_singleton.mpr rfl,rfl⟩
    · intro f other taken j hj away
      have apart : f ≠ g := fun same => free (same ▸ taken)
      dsimp only
      rw [rowWrite _ _ aligned other.1 inside hj away,rowZero w.memory page.1 other.1 hj,if_neg apart]
    · exact readWriteSame _ _ bound
    · intro h member j hj
      rw [List.mem_singleton] at member
      rw [member]
      have apart : g ≠ t := fun same => free (same ▸ (treePage tree table).2)
      dsimp only
      rw [rowWrite _ _ aligned page.1 inside hj (fun both => apart both.1),rowZero w.memory page.1 page.1 hj,if_pos rfl]
    · intro a member
      simp only [List.mem_cons] at member
      rcases member with rfl | rfl | old
      · exact ⟨t,List.mem_cons_of_mem _ (tree.linked _ _ t table),Nat.le_add_right _ _,by dsimp only; omega⟩
      · exact ⟨g,List.mem_cons_self,Nat.le_refl _,Nat.le_refl _⟩
      · obtain ⟨t,member,span⟩ := tree.inside a old
        exact ⟨t,List.mem_cons_of_mem _ member,span⟩

theorem maskedEntry (tree : Tree w root) (clear : shape.leaf k (entries w.memory root k n) = false) :
    (entries w.memory root k n &&& addressMask = 0 ↔ entries w.memory root k n = 0) ∧
      (entries w.memory root k n ≠ 0 →
        tab shape root (entries w.memory root) (k+1) n = some (entries w.memory root k n &&& addressMask)) := by
  have linked : entries w.memory root k n ≠ 0 →
      tab shape root (entries w.memory root) (k+1) n = some (entries w.memory root k n &&& addressMask) :=
    fun nonzero => linkOf nonzero clear
  refine ⟨⟨?_,?_⟩,linked⟩
  · intro null
    by_contra nonzero
    have page := (treePage tree (linked nonzero)).1
    rw [null] at page
    exact absurd page.2.1 (by decide)
  · intro zero
    rw [zero]
    rfl

theorem enterTableRuns {cost : Nat} (tree : Tree w root) (inner : k < 3)
    (table : tab shape root (entries w.memory root) k (n/512) = some t)
    (clear : shape.leaf k (entries w.memory root k n) = false)
    (pays : entries w.memory root k n = 0 → 1 ≤ cost) {p : Nat} (below : p/512 = n) :
    Runs pool short cost (enterTable t (n % 512)) w fun g w' =>
      After root w w' (entries w'.memory root) ∧
      Opened shape (entries w.memory root) (entries w'.memory root) (k+1) p ∧
      tab shape root (entries w'.memory root) (k+1) n = some g := by
  refine runsFree (loadRuns tree table) ?_
  rintro v w1 ⟨rfl,after⟩
  obtain ⟨null,link⟩ := maskedEntry tree clear
  refine runsIf (fun zero => ?_) (fun nonzero => ?_)
  · have empty := null.mp zero
    refine runsCost (runsPost (newTableRuns after.tree inner (after.shows ▸ table)) ?_) (pays empty)
    rintro g w2 ⟨v,linked,after'⟩
    have both := afterTrans after after'
    rw [after.shows] at both
    rw [both.shows]
    refine ⟨both,?_,?_⟩
    · have path : n = p / shape.fanout^(k+1-k) := by simp [below]
      rw [path] at empty ⊢
      exact openedPut (entriesGrounded _ _) (Nat.lt_succ_self k) empty (by rw [linked]; rfl)
    · simp only [tab,putSame,linked]
  · refine runsCost (runsPure ?_) (Nat.zero_le _)
    rw [after.shows]
    refine ⟨after,filledNone _ _ _,link fun zero => nonzero (null.mpr zero)⟩

theorem enterRuns {mode : Mode} {cost : Nat} (creates : mode ≠ .unmap) (tree : Tree w root) (inner : k < 3)
    (table : tab shape root (entries w.memory root) k (n/512) = some t)
    (clear : shape.leaf k (entries w.memory root k n) = false)
    (pays : entries w.memory root k n = 0 → 1 ≤ cost) {p : Nat} (below : p/512 = n) :
    Runs pool short cost (enter mode t (n % 512)) w fun r w' => ∃ g, r = some g ∧
      After root w w' (entries w'.memory root) ∧
      Opened shape (entries w.memory root) (entries w'.memory root) (k+1) p ∧
      tab shape root (entries w'.memory root) (k+1) n = some g := by
  unfold enter
  rw [if_neg creates]
  exact runsBind (d := 0) (enterTableRuns tree inner table clear pays below) fun g _ h => runsPure ⟨g,rfl,h⟩

theorem enterUnmapRuns (tree : Tree w root) (table : tab shape root (entries w.memory root) k (n/512) = some t)
    (clear : shape.leaf k (entries w.memory root k n) = false) :
    Runs pool short 0 (enter .unmap t (n % 512)) w fun r w' =>
      r = tab shape root (entries w.memory root) (k+1) n ∧ After root w w' (entries w.memory root) := by
  unfold enter
  rw [if_pos rfl]
  refine runsBind (c := 0) (d := 0) (loadRuns tree table) ?_
  rintro v w1 ⟨rfl,after⟩
  obtain ⟨null,link⟩ := maskedEntry tree clear
  refine runsPure ⟨?_,after⟩
  split
  · rename_i zero
    simp only [tab,null.mp zero,linkZero]
  · rename_i nonzero
    exact (link fun zero => nonzero (null.mpr zero)).symm

end

end Kokos.Paging

import Kokos.PagingCursor

/-! The map and unmap loops. One lemma covers all seven: a loop is given by what it
puts into each entry and by how it steps to the next one. -/
namespace Kokos.Paging
open BudgetedCalls RadixTables

variable {σ : Type} [PageAllocator σ]

/-- A step of depth `d`: from entry `n` to entry `n+1` where `Pre` holds of it, and then
`Arrived` does, or to a stop where `Blocked` holds of it. The tables it has entered up to `n`
cost `toll n` pages. -/
structure Steps (root d : Nat) (step : PagingContext → Kernel σ (Bool × PagingContext)) (toll : Nat → Nat)
    (Pre Arrived Blocked : (Nat → Nat → Nat) → Nat → Prop) : Prop where
  mono : ∀ n, toll n ≤ toll (n+1)
  run : ∀ {w : World σ} {c n short}, Tree w root → Points root (entries w.memory root) c d n →
    (n+1 < 512^(d+1) → Pre (entries w.memory root) (n+1)) →
    Runs pool short (toll (n+1) - toll n) (step c) w fun r w' =>
      r.1 = true ∧ Moved root d (n+1) c r.2 w w' ∧ Arrived (entries w.memory root) (n+1) ∧
        (∀ p, Arrived (entries w'.memory root) p → Arrived (entries w.memory root) p) ∨
      r.1 = false ∧ After root w w' (entries w.memory root) ∧ Blocked (entries w.memory root) (n+1) ∧
        r.2.level4Table = root
  keepsPut : ∀ {E n v p}, Pre E p → Pre (put shape E d n v) p
  keepsOpened : ∀ {E E' n p}, Opened shape E E' d n → n < p → Pre E p → Pre E' p
  beforePut : ∀ {E n v p}, Arrived (put shape E d n v) p → Arrived E p

structure Puts (root d : Nat) (act : Nat → PagingContext → Kernel σ Unit) (unit : Nat) (new : Nat → List Nat)
    (V : Nat → Nat → World σ → World σ → Prop) : Prop where
  run : ∀ {w : World σ} {c n i short}, Tree w root → Points root (entries w.memory root) c d n →
    Runs pool short unit (act i c) w fun _ w' =>
      ∃ v, Written root w w' (put shape (entries w.memory root) d n v) (new v) ∧ V i v w w'
  widen : ∀ {i v w0 w w' w2}, Evolves root w0 w → V i v w w' → Evolves root w' w2 → V i v w0 w2

structure Looped (root d n m i done : Nat) (new : Nat → List Nat) (Arrived Blocked : (Nat → Nat → Nat) → Nat → Prop)
    (V : Nat → Nat → World σ → World σ → Prop) (val : Nat → Nat) (c : PagingContext) (w w' : World σ)
    (r : Bool × PagingContext) : Prop where
  tree : Tree w' root
  evolves : Evolves root w w'
  filled : Filled shape (entries w.memory root) (entries w'.memory root) d n done val
  values : ∀ j < done, V (i+j) (val j) w w'
  apart : ∀ j k, j < k → k < done → ∃ mid, V (i+j) (val j) w mid ∧ V (i+k) (val k) mid w'
  frames : ∀ f, f ∈ w'.frames ↔ f ∈ w.frames ∨ ∃ j < done, f ∈ new (val j)
  few : done ≤ m
  arrived : ∀ j, 1 ≤ j → j < done → Arrived (entries w.memory root) (n+j)
  goes : r.1 = true → done = m ∧ Points root (entries w'.memory root) r.2 d (n+m) ∧ SameBelow d c r.2
  stops : r.1 = false → 0 < done ∧ Blocked (entries w'.memory root) (n+done) ∧ r.2.level4Table = root

section
variable {root d : Nat} {step : PagingContext → Kernel σ (Bool × PagingContext)} {toll : Nat → Nat}
  {Pre Arrived Blocked : (Nat → Nat → Nat) → Nat → Prop} {act : Nat → PagingContext → Kernel σ Unit} {unit : Nat}
  {new : Nat → List Nat} {V : Nat → Nat → World σ → World σ → Prop} {short : Prop}

theorem stepsMono (steps : Steps root d step toll Pre Arrived Blocked) {n m : Nat} (le : n ≤ m) : toll n ≤ toll m := by
  induction le with
  | refl => exact Nat.le_refl _
  | step _ ih => exact Nat.le_trans ih (steps.mono _)

def prepend (v : Nat) (val : Nat → Nat) : Nat → Nat
  | 0 => v
  | j+1 => val j

theorem arrivedShift {A : Nat → Prop} {n m : Nat} (first : A (n+1)) (rest : ∀ i, 1 ≤ i → i < m → A (n+1+i)) {j : Nat}
    (low : 1 ≤ j) (high : j < m+1) : A (n+j) := by
  by_cases one : j = 1
  · rw [one]
    exact first
  · have there := rest (j-1) (by omega) (by omega)
    rwa [show n+1+(j-1) = n+j by omega] at there

theorem loopedPass (puts : Puts root d act unit new V) {w w1 w2 w3 : World σ} {c c1 : PagingContext} {n m i done v : Nat}
    {val : Nat → Nat} {r : Bool × PagingContext} (written : Written root w w1 (put shape (entries w.memory root) d n v) (new v))
    (held : V i v w w1) (moved : Moved root d (n+1) c c1 w1 w2)
    (arrived : Arrived (entries w.memory root) (n+1))
    (before : ∀ p, Arrived (entries w2.memory root) p → Arrived (entries w.memory root) p)
    (looped : Looped root d (n+1) m (i+1) done new Arrived Blocked V val c1 w2 w3 r) :
    Looped root d n (m+1) i (done+1) new Arrived Blocked V (prepend v val) c w w3 r where
  tree := looped.tree
  evolves := evolvesTrans (evolvesTrans written.evolves moved.after.evolves) looped.evolves
  filled := by
    have first := filledPut (S := shape) (entries w.memory root) d n v
    rw [← written.shows] at first
    have head : Filled shape (entries w.memory root) (entries w2.memory root) d n 1 (prepend v val) := by
      refine filledCongr (filledThenOpened first moved.opened) ?_
      intro j hj
      obtain rfl : j = 0 := by omega
      rfl
    rw [Nat.add_comm done 1]
    refine filledAppend head (filledCongr looped.filled ?_)
    intro j _
    rw [Nat.add_comm 1 j]
    rfl
  values j hj := by
    cases j with
    | zero => exact puts.widen (evolvesRefl _ _) held (evolvesTrans moved.after.evolves looped.evolves)
    | succ j =>
      have inner := looped.values j (by omega)
      rw [show i+1+j = i+(j+1) by omega] at inner
      exact puts.widen (evolvesTrans written.evolves moved.after.evolves) inner (evolvesRefl _ _)
  apart j k less high := by
    obtain ⟨k,rfl⟩ : ∃ k', k = k'+1 := ⟨k-1,by omega⟩
    cases j with
    | zero =>
      have inner := looped.values k (by omega)
      rw [show i+1+k = i+(k+1) by omega] at inner
      exact ⟨w2,puts.widen (evolvesRefl _ _) held moved.after.evolves,inner⟩
    | succ j =>
      obtain ⟨mid,left,right⟩ := looped.apart j k (by omega) (by omega)
      rw [show i+1+j = i+(j+1) by omega] at left
      rw [show i+1+k = i+(k+1) by omega] at right
      exact ⟨mid,puts.widen (evolvesTrans written.evolves moved.after.evolves) left (evolvesRefl _ _),right⟩
  frames f := by
    rw [looped.frames,moved.after.frames,List.nil_append,written.frames,List.mem_append]
    constructor
    · rintro ((drawn | old) | ⟨j,hj,drawn⟩)
      · exact Or.inr ⟨0,Nat.succ_pos _,drawn⟩
      · exact Or.inl old
      · exact Or.inr ⟨j+1,Nat.succ_lt_succ hj,drawn⟩
    · rintro (old | ⟨j,hj,drawn⟩)
      · exact Or.inl (Or.inr old)
      · cases j with
        | zero => exact Or.inl (Or.inl drawn)
        | succ j => exact Or.inr ⟨j,Nat.lt_of_succ_lt_succ hj,drawn⟩
  few := Nat.succ_le_succ looped.few
  arrived j low high := arrivedShift arrived (fun i low high => before _ (looped.arrived i low high)) low high
  goes ok := by
    obtain ⟨all,there,below⟩ := looped.goes ok
    rw [show n+(m+1) = n+1+m by omega]
    exact ⟨by omega,there,sameBelowTrans moved.lower below (Nat.le_refl _) (Nat.le_refl _)⟩
  stops failed := by
    obtain ⟨_,blocked⟩ := looped.stops failed
    rw [show n+(done+1) = n+1+done by omega]
    exact ⟨by omega,blocked⟩

theorem loopedLast (puts : Puts root d act unit new V) {w w1 w2 : World σ} {c c1 : PagingContext} {n m i v : Nat}
    (written : Written root w w1 (put shape (entries w.memory root) d n v) (new v)) (held : V i v w w1)
    (same : After root w1 w2 (entries w1.memory root)) (blocked : Blocked (entries w1.memory root) (n+1))
    (table4 : c1.level4Table = root) : Looped root d n (m+1) i 1 new Arrived Blocked V (fun _ => v) c w w2 (false,c1) where
  tree := same.tree
  evolves := evolvesTrans written.evolves same.evolves
  filled := by
    rw [same.shows,written.shows]
    exact filledPut (S := shape) (entries w.memory root) d n v
  values j hj := by
    obtain rfl : j = 0 := by omega
    exact puts.widen (evolvesRefl _ _) held same.evolves
  apart j k less high := by omega
  frames f := by
    rw [same.frames,List.nil_append,written.frames,List.mem_append,or_comm]
    simp
  few := by omega
  arrived j low high := by omega
  goes ok := Bool.noConfusion ok
  stops _ := ⟨by decide,same.shows ▸ blocked,table4⟩

theorem mapLoopRuns (steps : Steps root d step toll Pre Arrived Blocked) (puts : Puts root d act unit new V) (m : Nat)
    {w : World σ} {c : PagingContext} {n i : Nat} (tree : Tree w root)
    (points : Points root (entries w.memory root) c d n)
    (pre : ∀ j, 1 ≤ j → j ≤ m → n+j < 512^(d+1) →
      (∀ i, 1 ≤ i → i < j → Arrived (entries w.memory root) (n+i)) → Pre (entries w.memory root) (n+j)) :
    Runs pool short (m*unit + (toll (n+m) - toll n)) (mapLoop act step m i c) w fun r w' =>
      (∃ done val, Looped root d n m i done new Arrived Blocked V val c w w' r) ∧
        w'.usedVirtualPages = w.usedVirtualPages := by
  induction m generalizing w c n i with
  | zero =>
    exact runsCost (runsPure ⟨⟨0,fun _ => 0,tree,evolvesRefl _ _,filledNone _ _ _,by omega,by omega,by simp,by omega,by omega,
      fun _ => ⟨rfl,points,fun _ _ _ => ⟨rfl,rfl⟩⟩,fun h => Bool.noConfusion h⟩,rfl⟩) (Nat.zero_le _)
  | succ m ih =>
    have cost : unit + ((toll (n+1) - toll n) + (m*unit + (toll (n+1+m) - toll (n+1)))) ≤
        (m+1)*unit + (toll (n+(m+1)) - toll n) := by
      have one := steps.mono n
      have rest := stepsMono steps (show n+1 ≤ n+1+m by omega)
      rw [show n+(m+1) = n+1+m by omega,Nat.add_mul]
      omega
    unfold mapLoop
    refine runsCost (runsBind (puts.run tree points) ?_) cost
    rintro _ w1 ⟨v,written,held⟩
    have first := filledPut (S := shape) (entries w.memory root) d n v
    rw [← written.shows] at first
    have points1 := pointsFilled points first (Nat.le_refl _)
    have pre1 : ∀ p, Pre (entries w.memory root) p → Pre (entries w1.memory root) p := fun p h => by
      rw [written.shows]
      exact steps.keepsPut h
    refine runsBind (steps.run written.tree points1 fun room =>
      pre1 _ (pre 1 (Nat.le_refl _) (by omega) room fun i low high => by omega)) ?_
    rintro ⟨ok,c1⟩ w2 (⟨rfl,moved,arrived,before⟩ | ⟨rfl,same,blocked,table4⟩)
    · have back : ∀ p, Arrived (entries w1.memory root) p → Arrived (entries w.memory root) p := fun p there =>
        steps.beforePut (written.shows ▸ there)
      have arrived := back _ arrived
      have before := fun p there => back p (before p there)
      refine runsPost (ih moved.after.tree moved.points fun j low high room there => ?_) ?_
      · have pre' := pre (j+1) (by omega) (by omega) (by omega) fun i first less =>
          arrivedShift arrived (fun i low high => before _ (there i low high)) first less
        rw [show n+(j+1) = n+1+j by omega] at pre'
        exact steps.keepsOpened moved.opened (by omega) (pre1 _ pre')
      · rintro r w3 ⟨⟨done,val,looped⟩,used⟩
        exact ⟨⟨done+1,prepend v val,loopedPass puts written held moved arrived before looped⟩,
          used.trans (moved.after.used.trans written.used)⟩
    · refine runsCost (runsPure ⟨⟨1,fun _ => v,?_⟩,same.used.trans written.used⟩) (Nat.zero_le _)
      exact loopedLast puts written held same blocked table4

theorem evolvesCounted (root : Nat) (w : World σ) (u : Nat) (f : List Nat) :
    Evolves root w { w with usedVirtualPages := u, frames := f } := evolvesKept rfl rfl (fun _ h => h) rfl

theorem loopedCounted (puts : Puts root d act unit new V) {n m i done : Nat} {val : Nat → Nat} {c : PagingContext}
    {w w' : World σ} {r : Bool × PagingContext} (looped : Looped root d n m i done new Arrived Blocked V val c w w' r) (u : Nat) :
    Looped root d n m i done new Arrived Blocked V val c w { w' with usedVirtualPages := u } r where
  tree := ⟨looped.tree.separate,looped.tree.linked,looped.tree.tables,looped.tree.inside⟩
  evolves := evolvesTrans looped.evolves (evolvesCounted root w' u w'.frames)
  filled := looped.filled
  values j hj := puts.widen (evolvesRefl root w) (looped.values j hj) (evolvesCounted root w' u w'.frames)
  apart j k less high := by
    obtain ⟨mid,left,right⟩ := looped.apart j k less high
    exact ⟨mid,left,puts.widen (evolvesRefl root mid) right (evolvesCounted root w' u w'.frames)⟩
  frames := looped.frames
  few := looped.few
  arrived := looped.arrived
  goes := looped.goes
  stops := looped.stops

theorem countedLoopRuns (steps : Steps root d step toll Pre Arrived Blocked) (puts : Puts root d act unit new V)
    {pages weight : Nat} {w : World σ} {c : PagingContext} {n : Nat} (tree : Tree w root)
    (points : Points root (entries w.memory root) c d n)
    (pre : ∀ j, 1 ≤ j → j ≤ pages → n+j < 512^(d+1) →
      (∀ i, 1 ≤ i → i < j → Arrived (entries w.memory root) (n+i)) → Pre (entries w.memory root) (n+j)) :
    Runs pool short (pages*unit + (toll (n+pages) - toll n)) (countedLoop act step pages weight c) w fun r w' =>
      (∃ done val, Looped root d n pages 0 done new Arrived Blocked V val c w w' r) ∧
        w'.usedVirtualPages = if r.1 then (w.usedVirtualPages + pages*weight) % 2^64 else w.usedVirtualPages := by
  refine runsBind (d := 0) (mapLoopRuns steps puts pages tree points pre) ?_
  rintro ⟨ok,c1⟩ w1 ⟨looped,used⟩
  cases ok with
  | false => exact runsPure ⟨looped,used⟩
  | true =>
    refine ⟨⟨?_,?_⟩,Nat.le_refl _⟩
    · obtain ⟨done,val,looped⟩ := looped
      exact ⟨done,val,loopedCounted puts looped _⟩
    · exact congrArg (fun u => (u + pages*weight) % 2^64) used

end

theorem loopedAfter {root d : Nat} {Arrived Blocked : (Nat → Nat → Nat) → Nat → Prop}
    {act : Nat → PagingContext → Kernel σ Unit} {unit : Nat} {new : Nat → List Nat} {V : Nat → Nat → World σ → World σ → Prop}
    (puts : Puts root d act unit new V) {n m i done : Nat} {val : Nat → Nat} {c : PagingContext} {w w1 w' : World σ}
    {r : Bool × PagingContext} (after : After root w w1 (entries w.memory root))
    (looped : Looped root d n m i done new Arrived Blocked V val c w1 w' r) : Looped root d n m i done new Arrived Blocked V val c w w' r where
  tree := looped.tree
  evolves := evolvesTrans after.evolves looped.evolves
  filled := after.shows ▸ looped.filled
  values j hj := puts.widen after.evolves (looped.values j hj) (evolvesRefl root w')
  apart j k less high := by
    obtain ⟨mid,left,right⟩ := looped.apart j k less high
    exact ⟨mid,puts.widen after.evolves left (evolvesRefl root mid),right⟩
  frames f := by rw [looped.frames,after.frames,List.nil_append]
  few := looped.few
  arrived := after.shows ▸ looped.arrived
  goes := looped.goes
  stops := looped.stops

/-! The steps and the values of the loops of the source. -/

def Passable (E : Nat → Nat → Nat) (d p : Nat) : Prop :=
  Clear shape E d p ∧ (d = 1 → p % 512 = 0 → E 0 (p/512) = 0)

instance (E : Nat → Nat → Nat) (d p : Nat) : Decidable (Passable E d p) :=
  inferInstanceAs (Decidable (Clear shape E d p ∧ (d = 1 → p % 512 = 0 → E 0 (p/512) = 0)))

def AtEnd (d : Nat) (_E : Nat → Nat → Nat) (p : Nat) : Prop := p = 512^(d+1)

def HasTable (root d : Nat) (E : Nat → Nat → Nat) (p : Nat) : Prop := (tab shape root E d (p/512)).isSome

def NoTable (root d : Nat) (E : Nat → Nat → Nat) (p : Nat) : Prop :=
  p = 512^(d+1) ∨ tab shape root E d (p/512) = none

theorem clearPut {E : Nat → Nat → Nat} {d n v p : Nat} (clear : Clear shape E d p) :
    Clear shape (put shape E d n v) d p := fun e he => by
  rw [putOther E v (by omega) (by omega)]
  exact clear e he

theorem passablePut {E : Nat → Nat → Nat} {d n v p : Nat} (pass : Passable E d p) :
    Passable (put shape E d n v) d p := by
  refine ⟨clearPut pass.1,fun huge start => ?_⟩
  rw [putOther E v (by omega) (by omega)]
  exact pass.2 huge start

theorem passableOpened {E E' : Nat → Nat → Nat} {d n p : Nat} (opened : Opened shape E E' d n) (less : n < p)
    (pass : Passable E d p) : Passable E' d p := by
  refine ⟨filledClear opened pass.1,fun huge start => ?_⟩
  rcases opened.above 0 (p/512) (by omega) with same | ⟨_,_,j,hj,path⟩
  · rw [same]
    exact pass.2 huge start
  · simp only [huge,shapeFanout,Nat.sub_zero,Nat.pow_one] at path
    omega

theorem stepsMap (root d : Nat) : Steps (σ := σ) root d (next .map d) (carries d) (fun E p => Passable E d p) (fun _ _ => True) (AtEnd d) where
  mono _ := carriesMono d (Nat.le_succ _)
  run {w c n short} tree points pre := by
    by_cases room : n+1 < 512^(d+1)
    · exact runsPost (nextRuns (by decide) tree points room (pre room).1) fun _ _ ⟨ok,moved⟩ => Or.inl ⟨ok,moved,trivial,fun _ _ => trivial⟩
    · have last := pointsBound points
      refine runsCost (runsPost (nextEnds (by decide) tree points (by omega)) ?_) (Nat.zero_le _)
      rintro r w' ⟨failed,after,table4⟩
      exact Or.inr ⟨failed,after,by unfold AtEnd; omega,table4⟩
  keepsPut := passablePut
  keepsOpened := passableOpened
  beforePut := id

theorem stepsUnmasked (root : Nat) :
    Steps (σ := σ) root 1 nextUnmasked (carries 1) (fun E p => Passable E 1 p) (fun _ _ => True) (AtEnd 1) where
  mono _ := carriesMono 1 (Nat.le_succ _)
  run {w c n short} tree points pre := by
    by_cases room : n+1 < 512^(1+1)
    · exact runsPost (nextUnmaskedRuns tree points room ((pre room).2 rfl)) fun _ _ ⟨ok,moved⟩ => Or.inl ⟨ok,moved,trivial,fun _ _ => trivial⟩
    · have last := pointsBound points
      refine runsCost (runsPost (nextUnmaskedEnds tree points (by omega)) ?_) (Nat.zero_le _)
      rintro r w' ⟨failed,after,table4⟩
      exact Or.inr ⟨failed,after,by unfold AtEnd; omega,table4⟩
  keepsPut := passablePut
  keepsOpened := passableOpened
  beforePut := id

theorem stepsUnmap (root d : Nat) :
    Steps (σ := σ) root d (next .unmap d) (fun _ => 0) (fun E p => Clear shape E d p) (HasTable root d) (NoTable root d) where
  mono _ := Nat.le_refl _
  run {w c n short} tree points pre := by
    by_cases room : n+1 < 512^(d+1)
    · refine runsPost (nextUnmapRuns tree points room (pre room)) ?_
      rintro r w' ⟨after,⟨ok,points',below⟩ | ⟨failed,missing,table4⟩⟩
      · have there : HasTable root d (entries w.memory root) (n+1) := Option.isSome_iff_exists.mpr ⟨_,(pointsTable points').1⟩
        rw [← after.shows] at points'
        refine Or.inl ⟨ok,⟨⟨after.tree,rfl,after.evolves,after.used,after.frames⟩,?_,points',below⟩,there,?_⟩
        · rw [after.shows]
          exact filledNone _ _ _
        · rw [after.shows]
          exact fun _ there => there
      · exact Or.inr ⟨failed,after,Or.inr missing,table4⟩
    · have last := pointsBound points
      refine runsCost (runsPost (nextEnds (by decide) tree points (by omega)) ?_) (Nat.zero_le _)
      rintro r w' ⟨failed,after,table4⟩
      exact Or.inr ⟨failed,after,Or.inl (by omega),table4⟩
  keepsPut := clearPut
  keepsOpened opened _ clear := filledClear opened clear
  beforePut {E n v p} there := by
    cases d with
    | zero => exact there
    | succ d =>
      simp only [HasTable,tab] at there ⊢
      rwa [putOther E v (by omega) (by omega)] at there

theorem storePuts {root d : Nat} {value : Nat → Nat} (bound : ∀ i, value i < 2^64)
    (noLink : ∀ i, shape.link d (value i) = none) :
    Puts (σ := σ) root d (fun i c => store (c.table d) (c.index d) (value i)) 0 (fun _ => [])
      (fun i v _ _ => v = value i) where
  run {w c n i short} tree points := by
    obtain ⟨table,index⟩ := pointsTable points
    rw [index]
    exact runsPost (storeRuns tree table (bound i) (noLink i)) fun _ _ after => ⟨value i,after,rfl⟩
  widen _ h _ := h

theorem physicalLeaf {d : Nat} (low : 1 ≤ d) (physical flags i : Nat) :
    physicalEntry d physical (pagingConvertFlags flags) i ≠ 0 ∧
      shape.leaf d (physicalEntry d physical (pagingConvertFlags flags) i) = true ∧
      physicalEntry d physical (pagingConvertFlags flags) i < 2^64 := by
  obtain ⟨small,present⟩ := convertBits flags
  obtain ⟨nonzero,leaf,bound,_⟩ := leafEntry (d := d) (x := (physical + 4096*512^(3-d)*i) % 2^64) low small present
  exact ⟨nonzero,leaf,bound⟩

theorem putsPhysical {root d : Nat} (low : 1 ≤ d) (physical flags : Nat) :
    Puts (σ := σ) root d (putPhysical d physical (pagingConvertFlags flags)) 0 (fun _ => [])
      (fun i v _ _ => v = physicalEntry d physical (pagingConvertFlags flags) i) :=
  storePuts (fun i => (physicalLeaf low physical flags i).2.2)
    fun i => linkLeaf (physicalLeaf low physical flags i).2.1

def Drawn (flags : Nat) (v : Nat) (w w' : World σ) : Prop :=
  ∃ page, v = (page &&& addressMask) ||| pagingConvertFlags flags ∧ IsPage page ∧
    ¬ PageAllocator.Taken w.allocator page ∧ PageAllocator.Taken w'.allocator page ∧ page ∉ w'.tables

theorem drawnLeaf {flags v : Nat} {w w' : World σ} (drawn : Drawn flags v w w') :
    v ≠ 0 ∧ shape.leaf 3 v = true ∧ v < 2^64 := by
  obtain ⟨page,rfl,_⟩ := drawn
  obtain ⟨small,present⟩ := convertBits flags
  obtain ⟨nonzero,leaf,bound,_⟩ := leafEntry (d := 3) (x := page) (by decide) small present
  simp only [Nat.lt_irrefl,if_false,Nat.or_zero] at nonzero leaf bound
  exact ⟨nonzero,leaf,bound⟩

theorem drawnWiden {root flags v : Nat} {w0 w w' w2 : World σ} (before : Evolves root w0 w)
    (drawn : Drawn flags v w w') (after : Evolves root w' w2) : Drawn flags v w0 w2 := by
  obtain ⟨page,same,isPage,free,apart⟩ := drawn
  exact ⟨page,same,isPage,fun h => free (before.taken page h),apartEvolves after apart⟩

theorem frameField {page : Nat} (isPage : IsPage page) (flags : Nat) :
    ((page &&& addressMask) ||| pagingConvertFlags flags) &&& 0xFFFFFFFFFF000 = page := by
  obtain ⟨small,present⟩ := convertBits flags
  have field := (leafEntry (d := 3) (x := page) (by decide) small present).2.2.2
  have same : (page &&& addressMask) ||| pagingConvertFlags flags ||| 0 = (page &&& addressMask) ||| pagingConvertFlags flags :=
    Nat.or_zero _
  simp only [Nat.lt_irrefl,if_false,same] at field
  have aligned := isPage.1
  have bound := isPage.2.2
  rw [field]
  omega

theorem recordFrameRuns {short : Prop} {w : World σ} (f : Nat) : Runs pool short 0 (recordFrame f) w fun _ w' =>
    w' = { w with frames := f :: w.frames } := ⟨rfl,Nat.le_refl _⟩

theorem putsAllocated (root flags : Nat) :
    Puts (σ := σ) root 3 (putAllocated (pagingConvertFlags flags)) 1 (fun v => [v &&& 0xFFFFFFFFFF000])
      (fun _ v w w' => Drawn flags v w w') where
  run {w c n i short} tree points := by
    obtain ⟨table,index⟩ := pointsTable points
    have index' : c.level1Index = n % 512 := index
    unfold putAllocated
    refine runsBind (c := 1) (d := 0) (allocateRuns tree) ?_
    rintro page w1 ⟨isPage,free,held,tables,after⟩
    have drawn : Drawn flags ((page &&& addressMask) ||| pagingConvertFlags flags) w w1 := by
      refine ⟨page,rfl,isPage,free,held,?_⟩
      rw [tables]
      exact fun member => free (tree.tables page member).2
    obtain ⟨_,leaf,bound⟩ := drawnLeaf drawn
    rw [index']
    refine runsBind (c := 0) (d := 0) (storeRuns after.tree (after.shows ▸ table) bound (linkLeaf leaf)) ?_
    intro _ w2 stored
    have both := afterTrans after stored
    rw [after.shows] at both
    refine runsPost (recordFrameRuns page) ?_
    rintro _ w3 rfl
    have recorded := evolvesCounted root w2 w2.usedVirtualPages (page :: w2.frames)
    refine ⟨_,⟨⟨both.tree.separate,both.tree.linked,both.tree.tables,both.tree.inside⟩,both.shows,
      evolvesTrans both.evolves recorded,both.used,?_⟩,drawnWiden (evolvesRefl root w) drawn (evolvesTrans stored.evolves recorded)⟩
    rw [frameField isPage]
    exact congrArg (List.cons page) both.frames
  widen := drawnWiden

end Kokos.Paging

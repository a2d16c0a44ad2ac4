import Kokos.PagingOperations

/-! Runs of the five calls on one context. A run in which no call meets a huge page
where it expects a table, or follows a pointer that is not the table it stands for,
keeps the tree; what each call then does to it is stated once here. -/
namespace Kokos.Paging
open BudgetedCalls RadixTables

structure Machine (σ : Type) where
  world : World σ
  context : PagingContext

inductive Request where
  | map (source : Source) (bytes flags : Nat)
  | mapAt (source : Source) (target bytes flags : Nat)
  | unmap (target bytes : Nat)
  deriving DecidableEq, Repr

section
variable {σ : Type}

def Machine.entries (s : Machine σ) (root : Nat) : Nat → Nat → Nat := Paging.entries s.world.memory root

def StartsAt (root : Nat) (s : Machine σ) : Request → Nat → Prop
  | .map _ bytes flags, start => ∃ steps toll, SpotAt root (s.entries root) s.context bytes flags start steps toll
  | .mapAt _ target _ flags, start => start = numberAt target (depthOf flags) ∧ Walkable (s.entries root) (depthOf flags) target
  | .unmap _ _, _ => False

/-- No call that passes its checks follows an entry that is not the table it takes it for. -/
def Orderly (root : Nat) (s : Machine σ) : Request → Prop
  | .map source bytes flags => spotChoice s.context bytes flags = .refuse ∨
      ∃ start, StartsAt root s (.map source bytes flags) start ∧
        (Accepts s.world.hugepagesSupported (s.entries root) (depthOf flags) start source bytes flags → Runway (s.entries root) start bytes flags)
  | .mapAt source target bytes flags => StartsAt root s (.mapAt source target bytes flags) (numberAt target (depthOf flags)) ∧
      (Accepts s.world.hugepagesSupported (s.entries root) (depthOf flags) (numberAt target (depthOf flags)) source bytes flags →
        target % span (depthOf flags) = 0 → Runway (s.entries root) (numberAt target (depthOf flags)) bytes flags)
  | .unmap target bytes => ∀ d ≤ 3, Leaf shape (s.entries root) 3 (pageNumber target) d → target % span d = 0 →
      ClearOnWay root (s.entries root) d (numberAt target d) (blocks d bytes)

theorem clearAhead {root target bytes d j : Nat} {s : Machine σ} (leaf : Leaf shape (s.entries root) 3 (pageNumber target) d)
    (clear : ClearOnWay root (s.entries root) d (numberAt target d) (blocks d bytes)) (few : j ≤ blocks d bytes)
    (room : numberAt target d + j < 512^(d+1)) (tables : ∀ i, 1 ≤ i → i < j → HasTable root d (s.entries root) (numberAt target d + i)) :
    Clear shape (s.entries root) d (numberAt target d + j) := by
  by_cases first : j = 0
  · rw [first]
    exact clearOfNonzero (entriesGrounded _ _) leaf.1
  · exact clear j (Nat.pos_of_ne_zero first) few room tables

theorem orderlyAt {root target bytes flags : Nat} {s : Machine σ} (source : Source)
    (walkable : Walkable (s.entries root) (depthOf flags) target)
    (runway : Runway (s.entries root) (numberAt target (depthOf flags)) bytes flags) :
    Orderly root s (.mapAt source target bytes flags) := ⟨⟨rfl,walkable⟩,fun _ _ => runway⟩

theorem emptyClear {E : Nat → Nat → Nat} {d : Nat} (zero : ∀ d n, E d n = 0) (depth : d ≤ 3) (n : Nat) : Clear shape E d n := by
  intro e higher
  rw [zero]
  exact leafZero (by omega)

theorem emptyRunway {E : Nat → Nat → Nat} {bytes flags : Nat} (zero : ∀ d n, E d n = 0) (start : Nat) : Runway E start bytes flags :=
  fun _ _ _ _ => ⟨emptyClear zero (depthCases flags).2 _,fun _ _ => zero 0 _⟩

theorem emptyOrderly {root target bytes flags : Nat} {s : Machine σ} (source : Source) (zero : ∀ d n, s.entries root d n = 0)
    (index : depthOf flags = 3 → numberAt target 1 % 512 = numberAt target 2 % 512) :
    Orderly root s (.mapAt source target bytes flags) :=
  orderlyAt source ⟨emptyClear zero (depthCases flags).2 _,fun three _ => index three⟩ (emptyRunway zero _)

variable [PageAllocator σ]

def perform (fuel : Nat) (s : Machine σ) : Request → Except Stop (Nat × Machine σ)
  | .map source bytes flags =>
    (mapAnywhere source fuel s.context bytes flags s.world).map fun r => (r.1.1,⟨r.2,r.1.2⟩)
  | .mapAt source target bytes flags =>
    (mapFixed source s.context target bytes flags s.world).map fun r => (r.1,⟨r.2,s.context⟩)
  | .unmap target bytes =>
    (pagingUnmap s.context target bytes s.world).map fun r => (if r.1 then 1 else 0,⟨r.2,s.context⟩)

inductive Reached (fuel : Nat) (Allowed : Machine σ → Request → Prop) (start : Machine σ) : Machine σ → Prop where
  | start : Reached fuel Allowed start start
  | step {s r v s'} (before : Reached fuel Allowed start s) (allowed : Allowed s r)
      (call : perform fuel s r = .ok (v,s')) : Reached fuel Allowed start s'

theorem reachedKeeps {fuel : Nat} {Allowed : Machine σ → Request → Prop} {Inv : Machine σ → Prop} {start s : Machine σ}
    (step : ∀ s r v s', Inv s → Allowed s r → perform fuel s r = .ok (v,s') → Inv s') (first : Inv start)
    (reached : Reached fuel Allowed start s) : Inv s := by
  induction reached with
  | start => exact first
  | step _ allowed call ih => exact step _ _ _ _ ih allowed call

structure Sane (root : Nat) (s : Machine σ) : Prop where
  tree : Tree s.world root
  rooted : s.context.level4Table = root

inductive Effect (root : Nat) (s s' : Machine σ) : Request → Nat → Prop where
  | refused {source bytes flags} (choice : spotChoice s.context bytes flags = .refuse) (same : s' = s) :
      Effect root s s' (.map source bytes flags) 0
  | mapped {source bytes flags start ok c1 done val} (starts : StartsAt root s (.map source bytes flags) start)
      (result : MapResult source root start bytes flags s.context s.world s'.world ok s'.context done val)
      (points : Points root (s'.entries root) c1 (depthOf flags) start) (below : SameBelow (depthOf flags) s.context c1) :
      Effect root s s' (.map source bytes flags) (if ok then c1.address else 0)
  | mappedAt {source target bytes flags ok c1 done val}
      (starts : StartsAt root s (.mapAt source target bytes flags) (numberAt target (depthOf flags)))
      (result : MapResult source root (numberAt target (depthOf flags)) bytes flags (nullContext root) s.world s'.world
        ok c1 done val) (aligned : 0 < done → target % span (depthOf flags) = 0) (same : s'.context = s.context) :
      Effect root s s' (.mapAt source target bytes flags) (if ok then target else 0)
  | untouched {target bytes} (result : Untouched root target s.world s'.world false) (same : s'.context = s.context) :
      Effect root s s' (.unmap target bytes) 0
  | unmapped {target bytes d ok} (depth : d ≤ 3) (leaf : Leaf shape (s.entries root) 3 (pageNumber target) d)
      (aligned : target % span d = 0) (result : UnmapOutcome root d (numberAt target d) bytes s.world s'.world ok)
      (same : s'.context = s.context) : Effect root s s' (.unmap target bytes) (if ok then 1 else 0)

theorem mapOk {α β : Type} {f : α → β} {x : Except Stop α} {b : β} (ok : x.map f = .ok b) : ∃ a, x = .ok a ∧ f a = b := by
  cases x with
  | error e => cases ok
  | ok a => exact ⟨a,rfl,Except.ok.inj ok⟩

theorem performRuns {α : Type} {x : Kernel σ α} {f : α → World σ → Nat × Machine σ} {cost : Nat} {short : Prop}
    {post : Nat → Machine σ → Prop} {fuel : Nat} {s : Machine σ} {r : Request}
    (same : perform fuel s r = (x s.world).map fun a => f a.1 a.2) (keeps : ∀ a w, (f a w).2.world = w)
    (run : Runs pool short cost x s.world fun a w => post (f a w).1 (f a w).2) :
    Runs (fun s : Machine σ => pool s.world) short cost (fun s => perform fuel s r) s post := by
  unfold Runs at run ⊢
  dsimp only
  rw [same]
  cases result : x s.world with
  | error stop =>
    rw [result] at run
    cases stop with
    | exhausted => exact run
    | spinning => exact run
  | ok pair =>
    rw [result] at run
    refine ⟨run.1,?_⟩
    rw [keeps]
    exact run.2

theorem returned {α : Type} {x : Kernel σ α} {w w' : World σ} {c : Nat} {post : α → World σ → Prop} {a : α}
    (run : Runs pool True c x w post) (ok : x w = .ok (a,w')) : post a w' := runsReturned run ok

variable {root fuel : Nat} {s s' : Machine σ} {r : Request} {v : Nat}

theorem performed (sane : Sane root s) (orderly : Orderly root s r) (call : perform fuel s r = .ok (v,s')) :
    Effect root s s' r v := by
  cases r with
  | map source bytes flags =>
    obtain ⟨⟨⟨v',c'⟩,w'⟩,run,same⟩ := mapOk call
    cases same
    rcases orderly with choice | ⟨start,⟨steps,toll,spot⟩,runway⟩
    · obtain ⟨same,world⟩ := returned (refusedRuns choice) run
      cases same
      subst world
      exact .refused choice rfl
    · obtain ⟨ok,c1,done,val,result,points,below,value,_⟩ := runsReturned (mapAnywhereRuns sane.tree spot runway) run
      subst value
      exact .mapped ⟨steps,toll,spot⟩ result points below
  | mapAt source target bytes flags =>
    obtain ⟨⟨v',w'⟩,run,same⟩ := mapOk call
    cases same
    obtain ⟨ok,c1,done,val,result,value,aligned,_⟩ :=
      returned (mapFixedRuns sane.rooted sane.tree orderly.1.2 orderly.2) run
    subst value
    exact .mappedAt orderly.1 result aligned rfl
  | unmap target bytes =>
    obtain ⟨⟨ok,w'⟩,run,same⟩ := mapOk call
    cases same
    rcases returned (unmapRuns sane.rooted sane.tree orderly) run with
      ⟨failed,untouched⟩ | ⟨d,depth,leaf,aligned,result⟩
    · subst failed
      exact .untouched ⟨rfl,untouched⟩ rfl
    · exact .unmapped depth leaf aligned result rfl

theorem effectSane (sane : Sane root s) (effect : Effect root s s' r v) : Sane root s' := by
  cases effect with
  | refused _ same => rw [same]; exact sane
  | mapped _ result _ _ => exact ⟨result.tree,result.rooted⟩
  | mappedAt _ result _ same => exact ⟨result.tree,by rw [same]; exact sane.rooted⟩
  | untouched result same => exact ⟨result.2.1.tree,by rw [same]; exact sane.rooted⟩
  | unmapped _ _ _ result same =>
    obtain ⟨done,val,c,c',looped⟩ := result.looped
    exact ⟨looped.tree,by rw [same]; exact sane.rooted⟩

theorem reachedSane {start : Machine σ} {Allowed : Machine σ → Request → Prop}
    (careful : ∀ s r, Allowed s r → Orderly root s r) (sane : Sane root start) (reached : Reached fuel Allowed start s) :
    Sane root s :=
  reachedKeeps (fun _ _ _ _ sane allowed call => effectSane sane (performed sane (careful _ _ allowed) call)) sane reached

theorem fixedReturns {target bytes flags : Nat} {source : Source} (fuel : Nat) (sane : Sane root s)
    (orderly : Orderly root s (.mapAt source target bytes flags))
    (enough : 3 + demand source (depthOf flags) (numberAt target (depthOf flags)) bytes ≤ pool s.world) :
    ∃ v w, perform fuel s (.mapAt source target bytes flags) = .ok (v,⟨w,s.context⟩) := by
  obtain ⟨v,w,call,_⟩ := runsReturns (@mapFixedRuns _ _ _ _ _ False _ _ _ _ sane.rooted sane.tree orderly.1.2 orderly.2) id enough
  refine ⟨v,w,?_⟩
  simp only [perform,call]
  rfl

theorem mapAtAccepted {target bytes flags : Nat} {source : Source} (sane : Sane root s)
    (orderly : Orderly root s (.mapAt source target bytes flags)) (aligned : target % span (depthOf flags) = 0)
    (inside : numberAt target (depthOf flags) + blocks (depthOf flags) bytes < 512^(depthOf flags + 1))
    (accepts : Accepts s.world.hugepagesSupported (s.entries root) (depthOf flags) (numberAt target (depthOf flags)) source bytes flags)
    (call : perform fuel s (.mapAt source target bytes flags) = .ok (v,s')) : v = target ∧ ∃ c' val,
      MapResult source root (numberAt target (depthOf flags)) bytes flags (nullContext root) s.world s'.world true c'
        (blocks (depthOf flags) bytes) val := by
  obtain ⟨⟨v',w'⟩,run,same⟩ := mapOk call
  cases same
  obtain ⟨ok,c',done,val,result,value,_,last⟩ := returned (mapFixedRuns sane.rooted sane.tree orderly.1.2 orderly.2) run
  obtain rfl := resultFinished result inside (last accepts aligned)
  obtain ⟨rfl,_⟩ := result.succeeds rfl
  exact ⟨value,c',val,result⟩

theorem acceptedReturns {target bytes flags : Nat} {source : Source} (fuel : Nat) (sane : Sane root s)
    (orderly : Orderly root s (.mapAt source target bytes flags)) (aligned : target % span (depthOf flags) = 0)
    (inside : numberAt target (depthOf flags) + blocks (depthOf flags) bytes < 512^(depthOf flags + 1))
    (accepts : Accepts s.world.hugepagesSupported (s.entries root) (depthOf flags) (numberAt target (depthOf flags)) source bytes flags)
    (enough : 3 + demand source (depthOf flags) (numberAt target (depthOf flags)) bytes ≤ pool s.world) :
    ∃ s', perform fuel s (.mapAt source target bytes flags) = .ok (target,s') := by
  obtain ⟨v,w,call⟩ := fixedReturns fuel sane orderly enough
  obtain ⟨rfl,_⟩ := mapAtAccepted sane orderly aligned inside accepts call
  exact ⟨_,call⟩

theorem blocksPositive (d bytes : Nat) : 0 < blocks d bytes := Nat.succ_pos _

end

/-! A machine with one blank level-4 table at 0x1000 and two words of free pages. -/

open PhysicalMemory in
def twoWords : Bitmap where
  state := ⟨fun _ => 3#64,0,2,2⟩
  sound := ⟨by decide,by decide,fun w _ i low high => by
    have bits : ∀ j : Fin 64, 31 ≤ j.val → (3#64).getLsbD j.val = false := by decide
    exact (bits ⟨i,high⟩ low).trans (bits ⟨31,by decide⟩ (by decide)).symm⟩
  nullTaken := by decide
  words := by decide

def blank (huge : Bool) : Machine PhysicalMemory.Bitmap :=
  ⟨⟨fun _ => 0,twoWords,huge,0,[0x1000],[],[]⟩,nullContext 0x1000⟩

def returns (x : Except Stop (Nat × Machine PhysicalMemory.Bitmap))
    (p : Nat → Machine PhysicalMemory.Bitmap → Bool) : Bool :=
  match x with
  | .ok (v,s) => p v s
  | .error _ => false

theorem returnsOk {x : Except Stop (Nat × Machine PhysicalMemory.Bitmap)}
    {p : Nat → Machine PhysicalMemory.Bitmap → Bool} (h : returns x p = true) : ∃ v s, x = .ok (v,s) ∧ p v s = true := by
  cases x with
  | error e => cases h
  | ok pair => exact ⟨pair.1,pair.2,rfl,h⟩

theorem blankZero (d n : Nat) : Paging.entries (fun _ => 0) 0x1000 d n = 0 := entriesBlank (fun _ _ => rfl) d n

theorem blankUnmapped (huge : Bool) (a : Nat) : ¬ Mapped ((blank huge).entries 0x1000) a := by
  rintro ⟨e,_,leaf⟩
  exact leaf.1 (blankZero e _)

theorem rootTaken {b : PhysicalMemory.Bitmap} (taken : PhysicalMemory.low b.state 0 1 = true) :
    ∀ g ∈ [0x1000], IsPage g ∧ PageAllocator.Taken b g := by
  intro g member
  rw [List.mem_singleton.mp member]
  refine ⟨⟨by decide,by decide,by decide⟩,?_⟩
  rintro ⟨w,_,b,_,same,clear⟩
  unfold PhysicalMemory.pageAddress at same
  obtain ⟨rfl,rfl⟩ : w = 0 ∧ b = 1 := by omega
  rw [taken] at clear
  cases clear

theorem blankSane (huge : Bool) : Sane 0x1000 (blank huge) :=
  ⟨treeBlank blankZero (List.mem_singleton.mpr rfl) (rootTaken (show PhysicalMemory.low twoWords.state 0 1 = true by decide))
    (fun a member => nomatch member),rfl⟩

theorem blankOrderly {given : Nat} : Orderly 0x1000 (blank false) (.mapAt (.physical given) 0x3000 4096 2) :=
  emptyOrderly _ blankZero fun _ => by decide

theorem blankReturns {given : Nat} (page : given % 4096 = 0) :
    ∃ s, perform 1 (blank false) (.mapAt (.physical given) 0x3000 4096 2) = .ok (0x3000,s) :=
  acceptedReturns 1 (blankSane false) blankOrderly (by decide) (by decide)
    ⟨by decide,fun one => absurd one (by decide),page,Or.inl (blankZero _ _)⟩
    (show 3 + demand (.physical 0) 3 (numberAt 0x3000 3) 4096 ≤ pool (blank false).world by decide)

end Kokos.Paging

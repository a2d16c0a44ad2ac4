import Kokos.PagingFrames
import Kokos.PagingNullCursor
import Kokos.PagingRegions
import Kokos.TransitionRuns

/-! Several contexts that share one machine and its allocator, and paging_map calls on
them in any order. A grant is what a successful call has mapped; the grants are
ghost state. -/
namespace Kokos.Paging
open BudgetedCalls RadixTables TransitionRuns

structure MapCall (ι : Type) where
  context : ι
  bytes : Nat
  flags : Nat
  word : bytes < 2^64
  plain : has flags flag1GB = false ∧ has flags flag2MB = false

structure Grant (ι : Type) where
  context : ι
  address : Nat
  bytes : Nat

def Grant.Covers {ι : Type} (g : Grant ι) (i : ι) (page : Nat) : Prop :=
  g.context = i ∧ g.address ≤ 4096*page ∧ 4096*page < g.address + g.bytes

structure Contexts (ι σ : Type) where
  world : World σ
  context : ι → PagingContext
  grants : List (Grant ι)

def pageFrame (m : ByteMemory.Memory) (root page : Nat) : Nat := pagingGetPhysicalAddress m root (4096*page)

section
variable {ι σ : Type}

def Contexts.machine (s : Contexts ι σ) (i : ι) : Machine σ := ⟨s.world,s.context i⟩

def Contexts.Paged (s : Contexts ι σ) (i : ι) (page : Nat) : Prop := ∃ g ∈ s.grants, g.Covers i page

def Contexts.frame (s : Contexts ι σ) (root : ι → Nat) (i : ι) (page : Nat) : Nat :=
  pageFrame s.world.memory (root i) page

def TreesApart (m : ByteMemory.Memory) (left right : Nat) : Prop :=
  ∀ d q e r t, tab shape left (entries m left) d q = some t → tab shape right (entries m right) e r ≠ some t

theorem plainDepth (e : MapCall ι) : depthOf e.flags = 3 := by
  unfold depthOf
  rw [e.plain.1,e.plain.2]
  rfl

theorem coversPages {i j : ι} {start bytes page : Nat} (some : bytes ≠ 0) (word : bytes < 2^64) :
    (⟨i,start * span 3,bytes⟩ : Grant ι).Covers j page ↔ i = j ∧ start ≤ page ∧ page < start + blocks 3 bytes := by
  have count : blocks 3 bytes = (bytes-1)/4096 + 1 := by
    unfold blocks units
    rw [show (bytes + (2^64 - 1)) % 2^64 = bytes-1 by omega,Nat.shiftRight_eq_div_pow]
  unfold Grant.Covers span
  rw [count]
  simp only [Nat.sub_self,Nat.pow_zero,Nat.mul_one]
  refine and_congr_right fun _ => ⟨fun inside => ?_,fun inside => ?_⟩
  · omega
  · omega

variable [PageAllocator σ]

structure Separated (root m : ι → Nat) (s : Contexts ι σ) : Prop where
  prepared : ∀ i, Prepared (root i) (m i) (s.machine i)
  apart : ∀ i j, i ≠ j → TreesApart s.world.memory (root i) (root j)
  noFrames : s.world.frames = []
  noGrants : s.grants = []

variable [DecidableEq ι]

def interleaving (root m : ι → Nat) : System (Contexts ι σ) (MapCall ι) where
  start := Separated root m
  step s e s' := ∃ fuel v t, perform fuel (s.machine e.context) (.map .allocated e.bytes e.flags) = .ok (v,t) ∧
    s' = ⟨t.world,Function.update s.context e.context t.context,
      if v = 0 then s.grants else ⟨e.context,v,e.bytes⟩ :: s.grants⟩

def InsideSlots (m : ι → Nat) (s : Contexts ι σ) (e : MapCall ι) : Prop :=
  spotChoice (s.context e.context) e.bytes e.flags = .refuse ∨
    startOf 3 (m e.context) (s.context e.context) e.bytes e.flags + blocks 3 e.bytes < 512^4

def HasTables (s : Contexts ι σ) (e : MapCall ι) : Prop :=
  spotChoice (s.context e.context) e.bytes e.flags = .refuse ∨ e.bytes ≤ 2^39 ∨
    (s.context e.context).level3Table ≠ 0

end

section
variable {σ : Type} [PageAllocator σ] {left right : Nat} {w w' : World σ}

theorem apartSymm {m : ByteMemory.Memory} (apart : TreesApart m left right) : TreesApart m right left :=
  fun d q e r t here there => apart e r d q t there here

theorem otherEntries (evolves : Evolves left w w') (other : Tree w right) (apart : TreesApart w.memory left right) :
    entries w'.memory right = entries w.memory right := by
  refine entryAtCongr fun d q f here i hi => ?_
  have found : tab shape right (entries w.memory right) d q = some f := (tableAtTab _ _ d q).symm.trans here
  obtain ⟨page,taken⟩ := treePage other found
  exact evolves.rest f page taken (fun e r own => apart e r d q f own found) i hi

theorem otherTree (evolves : Evolves left w w') (own : Tree w' left) (other : Tree w right)
    (apart : TreesApart w.memory left right) : Tree w' right := by
  have same := otherEntries evolves other apart
  refine ⟨?_,?_,own.tables,own.inside⟩
  · rw [same]
    exact other.separate
  · intro d q g found
    rw [same] at found
    exact evolves.older g (other.linked d q g found)

theorem otherFrame (evolves : Evolves left w w') (other : Tree w right) (apart : TreesApart w.memory left right)
    (page : Nat) : pageFrame w'.memory right page = pageFrame w.memory right page := by
  unfold pageFrame
  rw [translation,translation,otherEntries evolves other apart]

theorem apartEvolved (evolves : Evolves left w w') (other : Tree w right) (apart : TreesApart w.memory left right) :
    TreesApart w'.memory left right := by
  intro d q e r t here there
  rw [otherEntries evolves other apart] at there
  rcases evolves.own d q t here with ⟨d',q',old⟩ | free
  · exact apart d' q' e r t old there
  · exact free (treePage other there).2

theorem apartBeside {mid : Nat} (evolves : Evolves mid w w') (treeLeft : Tree w left) (treeRight : Tree w right)
    (awayLeft : TreesApart w.memory mid left) (awayRight : TreesApart w.memory mid right)
    (apart : TreesApart w.memory left right) : TreesApart w'.memory left right := by
  unfold TreesApart
  rw [otherEntries evolves treeLeft awayLeft,otherEntries evolves treeRight awayRight]
  exact apart

end

section
variable {σ : Type} [PageAllocator σ]

structure Extended (root start count : Nat) (w w' : World σ) : Prop where
  tree : Tree w' root
  evolves : Evolves root w w'
  fresh : ∀ k < count, IsPage (pageFrame w'.memory root (start+k)) ∧
    ¬ PageAllocator.Taken w.allocator (pageFrame w'.memory root (start+k)) ∧
    PageAllocator.Taken w'.allocator (pageFrame w'.memory root (start+k)) ∧ pageFrame w'.memory root (start+k) ∉ w'.tables
  distinct : ∀ j k, j < k → k < count → pageFrame w'.memory root (start+j) ≠ pageFrame w'.memory root (start+k)
  before : ∀ n < start, pageFrame w'.memory root n = pageFrame w.memory root n
  frames : ∀ f, f ∈ w'.frames ↔ f ∈ w.frames ∨ ∃ k < count, pageFrame w'.memory root (start+k) = f

theorem resultExtended {root start bytes flags : Nat} {c c' : PagingContext} {w w' : World σ} {val : Nat → Nat}
    (size : depthOf flags = 3) (inside : start + blocks 3 bytes < 512^4)
    (result : MapResult .allocated root start bytes flags c w w' true c' (blocks 3 bytes) val) :
    Extended root start (blocks 3 bytes) w w' := by
  have filled := result.filled
  rw [size] at filled
  have grounded := entriesGrounded w.memory root
  have grounded' := entriesGrounded w'.memory root
  have number : ∀ n < 512^4, numberAt (4096*n) 3 = n := fun n bound => by
    rw [overPage (by omega),Nat.sub_self,Nat.pow_zero,Nat.div_one]
  have frame : ∀ k < blocks 3 bytes, pageFrame w'.memory root (start+k) = val k &&& 0xFFFFFFFFFF000 := by
    intro k few
    have leaf := valueLeaf (result.values k few)
    rw [size] at leaf
    have resolved := (resolveInside grounded' filled (Nat.le_refl 3) few (number (start+k) (by omega)) leaf).1
    unfold pageFrame
    rw [translation,resolved]
    omega
  refine ⟨result.tree,result.evolves,?_,?_,?_,?_⟩
  · intro k few
    rw [frame k few]
    exact drawnFrame (result.values k few).2
  · intro j k less few
    obtain ⟨mid,first,second⟩ := result.apart j k less few
    rw [frame j (by omega),frame k few]
    intro same
    have taken := (drawnFrame first.2).2.2.1
    rw [same] at taken
    exact (drawnFrame second.2).2.1 taken
  · intro n less
    unfold pageFrame
    rw [translation,translation]
    exact (resolveOutside grounded grounded' filled (Nat.le_refl 3) (by rw [number n (by omega)]; exact Or.inl less)).1
  · intro f
    rw [result.frames f]
    refine or_congr_right ⟨?_,?_⟩
    · rintro ⟨k,few,member⟩
      exact ⟨k,few,(frame k few).trans (List.mem_singleton.mp member).symm⟩
    · rintro ⟨k,few,same⟩
      exact ⟨k,few,List.mem_singleton.mpr (same.symm.trans (frame k few))⟩

end

section
variable {ι σ : Type} [PageAllocator σ] {root m : ι → Nat} {s s' : Contexts ι σ} {e : MapCall ι}

structure Isolated (root m : ι → Nat) (s : Contexts ι σ) : Prop where
  slots : ∀ i, 1 ≤ m i ∧ m i < 512
  tree : ∀ i, Tree s.world (root i)
  apart : ∀ i j, i ≠ j → TreesApart s.world.memory (root i) (root j)
  cursor : ∀ i, ∃ p, Cursor (root i) 3 (m i) (entries s.world.memory (root i)) (s.context i) p ∧
    Frontier shape (entries s.world.memory (root i)) 3 p ∧ ∀ n, s.Paged i n → n < p
  held : ∀ i n, s.Paged i n → IsPage (s.frame root i n) ∧
    PageAllocator.Taken s.world.allocator (s.frame root i n) ∧ s.frame root i n ∉ s.world.tables
  recorded : ∀ f, f ∈ s.world.frames ↔ ∃ i n, s.Paged i n ∧ s.frame root i n = f
  once : ∀ i n j k, s.Paged i n → s.Paged j k → s.frame root i n = s.frame root j k → i = j ∧ n = k

theorem isolatedStart (separated : Separated root m s) : Isolated root m s := by
  have none : ∀ i n, ¬ s.Paged i n := by
    rintro i n ⟨g,member,_⟩
    rw [separated.noGrants] at member
    cases member
  refine ⟨fun i => ⟨(separated.prepared i).some,(separated.prepared i).few⟩,fun i => (separated.prepared i).sane.tree,
    separated.apart,?_,fun i n paged => absurd paged (none i n),?_,fun i n _ _ paged => absurd paged (none i n)⟩
  · intro i
    have layout := layoutStart (Nat.le_refl 3) (separated.prepared i)
    exact ⟨_,layout.cursor,layout.frontier,fun n paged => absurd paged (none i n)⟩
  · intro f
    rw [separated.noFrames]
    refine ⟨fun member => absurd member List.not_mem_nil,?_⟩
    rintro ⟨i,n,paged,_⟩
    exact absurd paged (none i n)

theorem isolatedExtended {i : ι} {start count : Nat} (isolated : Isolated root m s)
    (extended : Extended (root i) start count s.world s'.world)
    (later : ∀ n, s.Paged i n → n < start)
    (cursor : Cursor (root i) 3 (m i) (entries s'.world.memory (root i)) (s'.context i) (start + count))
    (frontier : Frontier shape (entries s'.world.memory (root i)) 3 (start + count))
    (others : ∀ j, j ≠ i → s'.context j = s.context j)
    (pages : ∀ j n, s'.Paged j n ↔ s.Paged j n ∨ j = i ∧ start ≤ n ∧ n < start + count) : Isolated root m s' := by
  have away : ∀ j, j ≠ i → TreesApart s.world.memory (root i) (root j) := fun j other => isolated.apart i j other.symm
  have same : ∀ j n, s.Paged j n → s'.frame root j n = s.frame root j n := by
    intro j n paged
    by_cases here : j = i
    · subst here
      exact extended.before n (later n paged)
    · exact otherFrame extended.evolves (isolated.tree j) (away j here) n
  -- A page of the call, by its place among the pages of the call.
  have place : ∀ n, start ≤ n → n < start + count → ∃ k < count, n = start + k :=
    fun n low high => ⟨n - start,by omega,by omega⟩
  have fresh : ∀ j n k, s.Paged j n → k < count → s'.frame root j n ≠ s'.frame root i (start+k) := by
    intro j n k paged few equal
    rw [same j n paged] at equal
    have free := (extended.fresh k few).2.1
    rw [show pageFrame s'.world.memory (root i) (start+k) = s.frame root j n from equal.symm] at free
    exact free (isolated.held j n paged).2.1
  refine ⟨isolated.slots,?_,?_,?_,?_,?_,?_⟩
  · intro j
    by_cases here : j = i
    · rw [here]
      exact extended.tree
    · exact otherTree extended.evolves extended.tree (isolated.tree j) (away j here)
  · intro j k differ
    by_cases left : j = i
    · subst left
      exact apartEvolved extended.evolves (isolated.tree k) (away k differ.symm)
    · by_cases right : k = i
      · subst right
        exact apartSymm (apartEvolved extended.evolves (isolated.tree j) (away j left))
      · exact apartBeside extended.evolves (isolated.tree j) (isolated.tree k) (away j left) (away k right)
          (isolated.apart j k differ)
  · intro j
    by_cases here : j = i
    · subst here
      refine ⟨_,cursor,frontier,fun n paged => ?_⟩
      rcases (pages j n).mp paged with old | new
      · have := later n old
        omega
      · exact new.2.2
    · obtain ⟨p,cursor,frontier,before⟩ := isolated.cursor j
      rw [others j here,otherEntries extended.evolves (isolated.tree j) (away j here)]
      refine ⟨p,cursor,frontier,fun n paged => ?_⟩
      exact before n (((pages j n).mp paged).resolve_right fun new => here new.1)
  · intro j n paged
    rcases (pages j n).mp paged with old | ⟨rfl,low,high⟩
    · rw [same j n old]
      obtain ⟨page,apart⟩ := isolated.held j n old
      exact ⟨page,apartEvolves extended.evolves apart⟩
    · obtain ⟨k,few,rfl⟩ := place n low high
      obtain ⟨page,_,apart⟩ := extended.fresh k few
      exact ⟨page,apart⟩
  · intro f
    rw [extended.frames,isolated.recorded]
    constructor
    · rintro (⟨j,n,paged,rfl⟩ | ⟨k,few,rfl⟩)
      · exact ⟨j,n,(pages j n).mpr (Or.inl paged),same j n paged⟩
      · exact ⟨i,start+k,(pages i _).mpr (Or.inr ⟨rfl,by omega,by omega⟩),rfl⟩
    · rintro ⟨j,n,paged,rfl⟩
      rcases (pages j n).mp paged with old | ⟨rfl,low,high⟩
      · exact Or.inl ⟨j,n,old,(same j n old).symm⟩
      · obtain ⟨k,few,rfl⟩ := place n low high
        exact Or.inr ⟨k,few,rfl⟩
  · intro j n j' n' paged paged' equal
    rcases (pages j n).mp paged with old | ⟨rfl,low,high⟩
    · rcases (pages j' n').mp paged' with old' | ⟨rfl,low',high'⟩
      · rw [same j n old,same j' n' old'] at equal
        exact isolated.once j n j' n' old old' equal
      · obtain ⟨k,few,rfl⟩ := place n' low' high'
        exact absurd equal (fresh j n k old few)
    · obtain ⟨k,few,rfl⟩ := place n low high
      rcases (pages j' n').mp paged' with old' | ⟨rfl,low',high'⟩
      · exact absurd equal.symm (fresh j' n' k old' few)
      · obtain ⟨k',few',rfl⟩ := place n' low' high'
        rcases Nat.lt_trichotomy k k' with less | rfl | more
        · exact absurd equal (extended.distinct k k' less few')
        · exact ⟨rfl,rfl⟩
        · exact absurd equal.symm (extended.distinct k' k more few)

theorem refusedSame {fuel v : Nat} {t : Machine σ} (choice : spotChoice (s.context e.context) e.bytes e.flags = .refuse)
    (call : perform fuel (s.machine e.context) (.map .allocated e.bytes e.flags) = .ok (v,t)) :
    v = 0 ∧ t = s.machine e.context := by
  obtain ⟨⟨⟨v',c'⟩,w'⟩,run,same⟩ := mapOk call
  cases same
  obtain ⟨same,world⟩ := returned (refusedRuns choice) run
  cases same
  subst world
  exact ⟨rfl,rfl⟩

theorem grantedExtends {fuel v p : Nat} {t : Machine σ} (isolated : Isolated root m s)
    (cursor : Cursor (root e.context) 3 (m e.context) (entries s.world.memory (root e.context)) (s.context e.context) p)
    (frontier : Frontier shape (entries s.world.memory (root e.context)) 3 p)
    (granted : spotChoice (s.context e.context) e.bytes e.flags ≠ .refuse)
    (bound : e.bytes ≤ 2^39 ∨ (s.context e.context).level3Table ≠ 0)
    (inside : startOf 3 (m e.context) (s.context e.context) e.bytes e.flags + blocks 3 e.bytes < 512^4)
    (call : perform fuel (s.machine e.context) (.map .allocated e.bytes e.flags) = .ok (v,t)) :
    ∃ start, p ≤ start ∧ v = start * span 3 ∧ Extended (root e.context) start (blocks 3 e.bytes) s.world t.world ∧
      Cursor (root e.context) 3 (m e.context) (entries t.world.memory (root e.context)) t.context (start + blocks 3 e.bytes) ∧
      Frontier shape (entries t.world.memory (root e.context)) 3 (start + blocks 3 e.bytes) := by
  have some : e.bytes ≠ 0 := fun zero => granted (by simp [spotChoice,zero])
  have tree := isolated.tree e.context
  have later := startLater e.bytes e.flags tree (by decide) cursor
  obtain ⟨⟨⟨v',c'⟩,w'⟩,run,same⟩ := mapOk call
  cases same
  obtain ⟨val,value,result,cursor',frontier'⟩ := runsReturned (mapCursorRuns tree (plainDepth e)
    (isolated.slots e.context).2 cursor frontier granted bound ⟨some,rfl⟩ inside) run
  exact ⟨_,later,value,resultExtended (plainDepth e) inside result,cursor',frontier'⟩

variable [DecidableEq ι]

theorem isolatedStep (isolated : Isolated root m s) (inside : InsideSlots m s e) (tables : HasTables s e)
    (move : (interleaving root m).step s e s') : Isolated root m s' := by
  obtain ⟨fuel,v,t,call,rfl⟩ := move
  by_cases refused : spotChoice (s.context e.context) e.bytes e.flags = .refuse
  · obtain ⟨rfl,rfl⟩ := refusedSame refused call
    rw [if_pos rfl,show (s.machine e.context).context = s.context e.context from rfl,Function.update_eq_self]
    exact isolated
  · obtain ⟨p,cursor,frontier,before⟩ := isolated.cursor e.context
    obtain ⟨start,later,rfl,extended,cursor',frontier'⟩ := grantedExtends isolated cursor frontier refused
      (tables.resolve_left refused) (inside.resolve_left refused) call
    have some : e.bytes ≠ 0 := fun zero => refused (by simp [spotChoice,zero])
    have past := cursorPast cursor
    have positive : start * span 3 ≠ 0 := by
      have slot := (isolated.slots e.context).1
      unfold span
      omega
    refine isolatedExtended isolated extended (fun n paged => ?_) ?_ frontier' ?_ ?_
    · have := before n paged
      omega
    · dsimp only
      rw [Function.update_self]
      exact cursor'
    · intro j other
      exact Function.update_of_ne other _ _
    · intro j n
      unfold Contexts.Paged
      dsimp only
      rw [if_neg positive]
      simp only [List.mem_cons,exists_eq_or_imp,coversPages some e.word]
      rw [or_comm,@eq_comm _ e.context j]

theorem framesIsolated {es : List (MapCall ι)}
    (run : ((interleaving root m).restrict fun s e => InsideSlots m s e ∧ HasTables s e).Run es s) :
    ∀ f ∈ s.world.frames, (∃! p : ι × Nat, s.Paged p.1 p.2 ∧ s.frame root p.1 p.2 = f) ∧
      (∀ i d q, tab shape (root i) (entries s.world.memory (root i)) d q ≠ some f) ∧
      f ∉ s.world.tables ∧ ∀ a ∈ s.world.accesses, a.1+a.2 ≤ f ∨ f+4096 ≤ a.1 := by
  have step : ∀ (s : Contexts ι σ) e s', Isolated root m s →
      (InsideSlots m s e ∧ HasTables s e) ∧ (interleaving root m).step s e s' → Isolated root m s' :=
    fun _ _ _ isolated move => isolatedStep isolated move.1.1 move.1.2 move.2
  have isolated := invariant (fun _ separated => isolatedStart separated) step run
  intro f member
  obtain ⟨i,n,paged,rfl⟩ := (isolated.recorded f).mp member
  obtain ⟨page,_,noTable⟩ := isolated.held i n paged
  refine ⟨⟨(i,n),⟨paged,rfl⟩,?_⟩,?_,noTable,?_⟩
  · rintro ⟨j,k⟩ ⟨other,same⟩
    obtain ⟨rfl,rfl⟩ := isolated.once j k i n other paged same
    rfl
  · intro j d q found
    exact noTable ((isolated.tree j).linked d q _ found)
  · intro a access
    obtain ⟨t,member,low,high⟩ := (isolated.tree i).inside a access
    have differs : s.frame root i n ≠ t := fun same => noTable (same ▸ member)
    have aligned := ((isolated.tree i).tables t member).1.1
    have whole := page.1
    omega

end

/-! Two contexts over one machine: level-4 tables at 0x1000 and 0x40000. -/

def pairRoot (i : Bool) : Nat := if i then 0x40000 else 0x1000

def pairWorld : World PhysicalMemory.Bitmap := ⟨fun _ => 0,twoWords,false,0,[0x1000,0x40000],[],[]⟩

theorem pairSane (i : Bool) : Sane (pairRoot i) ⟨pairWorld,nullContext (pairRoot i)⟩ := by
  have clear : ∀ w b, (twoWords.state.allocationTable w).getLsbD b = decide (b < 2) := by
    intro w b
    have bits : (3#64).getLsbD b = decide (b < 2) := by
      have value : (3#64) = BitVec.ofNat 64 (2^2-1) := rfl
      rw [value,BitVec.getLsbD_ofNat,Nat.testBit_two_pow_sub_one]
      simp
      omega
    exact bits
  refine ⟨treeBlank (entriesBlank fun _ _ => rfl) (by cases i <;> decide) ?_ (fun a member => nomatch member),rfl⟩
  intro g member
  have known : g = 0x1000 ∨ g = 0x40000 := by simpa [pairWorld] using member
  refine ⟨by unfold IsPage; omega,?_⟩
  rintro ⟨w,_,b,_,same,free⟩
  unfold PhysicalMemory.pageAddress at same
  have taken : (twoWords.state.allocationTable w).getLsbD b = true := by
    rw [clear]
    exact decide_eq_true (by omega)
  exact Bool.noConfusion (taken.symm.trans free)

theorem pairApart : TreesApart pairWorld.memory 0x1000 0x40000 := by
  have only : ∀ root d q t, tab shape root (entries pairWorld.memory root) d q = some t → t = root := by
    intro root d q t found
    cases d with
    | zero =>
      simp only [tab] at found
      split at found
      · exact (Option.some.inj found).symm
      · cases found
    | succ d =>
      rw [show tab shape root (entries pairWorld.memory root) (d+1) q = shape.link d (entries pairWorld.memory root d q) from rfl,
        show entries pairWorld.memory root d q = 0 from entriesBlank (fun _ _ => rfl) d q,linkZero] at found
      cases found
  intro d q e r t here there
  have left := only _ d q t here
  have right := only _ e r t there
  omega

theorem pairSeparated {s t : Machine PhysicalMemory.Bitmap} {v v' : Nat}
    (first : perform 1 ⟨pairWorld,nullContext 0x1000⟩ (.mapAt (.physical 0x50000) 0x3000 4096 2) = .ok (v,s))
    (second : perform 1 ⟨s.world,nullContext 0x40000⟩ (.mapAt (.physical 0x60000) 0x3000 4096 2) = .ok (v',t))
    (used : ∀ i, entries t.world.memory (pairRoot i) 0 0 ≠ 0) (frames : t.world.frames = []) :
    Separated pairRoot (fun _ => 1) ⟨t.world,fun i => nullContext (pairRoot i),[]⟩ := by
  have zero : ∀ i d n, entries pairWorld.memory (pairRoot i) d n = 0 := fun i => entriesBlank fun _ _ => rfl
  have left := pairSane false
  have right := pairSane true
  have allowed : Orderly 0x1000 ⟨pairWorld,nullContext 0x1000⟩ (.mapAt (.physical 0x50000) 0x3000 4096 2) :=
    emptyOrderly _ (zero false) fun _ => by decide
  have effect := performed left allowed first
  have evolves := effectEvolves effect
  have sane := effectSane left effect
  have same := otherEntries evolves right.tree pairApart
  have other : Sane 0x40000 ⟨s.world,nullContext 0x40000⟩ := ⟨otherTree evolves sane.tree right.tree pairApart,rfl⟩
  have zero' : ∀ d n, entries s.world.memory 0x40000 d n = 0 := fun d n => (congrFun (congrFun same d) n).trans (zero true d n)
  have allowed' : Orderly 0x40000 ⟨s.world,nullContext 0x40000⟩ (.mapAt (.physical 0x60000) 0x3000 4096 2) :=
    emptyOrderly _ zero' fun _ => by decide
  have effect' := performed other allowed' second
  have evolves' := effectEvolves effect'
  have sane' := effectSane other effect'
  have apart := apartEvolved evolves right.tree pairApart
  have kept := otherEntries evolves' sane.tree (apartSymm apart)
  have slots : ∀ i, ∀ k < 512, entries t.world.memory (pairRoot i) 0 k ≠ 0 ↔ k < 1
    | false => by
      have here := used false
      rw [show entries t.world.memory (pairRoot false) = entries s.world.memory 0x1000 from kept] at here ⊢
      exact slotTaken left allowed first (zero false 0) (by decide) here
    | true => slotTaken other allowed' second (zero' 0) (by decide) (used true)
  have trees : ∀ i, Tree t.world (pairRoot i)
    | false => otherTree evolves' sane'.tree sane.tree (apartSymm apart)
    | true => sane'.tree
  have apart' := apartEvolved evolves' sane.tree (apartSymm apart)
  refine ⟨fun i => ⟨⟨trees i,rfl⟩,rfl,slots i,by decide,by decide⟩,?_,frames,rfl⟩
  rintro (_ | _) (_ | _) differ
  · exact absurd rfl differ
  · exact apartSymm apart'
  · exact apart'
  · exact absurd rfl differ

theorem framesIsolatedPair : ∃ s : Contexts Bool PhysicalMemory.Bitmap, s.world.frames.length = 3 ∧
    ∀ f ∈ s.world.frames, (∃! p : Bool × Nat, s.Paged p.1 p.2 ∧ s.frame pairRoot p.1 p.2 = f) ∧
      (∀ i d q, tab shape (pairRoot i) (entries s.world.memory (pairRoot i)) d q ≠ some f) ∧
      f ∉ s.world.tables ∧ ∀ a ∈ s.world.accesses, a.1+a.2 ≤ f ∨ f+4096 ≤ a.1 := by
  have runs : returns (perform 1 ⟨pairWorld,nullContext 0x1000⟩ (.mapAt (.physical 0x50000) 0x3000 4096 2)) (fun _ s =>
      returns (perform 1 ⟨s.world,nullContext 0x40000⟩ (.mapAt (.physical 0x60000) 0x3000 4096 2)) fun _ t =>
        (decide (t.world.frames = [] ∧ ∀ i, entries t.world.memory (pairRoot i) 0 0 ≠ 0) &&
        returns (perform 512 ⟨t.world,nullContext 0x1000⟩ (.map .allocated 8192 2)) fun _ a =>
          returns (perform 512 ⟨a.world,nullContext 0x40000⟩ (.map .allocated 4096 2)) fun _ b =>
            decide (b.world.frames.length = 3))) = true := by
    decide +kernel
  obtain ⟨v,s,first,rest⟩ := returnsOk runs
  obtain ⟨v',t,second,rest⟩ := returnsOk rest
  obtain ⟨start,rest⟩ := Bool.and_eq_true_iff.mp rest
  obtain ⟨x,a,third,rest⟩ := returnsOk rest
  obtain ⟨y,b,fourth,three⟩ := returnsOk rest
  obtain ⟨frames,used⟩ := of_decide_eq_true start
  have separated := pairSeparated first second used frames
  have plain : has 2 flag1GB = false ∧ has 2 flag2MB = false := by decide
  have fits : startOf 3 1 (nullContext 0x1000) 8192 2 + blocks 3 8192 < 512^4 ∧
      startOf 3 1 (nullContext 0x40000) 4096 2 + blocks 3 4096 < 512^4 := by decide
  have small : 8192 ≤ 2^39 ∧ 4096 ≤ 2^39 := by decide
  refine ⟨_,of_decide_eq_true three,@framesIsolated _ _ _ _ _ _ _
    [⟨true,4096,2,by decide,plain⟩,⟨false,8192,2,by decide,plain⟩]
    (.step (.step (.start separated) ⟨⟨Or.inr fits.1,Or.inr (Or.inl small.1)⟩,512,x,a,third,rfl⟩)
      ⟨⟨Or.inr fits.2,Or.inr (Or.inl small.2)⟩,512,y,b,fourth,rfl⟩)⟩

theorem mapAtSpends {σ : Type} [PageAllocator σ] {root fuel target bytes flags v : Nat} {source : Source} {s s' : Machine σ}
    (sane : Sane root s) (orderly : Orderly root s (.mapAt source target bytes flags))
    (call : perform fuel s (.mapAt source target bytes flags) = .ok (v,s')) :
    pool s.world ≤ pool s'.world + (3 + demand source (depthOf flags) (numberAt target (depthOf flags)) bytes) := by
  obtain ⟨⟨v',w'⟩,run,same⟩ := mapOk call
  cases same
  exact runsSpent (@mapFixedRuns _ _ _ _ _ False _ _ _ _ sane.rooted sane.tree orderly.1.2 orderly.2) run

/-! A context of one process with eight terabytes of free pages, and level-4 slot 0 in use. -/

open PhysicalMemory in
def largeMemory : Bitmap where
  state := ⟨fun _ => 3#64,0,2^25,2⟩
  sound := ⟨by decide,by decide,fun w _ => twoWords.sound.upper 0 (by decide)⟩
  nullTaken := by decide
  words := by decide

def large : Machine PhysicalMemory.Bitmap :=
  ⟨⟨fun _ => 0,largeMemory,false,0,[0x1000],[],[]⟩,nullContext 0x1000⟩

theorem largeState : large.world.allocator.state = ⟨fun _ => 3#64,0,2^25,2⟩ := rfl

theorem poolAvailable (w : World PhysicalMemory.Bitmap) : pool w = w.allocator.available := rfl

open PhysicalMemory in
theorem wordsFree (length used : Nat) : 30*length ≤ (clearBelow ⟨fun _ => 3#64,0,length,used⟩ (64*length)).card := by
  have clear : ∀ b : Fin 64, 2 ≤ b.val → (3#64).getLsbD b.val = false := by decide
  rw [← Finset.card_range (30*length)]
  refine Finset.card_le_card_of_injOn (fun k => 64*(k/30) + (k%30+2)) ?_ ?_
  · intro k member
    have inside := Finset.mem_range.mp (Finset.mem_coe.mp member)
    simp only [clearBelow,Finset.coe_filter,Finset.mem_range,Set.mem_ofPred_eq]
    refine ⟨by omega,by omega,?_⟩
    exact clear ⟨(64*(k/30) + (k%30+2)) % 64,by omega⟩ (by dsimp only; omega)
  · intro j _ k _ same
    dsimp only at same
    omega

theorem wordsAvailable {b : PhysicalMemory.Bitmap} {length used : Nat} (state : b.state = ⟨fun _ => 3#64,0,length,used⟩) :
    30*length ≤ b.available := by
  unfold PhysicalMemory.Bitmap.available
  rw [state]
  exact wordsFree length used

theorem largeSane : Sane 0x1000 large :=
  ⟨treeBlank blankZero (List.mem_singleton.mpr rfl) (rootTaken (show (3#64).getLsbD 1 = true by decide)) (fun a member => nomatch member),rfl⟩

theorem largePrepared : ∃ s : Machine PhysicalMemory.Bitmap, Prepared 0x1000 1 s ∧ s.world.frames = [] ∧ ByteMemory.readWord s.world.memory 0 = 0 ∧
    4*(2^27+1) ≤ pool s.world := by
  have runs : returns (perform 1 large (.mapAt (.physical 0x50000) 0x3000 4096 2)) (fun _ s =>
      decide (s.context = nullContext 0x1000 ∧ s.world.frames = [] ∧ ByteMemory.readWord s.world.memory 0 = 0 ∧
        s.entries 0x1000 0 0 ≠ 0)) = true := by
    decide +kernel
  obtain ⟨v,s,call,facts⟩ := returnsOk runs
  obtain ⟨null,frames,zero,used⟩ := of_decide_eq_true facts
  have allowed : Orderly 0x1000 large (.mapAt (.physical 0x50000) 0x3000 4096 2) := emptyOrderly _ blankZero fun _ => by decide
  have sane := effectSane largeSane (performed largeSane allowed call)
  have slots := slotTaken largeSane allowed call (blankZero 0) (by decide) used
  refine ⟨s,⟨sane,null,slots,by decide,by decide⟩,frames,zero,?_⟩
  have spent := mapAtSpends largeSane allowed call
  have cost : demand (.physical 0x50000) (depthOf 2) (numberAt 0x3000 (depthOf 2)) 4096 = 0 := by decide
  have free := wordsAvailable largeState
  rw [cost,poolAvailable] at spent
  omega

def Machine.alone {σ : Type} (s : Machine σ) : Contexts Unit σ := ⟨s.world,fun _ => s.context,[]⟩

theorem nullPerforms {σ : Type} [PageAllocator σ] {root bytes flags pages : Nat} {s : Machine σ} (some : bytes ≠ 0)
    (count : units bytes 12 = pages) (many : 513 ≤ pages) (null : s.context = nullContext root)
    (granted : spotChoice (nullContext root) bytes flags = .stay)
    (plain : has flags flag1GB = false ∧ has flags flag2MB = false) (zero : ByteMemory.readWord s.world.memory 0 = 0)
    (enough : 4*pages ≤ pool s.world) :
    ∃ v t, perform 0 s (.map .allocated bytes flags) = .ok (v,t) ∧ FrameTouched t.world := by
  obtain ⟨⟨v,c⟩,w,call,touched,_⟩ := runsReturns (@nullCallRuns _ _ 0 root bytes flags pages s.world some count many granted
    plain zero) id enough
  refine ⟨v,⟨w,c⟩,?_,touched⟩
  change (pagingMap 0 s.context bytes flags s.world).map _ = _
  rw [null,call]
  rfl

theorem framesTouched : ∃ (s : Contexts Unit PhysicalMemory.Bitmap) (e : MapCall Unit), e.bytes = 2^39+1 ∧
    ((interleaving (fun _ => 0x1000) fun _ => 1).restrict (InsideSlots fun _ => 1)).Run [e] s ∧
    ∃ f ∈ s.world.frames, (f,8) ∈ s.world.accesses := by
  obtain ⟨s,prepared,frames,zero,free⟩ := largePrepared
  have granted : spotChoice (nullContext 0x1000) (2^39+1) 2 = .stay := by decide
  have inside : startOf 3 1 (nullContext 0x1000) (2^39+1) 2 + blocks 3 (2^39+1) < 512^4 := by decide
  have count : units (2^39+1) 12 = 2^27+1 := by decide
  have plain : has 2 flag1GB = false ∧ has 2 flag2MB = false := by decide
  obtain ⟨v,t,call,touched⟩ := nullPerforms (by decide) count (by decide) prepared.null granted plain zero free
  have separated : Separated (fun _ => 0x1000) (fun _ => 1) s.alone :=
    ⟨fun _ => prepared,fun i j differ => absurd rfl differ,frames,rfl⟩
  have slots : InsideSlots (fun _ => 1) s.alone ⟨(),2^39+1,2,by decide,plain⟩ := by
    unfold InsideSlots
    change _ ∨ startOf 3 1 s.context (2^39+1) 2 + blocks 3 (2^39+1) < 512^4
    rw [prepared.null]
    exact Or.inr inside
  exact ⟨_,⟨(),2^39+1,2,by decide,plain⟩,rfl,.step (.start separated) ⟨slots,0,v,t,call,rfl⟩,touched⟩

end Kokos.Paging

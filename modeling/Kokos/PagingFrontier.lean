import Kokos.PagingOperations
import Kokos.RadixFrontier

/-! Mapping at the cursor, one size of page at a time. Level-4 slots 0..m-1 are in
use; behind them the tables grow to the right, and the cursor stands at their
frontier. It starts out null, and the first search places it. -/
namespace Kokos.Paging
open BudgetedCalls RadixTables

inductive Cursor (root d m : Nat) (E : Nat → Nat → Nat) (c : PagingContext) : Nat → Prop where
  | null (same : c = nullContext root) (full : ∀ k < m, E 0 k ≠ 0) (free : E 0 m = 0) : Cursor root d m E c (m*512^d)
  | placed {p} (points : Points root E c d p) (lower : ∀ e, d < e → e ≤ 3 → c.table e = 0 ∧ c.index e = 0)
      (past : m*512^d ≤ p) : Cursor root d m E c p

def PagingContext.position (d m : Nat) (c : PagingContext) : Nat :=
  if c.level3Table = 0 then m*512^d else c.address / span d

def startOf (d m : Nat) (c : PagingContext) (bytes flags : Nat) : Nat :=
  match spotChoice c bytes flags with
  | .find e => if c.level3Table = 0 ∨ e = d then c.position d m
      else (c.position d m / 512^(d-e) + 1) * 512^(d-e)
  | _ => c.position d m

def Suits (huge : Bool) (d : Nat) (source : Source) (bytes : Nat) : Prop :=
  bytes ≠ 0 ∧ match source with
    | .physical address => (d = 1 → huge = true) ∧ address % span d = 0
    | .allocated => d = 3

theorem nullTable (root : Nat) : (nullContext root).level3Table = 0 := rfl

theorem nullBelow (root : Nat) {e : Nat} (below : 0 < e) : (nullContext root).table e = 0 ∧ (nullContext root).index e = 0 := by
  match e, below with
  | 1, _ | 2, _ | e+3, _ => exact ⟨rfl,rfl⟩

theorem blankLeaf {d : Nat} (depth : d ≤ 3) : ∀ e < d, shape.leaf e 0 = false := fun _ he => leafZero (by omega)

theorem spanPositive (d : Nat) : 0 < span d := Nat.mul_pos (by decide) (Nat.pow_pos (by decide))

theorem offsetNumber {d n count o : Nat} (depth : d ≤ 3) (inside : n + count < 512^(d+1)) (ho : o < count * span d) :
    o / span d < count ∧ numberAt (n * span d + o) d = n + o / span d ∧
      (n * span d + o) % span d = o % span d ∧ n * span d + o < 2^48 := by
  have positive := spanPositive d
  have low : n * span d + o < 2^48 := by
    rw [← spaceSize depth]
    calc n * span d + o < n * span d + count * span d := Nat.add_lt_add_left ho _
      _ = (n + count) * span d := (Nat.add_mul _ _ _).symm
      _ ≤ 512^(d+1) * span d := Nat.mul_le_mul_right _ (Nat.le_of_lt inside)
  refine ⟨(Nat.div_lt_iff_lt_mul positive).mpr ho,?_,?_,low⟩
  · rw [numberOf low,Nat.mul_comm,Nat.mul_add_div positive]
  · rw [Nat.mul_comm,Nat.mul_add_mod]

section
variable {root d m p : Nat} {E E' : Nat → Nat → Nat} {c : PagingContext} {bytes flags : Nat}

theorem pointsNonzero (points : Points root E c d p) {e : Nat} (he : e < d) : E e (p / 512^(d-e)) ≠ 0 := by
  have below := (pointsUp points (show e+1 ≤ d by omega)).2.1
  simp only [tab] at below
  have pow : p / 512^(d-(e+1)) / 512 = p / 512^(d-e) := by
    rw [Nat.div_div_eq_div_mul,← Nat.pow_succ,show (d-(e+1)).succ = d-e by omega]
  rw [pow] at below
  exact (linkSome below).1

theorem spotNull (some : bytes ≠ 0) (bound : bytes ≤ 2^39) (root flags : Nat) :
    spotChoice (nullContext root) bytes flags = .find 0 := by
  unfold spotChoice
  rw [if_neg some,if_neg (fun h => h.2.1 rfl),if_neg (fun h => h.2 rfl),if_pos (by omega),if_pos (Or.inr (nullTable root))]

theorem searchSlots {k : Nat} (few : m < 512) (full : ∀ k < m, E 0 k ≠ 0) (free : E 0 m = 0) (le : k ≤ m) :
    Search E 0 (m-k) m k 0 := by
  induction k with
  | zero => exact .here free
  | succ k ih =>
    have next : following 0 (m-(k+1)) = m-k := by
      unfold following
      rw [if_pos (by omega)]
      omega
    have rest := ih (by omega)
    rw [← next] at rest
    exact .further (full _ (by omega)) (fun e he => by omega) rest

end

section
variable {σ : Type} [PageAllocator σ] {root d m p : Nat} {w : World σ} {c : PagingContext} {bytes flags : Nat}

theorem placedTable (tree : Tree w root) (low : 1 ≤ d) (points : Points root (entries w.memory root) c d p) :
    c.level3Table ≠ 0 := by
  have table := (pointsUp points low).2.1
  have page := (treePage tree table).1.2.1
  exact Nat.pos_iff_ne_zero.mp page

theorem cursorPosition (tree : Tree w root) (low : 1 ≤ d)
    (cursor : Cursor root d m (entries w.memory root) c p) : c.position d m = p := by
  unfold PagingContext.position
  cases cursor with
  | null same _ _ => rw [same,if_pos (nullTable root)]
  | placed points lower _ =>
    rw [if_neg (placedTable tree low points),addressOf points fun e he high => (lower e he high).2,
      Nat.mul_div_cancel _ (spanPositive d)]

theorem startLater (bytes flags : Nat) (tree : Tree w root) (low : 1 ≤ d)
    (cursor : Cursor root d m (entries w.memory root) c p) : p ≤ startOf d m c bytes flags := by
  unfold startOf
  rw [cursorPosition tree low cursor]
  split
  · split
    · exact Nat.le_refl _
    · exact Nat.le_of_lt (Nat.lt_mul_of_div_lt (Nat.lt_succ_self _) (Nat.pow_pos (by decide)))
  · exact Nat.le_refl _

theorem cursorSpot (tree : Tree w root) (size : depthOf flags = d) (few : m < 512)
    (cursor : Cursor root d m (entries w.memory root) c p) (frontier : Frontier shape (entries w.memory root) d p)
    (granted : spotChoice c bytes flags ≠ .refuse) (bound : bytes ≤ 2^39 ∨ c.level3Table ≠ 0)
    (room : startOf d m c bytes flags < 512^(d+1)) :
    ∃ steps toll, SpotAt root (entries w.memory root) c bytes flags (startOf d m c bytes flags) steps toll ∧
      steps ≤ 511 := by
  obtain ⟨low,high⟩ := depthCases flags
  rw [size] at low high
  have position := cursorPosition tree low cursor
  cases choice : spotChoice c bytes flags with
  | refuse => exact absurd choice granted
  | stay =>
    have start : startOf d m c bytes flags = p := by simp only [startOf,choice,position]
    cases cursor with
    | null same _ _ =>
      subst same
      have small : bytes ≤ 2^39 := bound.resolve_right fun h => h rfl
      have zero : bytes ≠ 0 := fun zero => by simp [spotChoice,zero] at choice
      rw [spotNull zero small] at choice
      cases choice
    | placed points _ _ =>
      rw [start]
      exact ⟨0,0,.stay choice (by rwa [size]),by decide⟩
  | find e =>
    have le := (choiceDepth choice).2
    rw [size] at le
    cases cursor with
    | null same full free =>
      subst same
      have small : bytes ≤ 2^39 := bound.resolve_right fun h => h rfl
      have zero : bytes ≠ 0 := fun zero => by simp [spotChoice,zero] at choice
      have first := choice
      rw [spotNull zero small] at first
      cases first
      have start : startOf d m (nullContext root) bytes flags = m*512^(depthOf flags - 0) := by
        simp only [startOf,choice,position,size]
        rw [if_pos (Or.inl (nullTable root)),Nat.sub_zero]
      have points : Points root (entries w.memory root) (nullContext root) 0 0 := ⟨rfl,rfl,by decide⟩
      have slots := searchSlots few full free (Nat.le_refl m)
      rw [Nat.sub_self] at slots
      rw [start]
      exact ⟨m,_,.find choice points slots,by omega⟩
    | placed points lower past =>
      have there := placedTable tree low points
      have up := pointsUp points le
      by_cases last : e = d
      · -- The entry the cursor points at is itself free.
        subst last
        have start : startOf e m c bytes flags = p*512^(depthOf flags - e) := by
          simp only [startOf,choice,position,size]
          rw [if_pos (Or.inr trivial),Nat.sub_self,Nat.pow_zero,Nat.mul_one]
        rw [start]
        exact ⟨0,_,.find choice points (.here frontier.empty),by decide⟩
      · -- The cursor's own table of depth e is in use, and the one after it is free.
        have start : startOf d m c bytes flags = (p / 512^(d-e) + 1)*512^(depthOf flags - e) := by
          simp only [startOf,choice,position,size]
          rw [if_neg (fun either => either.elim there last)]
        have inside : p / 512^(d-e) + 1 < 512^(e+1) := by
          rw [start,size,show d+1 = (e+1)+(d-e) by omega,Nat.pow_add] at room
          exact Nat.lt_of_mul_lt_mul_right room
        obtain ⟨clear,free⟩ := frontierBeside (blankLeaf high) frontier le
        have next : following e (p / 512^(d-e)) = p / 512^(d-e) + 1 := if_pos inside
        have search : Search (entries w.memory root) e (p / 512^(d-e)) (p / 512^(d-e) + 1) (0+1) _ :=
          .further (pointsNonzero points (by omega)) (by rw [next]; exact clear) (by rw [next]; exact .here free)
        rw [start]
        exact ⟨0+1,_,.find choice up search,by decide⟩

theorem frontierRunway {E : Nat → Nat → Nat} {start : Nat} (size : depthOf flags = d) (frontier : Frontier shape E d start) :
    Runway E start bytes flags := by
  intro j low _ _
  have high := (depthCases flags).2
  rw [size] at high ⊢
  refine ⟨(frontierLater (blankLeaf high) frontier (by omega)).clear,fun one first => ?_⟩
  refine frontier.ahead 0 _ (Nat.zero_le _) ?_
  rw [one,shapeFanout,show 1-0 = 1 from rfl,Nat.pow_one]
  omega

theorem cursorLower {E : Nat → Nat → Nat} (cursor : Cursor root d m E c p) :
    ∀ e, d < e → e ≤ 3 → c.table e = 0 ∧ c.index e = 0 := by
  cases cursor with
  | null same _ _ =>
    subst same
    exact fun e deep _ => nullBelow root (Nat.zero_lt_of_lt deep)
  | placed _ lower _ => exact lower

theorem cursorPast {E : Nat → Nat → Nat} (cursor : Cursor root d m E c p) : m*512^d ≤ p := by
  cases cursor with
  | null _ _ _ => exact Nat.le_refl _
  | placed _ _ past => exact past

theorem suitsAccepts (flags : Nat) {E : Nat → Nat → Nat} {huge : Bool} {source : Source} {start : Nat}
    (suits : Suits huge d source bytes) (free : E d start = 0) : Accepts huge E d start source bytes flags := by
  refine ⟨suits.1,?_⟩
  cases source with
  | physical address => exact ⟨suits.2.1,suits.2.2,Or.inl free⟩
  | allocated => exact ⟨suits.2,free⟩

theorem resultReaches {source : Source} {n : Nat} {c' : PagingContext} {w' : World σ} {val : Nat → Nat}
    (size : depthOf flags = d) (inside : n + blocks d bytes < 512^(d+1))
    (result : MapResult source root n bytes flags c w w' true c' (blocks d bytes) val) :
    ∀ o < blocks d bytes * span d, resolve (entries w'.memory root) (n * span d + o) =
      (val (o / span d) &&& 0xFFFFFFFFFF000) + o % span d := by
  have high := (depthCases flags).2
  rw [size] at high
  intro o ho
  obtain ⟨index,number,offset,_⟩ := offsetNumber high inside ho
  have filled := result.filled
  have leaf := valueLeaf (result.values _ index)
  rw [size] at filled leaf
  rw [(resolveInside (entriesGrounded w'.memory root) filled high index number leaf).1]
  exact congrArg _ offset

theorem physicalReaches {given n : Nat} {c' : PagingContext} {w' : World σ} {val : Nat → Nat} (size : depthOf flags = d)
    (aligned : given % span d = 0) (bound : given + blocks d bytes * span d ≤ 2^52) (inside : n + blocks d bytes < 512^(d+1))
    (result : MapResult (.physical given) root n bytes flags c w w' true c' (blocks d bytes) val) :
    ∀ o < blocks d bytes * span d, resolve (entries w'.memory root) (n * span d + o) = given + o := by
  obtain ⟨low,high⟩ := depthCases flags
  rw [size] at low high
  intro o ho
  have split : span d * (o / span d) + o % span d = o := Nat.div_add_mod o (span d)
  have value := result.values _ (offsetNumber high inside ho).1
  rw [size] at value
  have frame : val (o / span d) &&& 0xFFFFFFFFFF000 = given + span d * (o / span d) := by
    rw [show val (o / span d) = physicalEntry d given (pagingConvertFlags (flags % 2^16)) (o / span d) from value]
    exact physicalFrame low aligned (by omega) _
  rw [resultReaches size inside result o ho,frame]
  omega

theorem drawnFrames {n bytes flags : Nat} {c c' : PagingContext} {w' : World σ} {val : Nat → Nat}
    (result : MapResult .allocated root n bytes flags c w w' true c' (blocks 3 bytes) val) :
    (∀ i j, i < j → j < blocks 3 bytes → (val i &&& 0xFFFFFFFFFF000) ≠ (val j &&& 0xFFFFFFFFFF000)) ∧
      ∀ i < blocks 3 bytes, IsPage (val i &&& 0xFFFFFFFFFF000) ∧ ¬ PageAllocator.Taken w.allocator (val i &&& 0xFFFFFFFFFF000) ∧
        PageAllocator.Taken w'.allocator (val i &&& 0xFFFFFFFFFF000) := by
  refine ⟨fun i j less high same => ?_,fun i hi => ?_⟩
  · obtain ⟨mid,left,right⟩ := result.apart i j less high
    have held := (drawnFrame left.2).2.2.1
    rw [same] at held
    exact (drawnFrame right.2).2.1 held
  · obtain ⟨page,free,taken,_⟩ := drawnFrame (result.values i hi).2
    exact ⟨page,free,taken⟩

theorem mapCursorRuns {fuel : Nat} {source : Source} (tree : Tree w root) (size : depthOf flags = d) (few : m < 512)
    (cursor : Cursor root d m (entries w.memory root) c p) (frontier : Frontier shape (entries w.memory root) d p)
    (granted : spotChoice c bytes flags ≠ .refuse) (bound : bytes ≤ 2^39 ∨ c.level3Table ≠ 0)
    (suits : Suits w.hugepagesSupported d source bytes)
    (room : startOf d m c bytes flags + blocks d bytes < 512^(d+1)) :
    Runs pool (fuel ≤ 511) (8 + demand source d (startOf d m c bytes flags) bytes)
      (mapAnywhere source fuel c bytes flags) w fun r w' => ∃ val,
        r.1 = startOf d m c bytes flags * span d ∧
        MapResult source root (startOf d m c bytes flags) bytes flags c w w' true r.2 (blocks d bytes) val ∧
        Cursor root d m (entries w'.memory root) r.2 (startOf d m c bytes flags + blocks d bytes) ∧
        Frontier shape (entries w'.memory root) d (startOf d m c bytes flags + blocks d bytes) := by
  obtain ⟨low,high⟩ := depthCases flags
  rw [size] at low high
  have later := startLater bytes flags tree low cursor
  have lower := cursorLower cursor
  have past := cursorPast cursor
  obtain ⟨steps,toll,spot,short⟩ := cursorSpot tree size few cursor frontier granted bound (by omega)
  generalize startOf d m c bytes flags = start at *
  have front := frontierLater (blankLeaf high) frontier later
  subst size
  refine runsMono (mapAnywhereRuns tree spot fun _ => frontierRunway rfl front) (by omega) (by omega) ?_
  rintro r w' ⟨ok,c1,done,val,result,points,below,value,last⟩
  have accepts := suitsAccepts flags suits front.empty
  obtain rfl := resultFinished result room (last accepts)
  obtain ⟨all,_,points',below'⟩ := result.succeeds rfl
  subst all
  have kept : ∀ {c'}, SameBelow (depthOf flags) c c' → ∀ e, depthOf flags < e → e ≤ 3 → c'.table e = 0 ∧ c'.index e = 0 := by
    intro c' same e he he3
    have here := same e he he3
    have zero := lower e he he3
    exact ⟨here.1.trans zero.1,here.2.trans zero.2⟩
  refine ⟨val,?_,result,.placed points' (kept below') (by omega),?_⟩
  · rw [value,if_pos rfl]
    exact addressOf points fun e he he3 => (kept below e he he3).2
  · exact frontierFilled result.filled (Nat.le_refl _) (frontierLater (blankLeaf high) front (by omega))

end

end Kokos.Paging

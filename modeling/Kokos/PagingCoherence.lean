import Kokos.PagingFrontier
import Kokos.PagingTranslations

/-! The cursor of a context that pages of several sizes are mapped in. A mapping of
large pages moves the upper indices and leaves the pointers below them alone, so
these have to be null when it starts; sizes may shrink from call to call, not grow. -/
namespace Kokos.Paging
open BudgetedCalls RadixTables

def PagingContext.number (c : PagingContext) : Nat → Nat
  | 0 => c.level4Index
  | d+1 => c.number d * 512 + c.index (d+1)

def Coherent (root : Nat) (E : Nat → Nat → Nat) (c : PagingContext) : Prop :=
  c.level4Table = root ∧ ∀ e < 3, c.table (e+1) = (tab shape root E (e+1) (c.number e)).getD 0

def Ready (E : Nat → Nat → Nat) (start bytes flags : Nat) : Prop :=
  Runway E start bytes flags ∧
    shape.link (depthOf flags) (E (depthOf flags) (start + blocks (depthOf flags) bytes)) = none

def Steady (E : Nat → Nat → Nat) (c : PagingContext) (bytes flags : Nat) : Prop :=
  (∀ e, depthOf flags < e → e ≤ 3 → c.table e = 0) ∧
  match spotChoice c bytes flags with
  | .refuse => True
  | .stay => c.table (depthOf flags) ≠ 0 ∧ Ready E (c.number (depthOf flags)) bytes flags
  | .find e => ∃ q steps toll, Search E e (c.number e) q steps toll ∧ Ready E (q*512^(depthOf flags - e)) bytes flags

structure Pointed (root : Nat) (E : Nat → Nat → Nat) (c : PagingContext) (k n : Nat) : Prop where
  points : Points root E c k n
  lower : ∀ e, k < e → e ≤ 3 → c.table e = 0 ∧ c.index e = 0

section
variable {root k n : Nat} {E : Nat → Nat → Nat} {c : PagingContext}

theorem pointsNumber (points : Points root E c k n) : c.number k = n := by
  induction k generalizing n with
  | zero => exact points.2.1
  | succ k ih =>
    have up := ih points.1
    have index := points.2.2
    simp only [PagingContext.number,up,index]
    omega

theorem pointedCoherent (grounded : Grounded shape E) (pointed : Pointed root E c k n)
    (end' : shape.link k (E k n) = none) : Coherent root E c := by
  refine ⟨pointsRoot pointed.points,?_⟩
  -- Below the entry pointed at there are no tables.
  have none : ∀ j, k + j < 3 → shape.link (k+j) (E (k+j) (c.number (k+j))) = none := by
    intro j
    induction j with
    | zero =>
      intro _
      rw [Nat.add_zero,pointsNumber pointed.points]
      exact end'
    | succ j ih =>
      intro less
      have above := ih (by omega)
      have zero : E (k+j+1) (c.number (k+j+1)) = 0 := by
        by_contra some
        have link := grounded (k+j) _ some
        have up : c.number (k+j+1) / shape.fanout = c.number (k+j) := by
          have index := (pointed.lower (k+j+1) (by omega) (by omega)).2
          simp only [PagingContext.number,index,shapeFanout]
          omega
        rw [up,above] at link
        contradiction
      rw [show k+(j+1) = k+j+1 from rfl,zero]
      exact linkZero _
  intro e less
  by_cases deeper : k ≤ e
  · have link := none (e-k) (by omega)
    rw [show k+(e-k) = e by omega] at link
    simp only [tab,link,(pointed.lower (e+1) (by omega) (by omega)).1]
    rfl
  · have here := pointsUp pointed.points (show e+1 ≤ k by omega)
    rw [pointsNumber here.1,here.2.1]
    rfl

end

section
variable {σ : Type} [PageAllocator σ] {root fuel k n : Nat} {start s s' : Machine σ} {source : Source} {bytes flags v : Nat}

theorem pointedTable (sane : Sane root s) (pointed : Pointed root (s.entries root) s.context k n) {e : Nat}
    (high : e ≤ 3) : s.context.table e ≠ 0 ↔ e ≤ k := by
  constructor
  · intro some
    by_contra deeper
    exact some (pointed.lower e (by omega) high).1
  · intro le
    have table := (pointsTable (pointsUp pointed.points le)).1
    exact Nat.pos_iff_ne_zero.mp (treePage sane.tree table).1.2.1

theorem findTable {c : PagingContext} {e : Nat} (choice : spotChoice c bytes flags = .find e) : e = 0 ∨ c.table e ≠ 0 := by
  unfold spotChoice at choice
  split at choice
  · cases choice
  · split at choice
    · rename_i first
      split at choice
      · cases choice
        exact Or.inr first.2.1
      · cases choice
    · split at choice
      · rename_i second
        split at choice
        · cases choice
          exact Or.inr second.2
        · cases choice
      · split at choice
        · split at choice
          · cases choice
            exact Or.inl rfl
          · cases choice
        · split at choice <;> cases choice

theorem steadySpot (sane : Sane root s) (pointed : Pointed root (s.entries root) s.context k n)
    (steady : Steady (s.entries root) s.context bytes flags) (granted : spotChoice s.context bytes flags ≠ .refuse) :
    k ≤ depthOf flags ∧ ∃ first steps toll, SpotAt root (s.entries root) s.context bytes flags first steps toll ∧
      Ready (s.entries root) first bytes flags := by
  have high := (depthCases flags).2
  have depth := pointsDepth pointed.points
  have shallow : k ≤ depthOf flags := by
    by_contra deeper
    exact (pointedTable sane pointed depth).mpr (Nat.le_refl k) (steady.1 k (by omega) depth)
  refine ⟨shallow,?_⟩
  have rest := steady.2
  cases choice : spotChoice s.context bytes flags with
  | refuse => exact absurd choice granted
  | stay =>
    rw [choice] at rest
    obtain ⟨table,ready⟩ := rest
    have same : k = depthOf flags := Nat.le_antisymm shallow ((pointedTable sane pointed high).mp table)
    have points := pointed.points
    rw [same] at points
    rw [pointsNumber points] at ready
    exact ⟨n,0,0,.stay choice points,ready⟩
  | find e =>
    rw [choice] at rest
    obtain ⟨q,steps,toll,search,ready⟩ := rest
    have le : e ≤ k := by
      by_cases top : e = 0
      · omega
      · exact (pointedTable sane pointed (by have := (choiceDepth choice).1; omega)).mp
          ((findTable choice).resolve_left top)
    have points := pointsUp pointed.points le
    rw [pointsNumber points] at search
    exact ⟨_,_,_,.find choice points search,ready⟩

theorem steadyCall (sane : Sane root s) (pointed : Pointed root (s.entries root) s.context k n)
    (steady : Steady (s.entries root) s.context bytes flags)
    (call : perform fuel s (.map source bytes flags) = .ok (v,s')) (success : v ≠ 0) :
    ∃ first c1 val, MapResult source root first bytes flags s.context s.world s'.world true s'.context
        (blocks (depthOf flags) bytes) val ∧
      Points root (s'.entries root) c1 (depthOf flags) first ∧ v = c1.address ∧
      Pointed root (s'.entries root) s'.context (depthOf flags) (first + blocks (depthOf flags) bytes) ∧
      Coherent root (s'.entries root) s'.context := by
  obtain ⟨⟨⟨v',c'⟩,w'⟩,run,same⟩ := mapOk call
  cases same
  have granted : spotChoice s.context bytes flags ≠ .refuse := by
    intro refuse
    obtain ⟨same,_⟩ := returned (refusedRuns refuse) run
    cases same
    exact success rfl
  obtain ⟨shallow,first,steps,toll,spot,runway,end'⟩ := steadySpot sane pointed steady granted
  obtain ⟨ok,c1,done,val,result,points,below,value,_⟩ := runsReturned (mapAnywhereRuns sane.tree spot fun _ => runway) run
  dsimp only at value
  obtain rfl := okOfValue value success
  obtain ⟨all,_,points',below'⟩ := result.succeeds rfl
  subst all
  have pointed' : Pointed root (entries w'.memory root) c' (depthOf flags) (first + blocks (depthOf flags) bytes) := by
    refine ⟨points',fun e he high => ?_⟩
    have same := below' e he high
    have zero := pointed.lower e (by omega) high
    exact ⟨same.1.trans zero.1,same.2.trans zero.2⟩
  have last : entries w'.memory root (depthOf flags) (first + blocks (depthOf flags) bytes) =
      entries s.world.memory root (depthOf flags) (first + blocks (depthOf flags) bytes) :=
    result.filled.beside _ _ (Nat.le_refl _) (by simp)
  have coherent := pointedCoherent (entriesGrounded w'.memory root) pointed' (by rw [last]; exact end')
  exact ⟨first,c1,val,result,points,value,pointed',coherent⟩

def Succeeds (fuel root : Nat) (s : Machine σ) : Request → Prop
  | .map source bytes flags => Steady (s.entries root) s.context bytes flags ∧
      ∀ v s', perform fuel s (.map source bytes flags) = .ok (v,s') → v ≠ 0
  | _ => False

theorem succeedsKeeps (sane : Sane root start) (null : start.context = nullContext root)
    (run : Reached fuel (Succeeds fuel root) start s) :
    Sane root s ∧ (∃ k n, Pointed root (s.entries root) s.context k n) ∧
      (s = start ∨ Coherent root (s.entries root) s.context) := by
  induction run with
  | start =>
    refine ⟨sane,⟨0,0,?_,?_⟩,Or.inl rfl⟩
    · rw [null]
      exact ⟨rfl,rfl,by decide⟩
    · rw [null]
      exact fun e low _ => nullBelow root low
  | @step s r v s' before allowed call ih =>
    obtain ⟨sane,⟨k,n,pointed⟩,_⟩ := ih
    cases r with
    | map source bytes flags =>
      obtain ⟨first,_,_,result,_,_,pointed',coherent⟩ := steadyCall sane pointed allowed.1 call (allowed.2 _ _ call)
      exact ⟨⟨result.tree,result.rooted⟩,⟨_,_,pointed'⟩,Or.inr coherent⟩
    | mapAt _ _ _ _ => exact allowed.elim
    | unmap _ _ => exact allowed.elim

theorem cursorCoherent (sane : Sane root start) (null : start.context = nullContext root)
    (run : Reached fuel (Succeeds fuel root) start s) :
    (s = start ∨ Coherent root (s.entries root) s.context) ∧
    ∀ physical bytes flags v s', depthOf flags = 3 → Steady (s.entries root) s.context bytes flags → physical < 2^52 →
      perform fuel s (.map (.physical physical) bytes flags) = .ok (v,s') → v ≠ 0 → s'.translate root v = physical := by
  obtain ⟨now,⟨k,n,pointed⟩,coherent⟩ := succeedsKeeps sane null run
  refine ⟨coherent,fun physical bytes flags v s' small steady bound call success => ?_⟩
  obtain ⟨first,c1,val,result,points,value,_,_⟩ := steadyCall now pointed steady call success
  have accepts := (result.succeeds rfl).2.1
  have filled := result.filled
  have held := result.values 0 (blocksPositive _ _)
  have leaf := valueLeaf held
  rw [small] at points accepts filled held leaf
  have address : v = first * span 3 := value.trans (addressOf points fun e _ _ => by omega)
  have number : numberAt v 3 = first + 0 := by
    rw [address]
    exact overAt (by decide) (pointsBound points)
  unfold Machine.translate
  rw [translation]
  have here := (resolveInside (entriesGrounded s'.world.memory root) filled (by decide) (blocksPositive 3 bytes) number leaf).1
  rw [show val 0 = physicalEntry 3 physical (pagingConvertFlags (flags % 2^16)) 0 from held,
    physicalFrame (by decide) accepts.2.2.1 (by omega)] at here
  rw [here,address,show 4096*512^(3-3) = span 3 from rfl,Nat.mul_mod_left]
  omega

end

theorem cursorCoherentOnePage : ∃ s s', perform 512 (blank false) (.mapAt (.physical 0x50000) 0x3000 4096 2) = .ok (0x3000,s) ∧
    perform 512 s (.map (.physical 0x60000) 4096 2) = .ok (0x8000000000,s') ∧
    Coherent 0x1000 (s'.entries 0x1000) s'.context ∧ s'.translate 0x1000 0x8000000000 = 0x60000 := by
  have runs : returns (perform 512 (blank false) (.mapAt (.physical 0x50000) 0x3000 4096 2)) (fun v s =>
      returns (perform 512 s (.map (.physical 0x60000) 4096 2)) fun v' s' =>
        decide (v = 0x3000 ∧ v' = 0x8000000000 ∧ s.context = nullContext 0x1000 ∧ s.entries 0x1000 0 0 ≠ 0 ∧
          s.entries 0x1000 0 1 = 0 ∧ Runway (s.entries 0x1000) (512^3) 4096 2 ∧
          shape.link 3 (s.entries 0x1000 3 (512^3+1)) = none ∧ s'.context ≠ nullContext 0x1000)) = true := by
    decide +kernel
  obtain ⟨v,s,first,rest⟩ := returnsOk runs
  obtain ⟨v',s',second,facts⟩ := returnsOk rest
  obtain ⟨rfl,rfl,null,used,free,runway,last,moved⟩ := of_decide_eq_true facts
  have sane := effectSane (blankSane false) (performed (blankSane false) blankOrderly first)
  have search : Search (s.entries 0x1000) 0 0 1 (0+1) _ := .further used (fun e he => by omega) (.here free)
  have steady : Steady (s.entries 0x1000) s.context 4096 2 := by
    rw [null]
    exact ⟨fun e deep high => absurd (Nat.lt_of_lt_of_le deep high) (by decide),1,_,_,search,runway,last⟩
  have succeeds : Succeeds 512 0x1000 s (.map (.physical 0x60000) 4096 2) := by
    refine ⟨steady,fun v t again => ?_⟩
    rw [second] at again
    cases again
    decide
  obtain ⟨same | coherent,_⟩ := cursorCoherent sane null (.step .start succeeds second)
  · exact absurd (same ▸ null) moved
  · have here : Reached 512 (Succeeds 512 0x1000) s s := .start
    obtain ⟨_,later⟩ := cursorCoherent sane null here
    exact ⟨s,s',first,second,coherent,later 0x60000 4096 2 _ s' rfl steady (by decide) second (by decide)⟩

/-- A 4 KiB page, a 2 MiB page that does not fit beside it, and another 4 KiB page:
the level-1 pointer is still the first page's table, and the last page is written there. -/
theorem cursorKeepsStaleTable : ∃ s s1 s2 s3 : Machine PhysicalMemory.Bitmap, s.context = nullContext 0x1000 ∧ Sane 0x1000 s ∧
    perform 512 s (.map (.physical 0x60000) 4096 2) = .ok (0x8000000000,s1) ∧
    perform 512 s1 (.map (.physical 0x200000) 0x200000 0b100010) = .ok (0x8000201000,s2) ∧
    perform 512 s2 (.map (.physical 0x70000) 4096 2) = .ok (0x8000401000,s3) ∧
    ¬ Coherent 0x1000 (s2.entries 0x1000) s2.context ∧ s3.translate 0x1000 0x8000401000 = 0 := by
  have runs : returns (perform 512 (blank false) (.mapAt (.physical 0x50000) 0x3000 4096 2)) (fun v s =>
      returns (perform 512 s (.map (.physical 0x60000) 4096 2)) fun v1 s1 =>
      returns (perform 512 s1 (.map (.physical 0x200000) 0x200000 0b100010)) fun v2 s2 =>
      returns (perform 512 s2 (.map (.physical 0x70000) 4096 2)) fun v3 s3 =>
        decide (v = 0x3000 ∧ v1 = 0x8000000000 ∧ v2 = 0x8000201000 ∧ v3 = 0x8000401000 ∧
          s.context = nullContext 0x1000 ∧
          s2.context.table 3 ≠ (tab shape 0x1000 (s2.entries 0x1000) 3 (s2.context.number 2)).getD 0 ∧
          s3.translate 0x1000 0x8000401000 = 0)) = true := by decide +kernel
  obtain ⟨v,s,first,rest⟩ := returnsOk runs
  obtain ⟨v1,s1,call1,rest⟩ := returnsOk rest
  obtain ⟨v2,s2,call2,rest⟩ := returnsOk rest
  obtain ⟨v3,s3,call3,facts⟩ := returnsOk rest
  obtain ⟨rfl,rfl,rfl,rfl,null,stale,lost⟩ := of_decide_eq_true facts
  have sane := effectSane (blankSane false) (performed (blankSane false) blankOrderly first)
  exact ⟨s,s1,s2,s3,null,sane,call1,call2,call3,fun coherent => stale (coherent.2 2 (by decide)),lost⟩

end Kokos.Paging

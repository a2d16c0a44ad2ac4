import Kokos.PagingCoherence
import Kokos.PagingRanges
import Kokos.PagingRegions

/-! The spot that a call without an address gets. The address is made of all four
indices of the cursor, also those below the size of the pages. -/
namespace Kokos.Paging
open BudgetedCalls RadixTables

section
variable {root : Nat} {E : Nat → Nat → Nat} {c : PagingContext} {bytes flags : Nat}

theorem numberNull {d : Nat} : c.number d = 0 ↔ ∀ e ≤ d, c.index e = 0 := by
  induction d with
  | zero =>
    constructor
    · intro zero e he
      obtain rfl := Nat.le_zero.mp he
      exact zero
    · intro zero
      exact zero 0 (Nat.le_refl _)
  | succ d ih =>
    have split : c.number (d+1) = 0 ↔ c.number d = 0 ∧ c.index (d+1) = 0 := by
      simp only [PagingContext.number]
      omega
    rw [split,ih]
    constructor
    · rintro ⟨above,last⟩ e he
      rcases Nat.lt_or_eq_of_le he with less | same
      · exact above e (Nat.le_of_lt_succ less)
      · rw [same]
        exact last
    · intro zero
      exact ⟨fun e he => zero e (Nat.le_succ_of_le he),zero (d+1) (Nat.le_refl _)⟩

theorem addressNull {d n : Nat} (points : Points root E c d n) :
    c.address = 0 ↔ n = 0 ∧ ∀ e, d < e → e ≤ 3 → c.index e = 0 := by
  have depth := pointsDepth points
  have all : c.address = 0 ↔ ∀ e ≤ 3, c.index e = 0 := by
    unfold PagingContext.address
    simp only [Nat.or_eq_zero_iff,Nat.shiftLeft_eq_zero_iff]
    constructor
    · rintro ⟨⟨⟨i1,i2⟩,i3⟩,i4⟩ e he
      match e with
      | 0 => exact i4
      | 1 => exact i3
      | 2 => exact i2
      | 3 => exact i1
    · intro zero
      exact ⟨⟨⟨zero 3 (by decide),zero 2 (by decide)⟩,zero 1 (by decide)⟩,zero 0 (by decide)⟩
  rw [all,← pointsNumber points,numberNull]
  constructor
  · intro zero
    exact ⟨fun e he => zero e (Nat.le_trans he depth),fun e _ => zero e⟩
  · rintro ⟨above,below⟩ e he
    rcases Nat.lt_or_ge d e with deeper | higher
    · exact below e deeper he
    · exact above e higher

theorem searchStep {e n : Nat} (clear : Clear shape E e (following e n))
    (rest : ∃ first steps toll, Search E e (following e n) first steps toll) : ∃ first steps toll, Search E e n first steps toll := by
  by_cases here : E e n = 0
  · exact ⟨n,0,0,.here here⟩
  · obtain ⟨first,steps,toll,rest⟩ := rest
    exact ⟨first,_,_,.further here clear rest⟩

theorem searchAhead {e q j n : Nat} (inside : q < 512^(e+1)) (empty : E e q = 0) (distance : n+j = q)
    (clear : ∀ r, n < r → r ≤ q → Clear shape E e r) : ∃ first steps toll, Search E e n first steps toll := by
  induction j generalizing n with
  | zero =>
    obtain rfl : n = q := distance
    exact ⟨n,0,0,.here empty⟩
  | succ j ih =>
    have next : following e n = n+1 := if_pos (by omega)
    refine searchStep ?_ ?_
    · rw [next]
      exact clear _ (by omega) (by omega)
    · rw [next]
      exact ih (by omega) fun r low high => clear r (by omega) high

def Guided (root m : Nat) (E : Nat → Nat → Nat) (c : PagingContext) (bytes flags : Nat) : Prop :=
  match spotChoice c bytes flags with
  | .refuse => True
  | .stay => Points root E c (depthOf flags) (c.number (depthOf flags))
  | .find e => Points root E c e (c.number e) ∧ ∀ r, c.number e < r → r ≤ m*512^e → Clear shape E e r

theorem guidedSpot {m : Nat} (grounded : Grounded shape E) (some : bytes ≠ 0) (bound : bytes ≤ 2^39)
    (slot : c.level4Index < m) (inside : m < 512) (free : E 0 m = 0) (guided : Guided root m E c bytes flags) :
    ∃ first steps toll, SpotAt root E c bytes flags first steps toll := by
  unfold Guided at guided
  cases choice : spotChoice c bytes flags with
  | refuse => exact absurd choice (spotGranted some bound)
  | stay =>
    rw [choice] at guided
    exact ⟨_,0,0,.stay choice guided⟩
  | find e =>
    rw [choice] at guided
    obtain ⟨points,clear⟩ := guided
    have top : c.level4Index = c.number e / 512^(e-0) := (pointsUp points (Nat.zero_le e)).2.1
    rw [Nat.sub_zero] at top
    have before : c.number e < m*512^e := (Nat.div_lt_iff_lt_mul (Nat.pow_pos (by decide))).mp (top ▸ slot)
    have last : m*512^e < 512^(e+1) := by
      rw [Nat.pow_succ']
      exact Nat.mul_lt_mul_of_pos_right inside (Nat.pow_pos (by decide))
    have empty : E e (m*512^e) = 0 := by
      by_cases high : e = 0
      · subst high
        rwa [Nat.pow_zero,Nat.mul_one]
      · refine groundedZero grounded (Nat.pos_of_ne_zero high) ?_
        rw [Nat.sub_zero,shapeFanout,Nat.mul_div_cancel _ (Nat.pow_pos (by decide)),free,linkZero]
        rfl
    obtain ⟨first,steps,toll,search⟩ := searchAhead last empty (Nat.add_sub_cancel' (Nat.le_of_lt before)) clear
    exact ⟨_,_,_,.find choice points search⟩

theorem spotEmpty {first steps toll : Nat} (grounded : Grounded shape E) (spot : SpotAt root E c bytes flags first steps toll) :
    spotChoice c bytes flags = .stay ∨ E (depthOf flags) first = 0 := by
  cases spot with
  | stay choice _ => exact Or.inl choice
  | @find e n q _ _ choice _ search =>
    have empty := searchEmpty search
    rcases Nat.lt_or_eq_of_le (choiceDepth choice).2 with deeper | same
    · refine Or.inr (groundedZero grounded deeper ?_)
      rw [shapeFanout,Nat.mul_div_cancel _ (Nat.pow_pos (by decide)),empty,linkZero]
      rfl
    · rw [← same,Nat.sub_self,Nat.pow_zero,Nat.mul_one]
      exact Or.inr empty

def Usable (E : Nat → Nat → Nat) (c : PagingContext) (first bytes flags : Nat) : Prop :=
  (spotChoice c bytes flags = .stay → E (depthOf flags) first = 0 ∨ depthOf flags < 3 ∧ has flags flagReplace = true) ∧
  first + blocks (depthOf flags) bytes < 512^(depthOf flags + 1) ∧
  ¬ (first = 0 ∧ ∀ e, depthOf flags < e → e ≤ 3 → c.index e = 0)

end

section
variable {σ : Type} {root fuel m given bytes flags v : Nat} {start s s' : Machine σ}

theorem secondSlot (source : Source) (null : s.context = nullContext root) (used : s.entries root 0 0 ≠ 0)
    (free : s.entries root 0 1 = 0) (some : bytes ≠ 0) (bound : bytes ≤ 2^39) :
    StartsAt root s (.map source bytes flags) (1*512^(depthOf flags)) := by
  have search : Search (s.entries root) 0 0 1 (0+1) _ := .further used (fun e he => by omega) (.here free)
  have points : Points root (s.entries root) s.context 0 0 := by
    rw [null]
    exact ⟨rfl,rfl,by decide⟩
  have choice : spotChoice s.context bytes flags = .find 0 := by
    rw [null]
    exact spotNull some bound root flags
  exact ⟨_,_,.find choice points search⟩

variable [PageAllocator σ]

theorem hugeSpotAligned (sane : Sane root start) (run : Reached fuel (Orderly root) start s) (word : bytes < 2^64)
    (bound : given + blocks (depthOf flags) bytes * span (depthOf flags) ≤ 2^52)
    (orderly : Orderly root s (.map (.physical given) bytes flags))
    (lower : ∀ e, depthOf flags < e → e ≤ 3 → s.context.index e = 0)
    (call : perform fuel s (.map (.physical given) bytes flags) = .ok (v,s')) (success : v ≠ 0) :
    v % span (depthOf flags) = 0 ∧ ∀ k < bytes, s'.translate root (v+k) = given+k := by
  have now := reachedSane (fun _ _ h => h) sane run
  have effect := performed now orderly call
  cases effect with
  | refused _ _ => exact absurd rfl success
  | @mapped _ _ _ n ok c1 done val starts result points below =>
    cases ok with
    | false => exact absurd rfl success
    | true =>
      obtain ⟨rfl,accepts,points',_⟩ := result.succeeds rfl
      have some : 1 ≤ bytes := Nat.pos_of_ne_zero accepts.1
      have inside : n + blocks (depthOf flags) bytes < 512^(depthOf flags + 1) := pointsBound points'
      have address : c1.address = n * span (depthOf flags) :=
        addressOf points fun e deep high => (below e deep high).2.trans (lower e deep high)
      rw [if_pos rfl,address]
      refine ⟨Nat.mul_mod_left _ _,fun k less => ?_⟩
      unfold Machine.translate
      rw [translation]
      exact physicalReaches rfl accepts.2.2.1 bound inside result k (Nat.lt_of_lt_of_le less (roundedUp some word))

theorem spotFound (sane : Sane root start) (run : Reached fuel (Orderly root) start s) (some : 1 ≤ bytes) (most : bytes ≤ 2^39)
    (supported : depthOf flags = 1 → s.world.hugepagesSupported = true) (page : given % span (depthOf flags) = 0)
    (slot : s.context.level4Index < m) (inside : m < 512) (free : s.entries root 0 m = 0)
    (guided : Guided root m (s.entries root) s.context bytes flags) :
    (∃ first, StartsAt root s (.map (.physical given) bytes flags) first) ∧
    ∀ first, StartsAt root s (.map (.physical given) bytes flags) first → Runway (s.entries root) first bytes flags →
      depthOf flags + demand (.physical given) (depthOf flags) first bytes ≤ pool s.world →
      ∃ least, ∀ fuel, least ≤ fuel → ∃ v s', perform fuel s (.map (.physical given) bytes flags) = .ok (v,s') ∧
        (v ≠ 0 ↔ Usable (s.entries root) s.context first bytes flags) := by
  have now := reachedSane (fun _ _ h => h) sane run
  have grounded : Grounded shape (s.entries root) := entriesGrounded _ _
  refine ⟨guidedSpot grounded (by omega) most slot inside free guided,?_⟩
  rintro first ⟨steps,toll,spot⟩ runway enough
  refine ⟨steps+1,fun fuel long => ?_⟩
  have mapping : Runs pool (fuel ≤ steps) (depthOf flags + demand (.physical given) (depthOf flags) first bytes)
      (mapAnywhere (.physical given) fuel s.context bytes flags) s.world _ := mapAnywhereRuns now.tree spot fun _ => runway
  obtain ⟨⟨v,c'⟩,w',call,⟨ok,c1,done,val,result,points,below,value,last⟩,_⟩ := runsReturns mapping (by omega) enough
  dsimp only at value
  refine ⟨v,⟨w',c'⟩,?_,?_⟩
  · simp only [perform,call]
    rfl
  have null : c1.address = 0 ↔ first = 0 ∧ ∀ e, depthOf flags < e → e ≤ 3 → s.context.index e = 0 := by
    rw [addressNull points]
    refine and_congr_right fun _ => forall_congr' fun e => ?_
    exact ⟨fun zero deep high => (below e deep high).2 ▸ zero deep high,
      fun zero deep high => (below e deep high).2.trans (zero deep high)⟩
  constructor
  · intro success
    obtain rfl := okOfValue value success
    rw [if_pos rfl] at value
    obtain ⟨rfl,accepts,points',_⟩ := result.succeeds rfl
    exact ⟨fun _ => accepts.2.2.2,pointsBound points',fun zero => success (value.trans (null.mpr zero))⟩
  · rintro ⟨stays,ends,address⟩
    have writable : s.entries root (depthOf flags) first = 0 ∨ depthOf flags < 3 ∧ has flags flagReplace = true :=
      (spotEmpty grounded spot).elim stays Or.inl
    rw [value,if_pos (resultFinished result ends (last ⟨by omega,supported,page,writable⟩))]
    exact fun zero => address (null.mp zero)

end

theorem hugeSpotAlignedPage : ∃ s s', perform 512 (blank false) (.mapAt (.physical 0x50000) 0x3000 4096 2) = .ok (0x3000,s) ∧
    perform 512 s (.map (.physical 0x200000) 0x200000 0b100010) = .ok (0x8000000000,s') ∧
    0x8000000000 % span 2 = 0 ∧ ∀ k < 0x200000, s'.translate 0x1000 (0x8000000000+k) = 0x200000+k := by
  have runs : returns (perform 512 (blank false) (.mapAt (.physical 0x50000) 0x3000 4096 2)) (fun v s =>
      returns (perform 512 s (.map (.physical 0x200000) 0x200000 0b100010)) fun v' _ =>
        decide (v = 0x3000 ∧ v' = 0x8000000000 ∧ s.context = nullContext 0x1000 ∧ s.entries 0x1000 0 0 ≠ 0 ∧
          s.entries 0x1000 0 1 = 0 ∧ Runway (s.entries 0x1000) (1*512^2) 0x200000 0b100010)) = true := by decide +kernel
  obtain ⟨v,s,first,rest⟩ := returnsOk runs
  obtain ⟨v',s',second,facts⟩ := returnsOk rest
  obtain ⟨rfl,rfl,null,used,free,runway⟩ := of_decide_eq_true facts
  have orderly : Orderly 0x1000 s (.map (.physical 0x200000) 0x200000 0b100010) :=
    Or.inr ⟨_,secondSlot _ null used free (by decide) (by decide),fun _ => runway⟩
  have lower : ∀ e, depthOf 0b100010 < e → e ≤ 3 → s.context.index e = 0 := by
    rw [null]
    exact fun e deep _ => (nullBelow 0x1000 (Nat.zero_lt_of_lt deep)).2
  exact ⟨s,s',first,second,
    hugeSpotAligned (blankSane false) (.step .start blankOrderly first) (by decide) (by decide) orderly lower second (by decide)⟩

theorem hugeSpotUnaligned : ∃ s s1 s2 : Machine PhysicalMemory.Bitmap, s.context = nullContext 0x1000 ∧ Sane 0x1000 s ∧
    perform 512 s (.map (.physical 0x60000) 4096 2) = .ok (0x8000000000,s1) ∧
    perform 512 s1 (.map (.physical 0x200000) 0x200000 0b100010) = .ok (0x8000201000,s2) ∧
    ¬ (0x8000201000 % span 2 = 0 ∧ ∀ k < 0x200000, s2.translate 0x1000 (0x8000201000+k) = 0x200000+k) := by
  have runs : returns (perform 512 (blank false) (.mapAt (.physical 0x50000) 0x3000 4096 2)) (fun _ s =>
      returns (perform 512 s (.map (.physical 0x60000) 4096 2)) fun v1 s1 =>
      returns (perform 512 s1 (.map (.physical 0x200000) 0x200000 0b100010)) fun v2 _ =>
        decide (v1 = 0x8000000000 ∧ v2 = 0x8000201000 ∧ s.context = nullContext 0x1000)) = true := by decide +kernel
  obtain ⟨v,s,first,rest⟩ := returnsOk runs
  obtain ⟨v1,s1,call1,rest⟩ := returnsOk rest
  obtain ⟨v2,s2,call2,facts⟩ := returnsOk rest
  obtain ⟨rfl,rfl,null⟩ := of_decide_eq_true facts
  have sane := effectSane (blankSane false) (performed (blankSane false) blankOrderly first)
  exact ⟨s,s1,s2,null,sane,call1,call2,fun aligned => absurd aligned.1 (by decide)⟩

theorem onePage : ∃ s, perform 512 (blank false) (.mapAt (.physical 0x50000) 0x3000 4096 2) = .ok (0x3000,s) ∧
    s.context = nullContext 0x1000 ∧ s.entries 0x1000 0 0 ≠ 0 ∧ s.entries 0x1000 0 1 = 0 ∧
    Runway (s.entries 0x1000) (1*512^2) 0x200000 0b100010 ∧
    depthOf 0b100010 + demand (.physical 0x200000) (depthOf 0b100010) (1*512^2) 0x200000 ≤ pool s.world := by
  have runs : returns (perform 512 (blank false) (.mapAt (.physical 0x50000) 0x3000 4096 2)) (fun v s =>
      decide (v = 0x3000 ∧ s.context = nullContext 0x1000 ∧ s.entries 0x1000 0 0 ≠ 0 ∧ s.entries 0x1000 0 1 = 0 ∧
        Runway (s.entries 0x1000) (1*512^2) 0x200000 0b100010 ∧
        depthOf 0b100010 + demand (.physical 0x200000) (depthOf 0b100010) (1*512^2) 0x200000 ≤ pool s.world)) = true := by
    decide +kernel
  obtain ⟨v,s,first,facts⟩ := returnsOk runs
  obtain ⟨rfl,rest⟩ := of_decide_eq_true facts
  exact ⟨s,first,rest⟩

theorem spotFoundPage : ∃ s, perform 512 (blank false) (.mapAt (.physical 0x50000) 0x3000 4096 2) = .ok (0x3000,s) ∧
    ∃ least, ∀ fuel, least ≤ fuel → ∃ v s', perform fuel s (.map (.physical 0x200000) 0x200000 0b100010) = .ok (v,s') ∧ v ≠ 0 := by
  obtain ⟨s,first,null,used,free,runway,enough⟩ := onePage
  have choice : spotChoice s.context 0x200000 0b100010 = .find 0 := by
    rw [null]
    rfl
  have guided : Guided 0x1000 1 (s.entries 0x1000) s.context 0x200000 0b100010 := by
    unfold Guided
    rw [choice,null]
    exact ⟨⟨rfl,rfl,by decide⟩,fun r _ _ e he => absurd he (Nat.not_lt_zero e)⟩
  have usable : Usable (s.entries 0x1000) s.context (1*512^2) 0x200000 0b100010 := by
    refine ⟨fun stay => ?_,by decide,fun null => absurd null.1 (by decide)⟩
    rw [choice] at stay
    cases stay
  obtain ⟨least,found⟩ := (spotFound (blankSane false) (.step .start blankOrderly first) (by decide) (by decide)
    (fun one => absurd one (by decide)) (by decide) (by rw [null]; decide) (by decide) free guided).2
    _ (secondSlot _ null used free (by decide) (by decide)) runway enough
  refine ⟨s,first,least,fun fuel long => ?_⟩
  obtain ⟨v,s',call,success⟩ := found fuel long
  exact ⟨v,s',call,success.mpr usable⟩

theorem spotNotFound : ∃ s s1 s2 : Machine PhysicalMemory.Bitmap, s.context = nullContext 0x1000 ∧ Sane 0x1000 s ∧
    perform 512 s (.map (.physical 0x60000) 4096 2) = .ok (0x8000000000,s1) ∧
    s1.context.level4Index < 2 ∧ s1.entries 0x1000 0 2 = 0 ∧
    perform 512 s1 (.map (.physical 0x200000) 4096 0b100010) = .ok (0,s2) := by
  have runs : returns (perform 512 (blank false) (.mapAt (.physical 0x50000) 0x3000 4096 2)) (fun _ s =>
      returns (perform 512 s (.map (.physical 0x60000) 4096 2)) fun v1 s1 =>
      returns (perform 512 s1 (.map (.physical 0x200000) 4096 0b100010)) fun v2 _ =>
        decide (v1 = 0x8000000000 ∧ v2 = 0 ∧ s.context = nullContext 0x1000 ∧ s1.context.level4Index < 2 ∧
          s1.entries 0x1000 0 2 = 0)) = true := by decide +kernel
  obtain ⟨v,s,first,rest⟩ := returnsOk runs
  obtain ⟨v1,s1,call1,rest⟩ := returnsOk rest
  obtain ⟨v2,s2,call2,facts⟩ := returnsOk rest
  obtain ⟨rfl,rfl,null,slot,free⟩ := of_decide_eq_true facts
  have sane := effectSane (blankSane false) (performed (blankSane false) blankOrderly first)
  exact ⟨s,s1,s2,null,sane,call1,slot,free,call2⟩

end Kokos.Paging

import Kokos.PagingFrames
import Kokos.PagingRanges

/-! The rights that the processor grants at an address. It walks the tables in memory
itself, and allows an access only if every entry on the way allows it. -/
namespace Kokos.Paging
open ByteMemory BudgetedCalls RadixTables WordBits

def walk (m : Memory) (address : Nat) : Nat → Nat → List Nat
  | 0, table => [readWord m (table + 8*digit address 12)]
  | left+1, table =>
    let entry := readWord m (table + 8*digit address (21+9*left))
    if has entry entryPresent = false ∨ left < 2 ∧ has entry entrySize = true then [entry]
    else entry :: walk m address left (entry &&& 0xFFFFFFFFFF000)

def allows (m : Memory) (root address bit : Nat) : Bool :=
  (walk m address 3 root).all fun entry => has entry entryPresent && has entry bit

structure Rights where
  writable : Bool
  user : Bool
  deriving DecidableEq, Repr

def rights (m : Memory) (root address : Nat) : Rights :=
  ⟨allows m root address entryWritable,allows m root address entryEveryoneAccess⟩

def requested (flags : Nat) : Rights := ⟨has flags flagWrite,has flags flagUser⟩

structure Plain (entry : Nat) : Prop where
  present : has entry entryPresent = true
  writable : has entry entryWritable = true
  kernel : has entry entryEveryoneAccess = false

def LinksPlain (E : Nat → Nat → Nat) : Prop := ∀ d n, (shape.link d (E d n)).isSome → Plain (E d n)

/-! Bits of the entries that the code writes. -/

theorem hasTest (e k : Nat) : has e (2^k) = e.testBit k := by
  rw [hasBit,Nat.testBit_eq_decide_div_mod_eq]

theorem hasOr (x y k : Nat) : has (x ||| y) (2^k) = (has x (2^k) || has y (2^k)) := by
  simp only [hasTest,Nat.testBit_or]

theorem hasMasked (x : Nat) {k : Nat} (low : k < 12) : has (x &&& addressMask) (2^k) = false := by
  have field : x &&& addressMask = (x / 4096 % 2^51) <<< 12 := by rw [masked,Nat.shiftLeft_eq]
  rw [hasTest,field,Nat.testBit_shiftLeft]
  simp [low]

theorem leafBit (x f s : Nat) {k : Nat} (low : k < 3) (size : has s (2^k) = false) :
    has ((x &&& addressMask) ||| f ||| s) (2^k) = has f (2^k) := by
  rw [hasOr,hasOr,hasMasked x (by omega),size,Bool.false_or,Bool.or_false]

theorem convertRights (flags : Nat) :
    has (pagingConvertFlags flags) entryPresent = true ∧
      has (pagingConvertFlags flags) entryWritable = has flags flagWrite ∧
      has (pagingConvertFlags flags) entryEveryoneAccess = has flags flagUser := by
  unfold pagingConvertFlags
  cases has flags flagWrite <;> cases has flags flagUser <;> decide

theorem plainLink {g : Nat} (page : IsPage g) : Plain (g ||| entryWritable ||| entryPresent) := by
  have low : ∀ k, k < 12 → has g (2^k) = false := by
    intro k hk
    have whole : g = g &&& addressMask := by
      obtain ⟨aligned,_,bound⟩ := page
      rw [masked]
      omega
    rw [whole]
    exact hasMasked g hk
  refine ⟨?_,?_,?_⟩
  · rw [show entryPresent = 2^0 by rfl,hasOr,Bool.or_eq_true]
    exact Or.inr rfl
  · rw [show entryWritable = 2^1 by rfl,hasOr,hasOr,low 1 (by decide)]
    decide
  · rw [show entryEveryoneAccess = 2^2 by rfl,hasOr,hasOr,low 2 (by decide)]
    decide

theorem targetField {e g : Nat} (target : shape.target e = g) (bound : g < 2^52) : e &&& 0xFFFFFFFFFF000 = g := by
  have bits : e &&& 0xFFFFFFFFFF000 = e / 4096 % 2^40 * 4096 := andField e 12 40
  have code : e / 4096 % 2^51 * 4096 = g := (masked e).symm.trans target
  have low : e / 4096 % 2^51 % 2^40 = e / 4096 % 2^40 := Nat.mod_mod_of_dvd _ (Nat.pow_dvd_pow 2 (by decide))
  rw [bits,← low,Nat.mod_eq_of_lt (by omega)]
  exact code

section
variable {σ : Type} [PageAllocator σ] {root : Nat}

theorem valueRights {source : Source} {flags i v : Nat} {w w' : World σ}
    (value : Value source (depthOf flags) flags i v w w') :
    has v entryPresent = true ∧ has v entryWritable = has flags flagWrite ∧
      has v entryEveryoneAccess = has flags flagUser := by
  have short : has (flags % 2^16) flagWrite = has flags flagWrite ∧ has (flags % 2^16) flagUser = has flags flagUser :=
    ⟨hasShort flags (k := 1) (by decide),hasShort flags (k := 3) (by decide)⟩
  obtain ⟨present,writable,user⟩ := convertRights (flags % 2^16)
  rw [short.1] at writable
  rw [short.2] at user
  suffices bits : ∀ k < 3, has v (2^k) = has (pagingConvertFlags (flags % 2^16)) (2^k) from
    ⟨(bits 0 (by decide)).trans present,(bits 1 (by decide)).trans writable,(bits 2 (by decide)).trans user⟩
  intro k low
  cases source with
  | physical address =>
    rw [show v = _ from value]
    refine leafBit _ _ _ low ?_
    split
    · rw [show entrySize = 2^7 by rfl,hasTest,Nat.testBit_two_pow]
      exact decide_eq_false (by omega)
    · exact hasTest 0 k ▸ Nat.zero_testBit k
  | allocated =>
    obtain ⟨_,page,rfl,_⟩ := value
    rw [hasOr,hasMasked page (by omega),Bool.false_or]

theorem evolvesPlain {w w' : World σ} (tree : Tree w' root) (evolves : Evolves root w w')
    (plain : LinksPlain (entries w.memory root)) : LinksPlain (entries w'.memory root) := by
  intro d n linked
  obtain ⟨g,link⟩ := Option.isSome_iff_exists.mp linked
  rcases evolves.made d n g link with same | new
  · rw [same] at linked ⊢
    exact plain d n linked
  · rw [new]
    exact plainLink (treePage tree (d := d+1) (q := n) link).1

/-! The processor's walk reads the entries over the address, down to its leaf. -/

theorem digitLevel (address : Nat) {d : Nat} (low : d ≤ 3) : digit address (12+9*(3-d)) = numberAt address d % 512 := by
  obtain ⟨d4,d3,d2,d1⟩ := overDigits address
  match d, low with
  | 0, _ => exact d4.trans (Nat.mod_eq_of_lt (overBound address 0 (by decide))).symm
  | 1, _ => exact d3
  | 2, _ => exact d2
  | 3, _ => exact d1

section
variable {m : Memory} {w : World σ} {address d e table : Nat}

theorem walkReads (low : d ≤ 3) (here : tab shape root (entries m root) d (numberAt address d / 512) = some table) :
    readWord m (table + 8*digit address (12+9*(3-d))) = entries m root d (numberAt address d) := by
  rw [digitLevel address low]
  exact entryOfTable here

theorem walkLeaf (low : d ≤ 3) (here : tab shape root (entries m root) d (numberAt address d / 512) = some table)
    (leaf : shape.leaf d (entries m root d (numberAt address d)) = true) :
    walk m address (3-d) table = [entries m root d (numberAt address d)] := by
  have read := walkReads low here
  by_cases last : d = 3
  · subst last
    change readWord m (table + 8*digit address 12) = _ at read
    rw [Nat.sub_self,walk,read]
  · have high : 1 ≤ d := by
      by_contra zero
      obtain rfl : d = 0 := by omega
      rw [leafRoot] at leaf
      cases leaf
    have size : has (entries m root d (numberAt address d)) entrySize = true := by
      simp only [shape,show decide (3 ≤ d) = false by simp; omega,Bool.false_or,Bool.and_eq_true] at leaf
      exact leaf.2
    obtain ⟨left,levels⟩ : ∃ left, 3-d = left+1 := ⟨2-d,by omega⟩
    rw [levels,show 12+9*(left+1) = 21+9*left by omega] at read
    simp only [levels,walk,read]
    exact if_pos (Or.inr ⟨by omega,size⟩)

theorem walkLink {g : Nat} (tree : Tree w root) (here : tab shape root (entries w.memory root) d (numberAt address d / 512) = some table)
    (link : shape.link d (entries w.memory root d (numberAt address d)) = some g)
    (present : has (entries w.memory root d (numberAt address d)) entryPresent = true) :
    walk w.memory address (3-d) table = entries w.memory root d (numberAt address d) :: walk w.memory address (3-(d+1)) g := by
  have inner := linkDepth (link ▸ rfl : (shape.link d (entries w.memory root d (numberAt address d))).isSome)
  obtain ⟨_,clear,target⟩ := linkSome link
  have page := (treePage tree (d := d+1) (q := numberAt address d) link).1
  have read := walkReads (by omega) here
  obtain ⟨left,levels⟩ : ∃ left, 3-d = left+1 := ⟨2-d,by omega⟩
  have goesOn : ¬ (has (entries w.memory root d (numberAt address d)) entryPresent = false ∨
      left < 2 ∧ has (entries w.memory root d (numberAt address d)) entrySize = true) := by
    rintro (absent | ⟨high,size⟩)
    · rw [present] at absent
      cases absent
    · rw [sizeClear (by omega) clear] at size
      cases size
  rw [levels,show 12+9*(left+1) = 21+9*left by omega] at read
  simp only [levels,show 3-(d+1) = left by omega,walk,read]
  rw [if_neg goesOn,targetField target page.2.2]

theorem walkMember (tree : Tree w root) (plain : LinksPlain (entries w.memory root)) (deep : e ≤ 3)
    (leaf : Leaf shape (entries w.memory root) 3 (pageNumber address) e) (x left : Nat) (levels : d + left = e)
    (here : tab shape root (entries w.memory root) d (numberAt address d / 512) = some table) :
    x ∈ walk w.memory address (3-d) table ↔ ∃ f, d ≤ f ∧ f ≤ e ∧ x = entries w.memory root f (numberAt address f) := by
  induction left generalizing d table with
  | zero =>
    obtain rfl : d = e := levels
    rw [walkLeaf deep here leaf.2,List.mem_singleton]
    constructor
    · rintro rfl
      exact ⟨d,Nat.le_refl d,Nat.le_refl d,rfl⟩
    · rintro ⟨f,low,high,same⟩
      obtain rfl : f = d := Nat.le_antisymm high low
      exact same
  | succ left ih =>
    have link := leafLink (entriesGrounded w.memory root) deep (show d < e by omega) leaf
    obtain ⟨g,linked⟩ := Option.isSome_iff_exists.mp link
    have below : tab shape root (entries w.memory root) (d+1) (numberAt address (d+1) / 512) = some g := by
      rw [overUp address d (by omega)]
      exact linked
    rw [walkLink tree here linked (plain d _ link).present,List.mem_cons,ih (by omega) below]
    constructor
    · rintro (rfl | ⟨f,low,high,same⟩)
      · exact ⟨d,Nat.le_refl d,by omega,rfl⟩
      · exact ⟨f,by omega,high,same⟩
    · rintro ⟨f,low,high,same⟩
      by_cases first : f = d
      · subst first
        exact Or.inl same
      · exact Or.inr ⟨f,by omega,high,same⟩

end

theorem leafRights {w : World σ} {address e : Nat} (tree : Tree w root) (plain : LinksPlain (entries w.memory root)) (deep : e ≤ 3)
    (leaf : Leaf shape (entries w.memory root) 3 (pageNumber address) e)
    (present : has (entries w.memory root e (numberAt address e)) entryPresent = true) :
    rights w.memory root address = ⟨has (entries w.memory root e (numberAt address e)) entryWritable,false⟩ := by
  have first : tab shape root (entries w.memory root) 0 (numberAt address 0 / 512) = some root :=
    (tableAtTab (row w.memory) root 0 _).symm.trans (tableAtZero w.memory root address)
  have reads := fun x => walkMember tree plain deep leaf x e (Nat.zero_add e) first
  have links : ∀ f, f < e → Plain (entries w.memory root f (numberAt address f)) :=
    fun f higher => plain f _ (leafLink (entriesGrounded w.memory root) deep higher leaf)
  have low : 0 < e := by
    by_contra zero
    obtain rfl : e = 0 := by omega
    exact absurd leaf.2 (by simp [leafRoot])
  have writable : allows w.memory root address entryWritable =
      has (entries w.memory root e (numberAt address e)) entryWritable := by
    rw [Bool.eq_iff_iff]
    unfold allows
    simp only [List.all_eq_true,reads,Bool.and_eq_true]
    constructor
    · intro all
      exact (all _ ⟨e,Nat.zero_le e,Nat.le_refl e,rfl⟩).2
    · rintro own x ⟨f,_,high,rfl⟩
      by_cases last : f = e
      · rw [last]
        exact ⟨present,own⟩
      · exact ⟨(links f (by omega)).present,(links f (by omega)).writable⟩
  have user : allows w.memory root address entryEveryoneAccess = false := by
    by_contra granted
    have all := List.all_eq_true.mp (Bool.not_eq_false _ ▸ granted)
    have top := all _ ((reads _).mpr ⟨0,Nat.le_refl 0,Nat.zero_le e,rfl⟩)
    rw [Bool.and_eq_true,(links 0 low).kernel] at top
    exact absurd top.2 (by decide)
  rw [rights,writable,user]

end

section
variable {σ : Type}

def Machine.rights (s : Machine σ) (root address : Nat) : Rights := Paging.rights s.world.memory root address

def Request.mapping : Request → Option (Nat × Nat)
  | .map _ bytes flags => some (bytes,flags)
  | .mapAt _ _ bytes flags => some (bytes,flags)
  | .unmap _ _ => none

def CursorAligned (s : Machine σ) : Request → Prop
  | .map _ _ flags => ∀ e, depthOf flags < e → e ≤ 3 → s.context.index e = 0
  | _ => True

variable [PageAllocator σ] {root fuel bytes flags v : Nat} {start s s' : Machine σ} {r : Request}

theorem runPlain (sane : Sane root start) (plain : LinksPlain (start.entries root))
    (run : Reached fuel (Orderly root) start s) : Sane root s ∧ LinksPlain (s.entries root) := by
  have step : ∀ (s : Machine σ) r v s', Sane root s ∧ LinksPlain (s.entries root) → Orderly root s r →
      perform fuel s r = .ok (v,s') → Sane root s' ∧ LinksPlain (s'.entries root) := by
    rintro s r v s' ⟨sane,plain⟩ orderly call
    have effect := performed sane orderly call
    have next := effectSane sane effect
    exact ⟨next,evolvesPlain next.tree (effectEvolves effect) plain⟩
  exact reachedKeeps step ⟨sane,plain⟩ run

theorem resultRights {source : Source} {n j a : Nat} {c c' : PagingContext} {val : Nat → Nat} (plain : LinksPlain (s.entries root))
    (result : MapResult source root n bytes flags c s.world s'.world true c' (blocks (depthOf flags) bytes) val)
    (block : j < blocks (depthOf flags) bytes) (number : numberAt a (depthOf flags) = n+j) :
    s'.rights root a = ⟨has flags flagWrite,false⟩ := by
  have leaf := valueLeaf (result.values j block)
  have bits := valueRights (result.values j block)
  rw [← result.filled.value j block,← number] at leaf bits
  rw [Machine.rights,leafRights result.tree (evolvesPlain result.tree result.evolves plain) (depthCases flags).2 leaf bits.1,bits.2.1]

theorem rangeRights (plain : LinksPlain (s.entries root)) (word : bytes < 2^64) (asks : r.mapping = some (bytes,flags))
    (cursor : CursorAligned s r) (effect : Effect root s s' r v) (success : v ≠ 0) :
    0 < bytes ∧ ∀ k < bytes, s'.rights root (v+k) = ⟨has flags flagWrite,false⟩ := by
  cases effect with
  | refused _ _ => exact absurd rfl success
  | @mapped source b f n ok c1 done val _ result points below =>
    obtain ⟨rfl,rfl⟩ : b = bytes ∧ f = flags := by simpa [Request.mapping] using asks
    cases ok with
    | false => exact absurd rfl success
    | true =>
      obtain ⟨rfl,accepts,_⟩ := result.succeeds rfl
      have some : 1 ≤ b := Nat.pos_of_ne_zero accepts.1
      have inside := pointsBound (result.succeeds rfl).2.2.1
      have high := (depthCases f).2
      have starts : c1.address = n * span (depthOf f) :=
        addressOf points fun e low high => (below e low high).2.trans (cursor e low high)
      have room : n * span (depthOf f) < 2^48 := by
        rw [← spaceSize high]
        exact Nat.mul_lt_mul_of_pos_right (by omega) (spanPositive _)
      refine ⟨some,fun k less => ?_⟩
      obtain ⟨j,block,number⟩ := rangeNumber high ((starts ▸ Nat.mod_eq_of_lt room).trans starts) inside some word less
      exact resultRights plain result block number
  | @mappedAt source target b f ok c1 done val _ result aligned _ =>
    obtain ⟨rfl,rfl⟩ : b = bytes ∧ f = flags := by simpa [Request.mapping] using asks
    cases ok with
    | false => exact absurd rfl success
    | true =>
      obtain ⟨rfl,accepts,_⟩ := result.succeeds rfl
      have some : 1 ≤ b := Nat.pos_of_ne_zero accepts.1
      have inside := pointsBound (result.succeeds rfl).2.2.1
      have starts := alignedStart (depthCases f).2 (aligned (blocksPositive _ _))
      refine ⟨some,fun k less => ?_⟩
      obtain ⟨j,block,number⟩ := rangeNumber (depthCases f).2 starts inside some word less
      exact resultRights plain result block number
  | untouched _ _ => exact absurd rfl success
  | unmapped _ _ _ _ _ => simp [Request.mapping] at asks

/-- The rights are the requested ones exactly when user access is not asked for: no link
to a table is ever made for everyone. -/
theorem requestedRightsIff (sane : Sane root start) (plain : LinksPlain (start.entries root))
    (run : Reached fuel (Orderly root) start s) (orderly : Orderly root s r) (asks : r.mapping = some (bytes,flags))
    (word : bytes < 2^64) (cursor : CursorAligned s r) (call : perform fuel s r = .ok (v,s')) (success : v ≠ 0) :
    (∀ k < bytes, s'.rights root (v+k) = requested flags) ↔ has flags flagUser = false := by
  obtain ⟨now,kept⟩ := runPlain sane plain run
  obtain ⟨some,granted⟩ := rangeRights kept word asks cursor (performed now orderly call) success
  constructor
  · intro all
    have first := (granted 0 some).symm.trans (all 0 some)
    exact (congrArg Rights.user first).symm
  · intro kernel k less
    rw [granted k less,requested,kernel]

end

theorem blankPlain (huge : Bool) : LinksPlain ((blank huge).entries 0x1000) := by
  intro d n linked
  rw [show (blank huge).entries 0x1000 d n = 0 from blankZero d n,linkZero] at linked
  cases linked

theorem requestedRightsPage : ∃ s, perform 1 (blank false) (.mapAt (.physical 0x50000) 0x3000 4096 2) = .ok (0x3000,s) ∧
    ∀ k < 4096, s.rights 0x1000 (0x3000+k) = requested 2 := by
  obtain ⟨s,call⟩ := blankReturns (show 0x50000 % 4096 = 0 by decide)
  refine ⟨s,call,?_⟩
  exact (requestedRightsIff (blankSane false) (blankPlain false) .start blankOrderly rfl (by decide) trivial call (by decide)).mpr (by decide)

theorem userPageUnreachable : ∃ s, Reached 1 (fun _ _ => True) (blank false) (blank false) ∧
    perform 1 (blank false) (.mapAt (.physical 0x50000) 0x3000 4096 0b1010) = .ok (0x3000,s) ∧
    has 0b1010 flagUser = true ∧ (s.rights 0x1000 0x3000).user = false := by
  have runs : returns (perform 1 (blank false) (.mapAt (.physical 0x50000) 0x3000 4096 0b1010)) (fun v s =>
      decide (v = 0x3000 ∧ (s.rights 0x1000 0x3000).user = false)) = true := by decide +kernel
  obtain ⟨v,s,call,facts⟩ := returnsOk runs
  obtain ⟨rfl,denied⟩ := of_decide_eq_true facts
  exact ⟨s,.start,call,by decide,denied⟩

end Kokos.Paging

import Kokos.BitFields
import Kokos.PagingRights
import Kokos.WhileLoops

/-! paging_map_first_gb of main.asm: the tables the kernel runs on until cpu_initialize loads
its own. They lie in the zeroed bss section, and the stores are of 32 bits. -/
namespace Kokos.BootPaging
open ByteMemory BitFields Paging WhileLoops WordBits

structure Boot where
  memory : Memory
  eax : Nat
  ecx : Nat
  edx : Nat
  cr3 : Nat

structure Tables where
  level4 : Nat
  level3 : Nat
  level2 : Nat

def fillStep (level2 : Nat) (s : Boot) : Boot ⊕ Boot :=
  let product := 0x200000*s.ecx
  let s := { s with eax := product % 2^32, edx := product / 2^32 }
  let s := { s with eax := s.eax ||| 0b10000011 }
  let s := { s with memory := writeBytes s.memory (level2+s.ecx*8) 4 s.eax }
  let s := { s with ecx := (s.ecx+1) % 2^32 }
  if s.ecx = 512 then .inr s else .inl s

def pagingMapFirstGb (t : Tables) (fuel : Nat) (s : Boot) : Option Boot :=
  let s := { s with eax := t.level3 ||| 0b11 }
  let s := { s with memory := writeBytes s.memory t.level4 4 s.eax }
  let s := { s with eax := t.level2 ||| 0b11 }
  let s := { s with memory := writeBytes s.memory t.level3 4 s.eax }
  let s := { s with ecx := 0 }
  (loop (fillStep t.level2) fuel s).map fun s => { s with eax := t.level4, cr3 := t.level4 }

/-! The loop. -/

def Filled (level2 first x : Nat) : Prop := ∃ i, first ≤ i ∧ i < 512 ∧ level2+i*8 ≤ x ∧ x < level2+i*8+4

theorem fillValue {i : Nat} (inside : i < 512) : (0x200000*i) % 2^32 ||| 0b10000011 = 0x200000*i+0x83 := by
  have sum := orAdd i (show 0x83 < 2^21 by decide)
  rw [Nat.mod_eq_of_lt (by omega)]
  exact sum

def filled (level2 : Nat) (s : Boot) : Boot :=
  ⟨writeBytes s.memory (level2+s.ecx*8) 4 (0x200000*s.ecx+0x83),0x200000*s.ecx+0x83,s.ecx+1,0,s.cr3⟩

theorem fillTurn {level2 : Nat} {s : Boot} (inside : s.ecx < 512) :
    fillStep level2 s = if s.ecx+1 = 512 then .inr (filled level2 s) else .inl (filled level2 s) := by
  have high : 0x200000*s.ecx / 2^32 = 0 := Nat.div_eq_of_lt (by omega)
  have next : (s.ecx+1) % 2^32 = s.ecx+1 := Nat.mod_eq_of_lt (by omega)
  unfold fillStep filled
  simp only [fillValue inside,high,next]

theorem fillSame {level2 : Nat} {s : Boot} {x : Nat} (outside : ¬ (level2+s.ecx*8 ≤ x ∧ x < level2+s.ecx*8+4)) :
    (filled level2 s).memory x = s.memory x := if_neg outside

theorem fillEntry {level2 : Nat} {s : Boot} (inside : s.ecx < 512) :
    readBytes (filled level2 s).memory (level2+s.ecx*8) 4 = 0x200000*s.ecx+0x83 := readWriteBytes _ _ (by omega)

theorem fillRuns {level2 fuel k : Nat} {s : Boot} (left : s.ecx+k = 511) (enough : k < fuel) :
    ∃ s', loop (fillStep level2) fuel s = some s' ∧
      (∀ i, s.ecx ≤ i → i < 512 → readBytes s'.memory (level2+i*8) 4 = 0x200000*i+0x83) ∧
      ∀ x, ¬ Filled level2 s.ecx x → s'.memory x = s.memory x := by
  obtain ⟨fuel,rfl⟩ : ∃ n, fuel = n+1 := ⟨fuel-1,by omega⟩
  have turn := @fillTurn level2 s (by omega)
  induction k generalizing s fuel with
  | zero =>
    rw [if_pos (by omega)] at turn
    refine ⟨filled level2 s,by rw [loop,turn],?_,fun x away => fillSame fun here => away ⟨s.ecx,Nat.le_refl _,by omega,here⟩⟩
    intro i low high
    obtain rfl : i = s.ecx := by omega
    exact fillEntry high
  | succ k ih =>
    rw [if_neg (by omega)] at turn
    obtain ⟨fuel,rfl⟩ : ∃ n, fuel = n+1 := ⟨fuel-1,by omega⟩
    have next : (filled level2 s).ecx = s.ecx+1 := rfl
    obtain ⟨s',run,entries,same⟩ := ih (s := filled level2 s) (by omega) fuel (by omega) (fillTurn (by omega))
    refine ⟨s',by rw [loop,turn]; exact run,?_,?_⟩
    · intro i low high
      by_cases here : i = s.ecx
      · subst here
        -- the later turns fill other dwords
        have kept : SameBytes (filled level2 s).memory s'.memory (level2+s.ecx*8) 4 := by
          intro x first last
          refine same x fun later => ?_
          obtain ⟨j,after,_,start,_⟩ := later
          omega
        rw [readBytesCongr kept ⟨Nat.le_refl _,Nat.le_refl _⟩]
        exact fillEntry high
      · exact entries i (by omega) high
    · intro x away
      have later : ¬ Filled level2 (filled level2 s).ecx x := by
        intro filledLater
        obtain ⟨j,after,inside,here⟩ := filledLater
        exact away ⟨j,by omega,inside,here⟩
      rw [same x later]
      exact fillSame fun here => away ⟨s.ecx,Nat.le_refl _,by omega,here⟩

/-! The tables. -/

def TablesApart (p q : Nat) : Prop := p+4096 ≤ q ∨ q+4096 ≤ p

structure Reserved (t : Tables) (m : Memory) : Prop where
  pages : ∀ p ∈ [t.level4,t.level3,t.level2], p % 4096 = 0 ∧ 0 < p ∧ p+4096 ≤ 2^32
  apart : TablesApart t.level4 t.level3 ∧ TablesApart t.level4 t.level2 ∧ TablesApart t.level3 t.level2
  zero : ∀ p ∈ [t.level4,t.level3,t.level2], ∀ x, p ≤ x → x < p+4096 → m x = 0

variable {m m' : Memory} {t : Tables}

theorem wordBytes (m : Memory) (a : Nat) : readWord m a = readBytes m a 8 := by
  unfold readWord
  simp only [readBytes,Nat.add_assoc,Nat.reduceAdd]
  omega

theorem zeroRead {a n : Nat} (zero : ∀ x, a ≤ x → x < a+n → m x = 0) : readBytes m a n = 0 := by
  induction n generalizing a with
  | zero => rfl
  | succ n ih =>
    rw [readBytes,zero a (by omega) (by omega),ih fun x low high => zero x (by omega) (by omega)]
    rfl

theorem rowLow {a v : Nat} (low : readBytes m a 4 = v) (zero : ∀ x, a+4 ≤ x → x < a+8 → m x = 0) : readWord m a = v := by
  rw [wordBytes,readBytesJoin m a 4 4,low,zeroRead (fun x first last => zero x first (by omega)),Nat.mul_zero,Nat.add_zero]

theorem firstRow {p v : Nat} (first : readBytes m p 4 = v) (zero : ∀ x, p+4 ≤ x → x < p+4096 → m x = 0) {i : Nat} (inside : i < 512) :
    row m p i = if i = 0 then v else 0 := by
  unfold row
  by_cases start : i = 0
  · rw [if_pos start,start]
    exact rowLow first fun x low high => zero x (by omega) (by omega)
  · rw [if_neg start]
    exact rowLow (zeroRead fun x low high => zero x (by omega) (by omega)) fun x low high => zero x (by omega) (by omega)

structure FirstGb (t : Tables) (m : Memory) : Prop where
  level4 : ∀ i < 512, row m t.level4 i = if i = 0 then t.level3+3 else 0
  level3 : ∀ i < 512, row m t.level3 i = if i = 0 then t.level2+3 else 0
  level2 : ∀ i < 512, row m t.level2 i = 0x200000*i+0x83

theorem linkValue {p : Nat} (page : p % 4096 = 0) : p ||| 0b11 = p+3 := by
  have sum := orAdd (p/4096) (show 0b11 < 2^12 by decide)
  rwa [show 2^12*(p/4096) = p by omega] at sum

theorem firstGbTables {fuel : Nat} {s : Boot} (reserved : Reserved t s.memory) (enough : 512 ≤ fuel) :
    ∃ s', pagingMapFirstGb t fuel s = some s' ∧ s'.cr3 = t.level4 ∧ FirstGb t s'.memory ∧
      ∀ x, (∀ p ∈ [t.level4,t.level3,t.level2], ¬ (p ≤ x ∧ x < p+4096)) → s'.memory x = s.memory x := by
  obtain ⟨pages,⟨apart43,apart42,apart32⟩,zero⟩ := reserved
  simp only [List.forall_mem_cons] at pages zero
  obtain ⟨page4,page3,page2,_⟩ := pages
  obtain ⟨zero4,zero3,zero2,_⟩ := zero
  unfold TablesApart at apart43 apart42 apart32
  let linked : Memory := writeBytes (writeBytes s.memory t.level4 4 (t.level3+3)) t.level3 4 (t.level2+3)
  obtain ⟨s',run,entries,same⟩ := @fillRuns t.level2 fuel 511 { s with memory := linked, eax := t.level2+3, ecx := 0 } rfl (by omega)
  have untouched : ∀ x, ¬ (t.level4 ≤ x ∧ x < t.level4+4) → ¬ (t.level3 ≤ x ∧ x < t.level3+4) →
      ¬ Filled t.level2 0 x → s'.memory x = s.memory x := by
    intro x no4 no3 no2
    exact (same x no2).trans ((if_neg no3).trans (if_neg no4))
  refine ⟨{ s' with eax := t.level4, cr3 := t.level4 },?_,rfl,⟨?_,?_,?_⟩,?_⟩
  · unfold pagingMapFirstGb
    simp only [linkValue page3.1,linkValue page2.1]
    rw [run]
    rfl
  · refine fun i inside => firstRow ?_ ?_ inside
    · have kept : SameBytes linked s'.memory t.level4 4 := fun x low high => same x fun ⟨j,_,_,first,last⟩ => by omega
      rw [readBytesCongr kept ⟨Nat.le_refl _,Nat.le_refl _⟩,readWriteApart _ (by omega),readWriteBytes _ _ (by omega)]
    · intro x low high
      exact (untouched x (by omega) (by omega) fun ⟨j,_,_,first,last⟩ => by omega).trans (zero4 x (by omega) high)
  · refine fun i inside => firstRow ?_ ?_ inside
    · have kept : SameBytes linked s'.memory t.level3 4 := fun x low high => same x fun ⟨j,_,_,first,last⟩ => by omega
      rw [readBytesCongr kept ⟨Nat.le_refl _,Nat.le_refl _⟩,readWriteBytes _ _ (by omega)]
    · intro x low high
      exact (untouched x (by omega) (by omega) fun ⟨j,_,_,first,last⟩ => by omega).trans (zero3 x (by omega) high)
  · intro i inside
    have entry := entries i (Nat.zero_le i) inside
    rw [Nat.mul_comm i 8] at entry
    refine rowLow entry fun x low high => ?_
    exact (untouched x (by omega) (by omega) fun ⟨j,_,_,first,last⟩ => by omega).trans (zero2 x (by omega) (by omega))
  · intro x away
    simp only [List.forall_mem_cons] at away
    obtain ⟨no4,no3,no2,_⟩ := away
    exact untouched x (by omega) (by omega) fun ⟨j,_,_,first,last⟩ => by omega

/-! What the processor makes of them. -/

theorem hasPresent (e : Nat) : has e entryPresent = decide (e % 2 = 1) := by
  have bit := hasBit e 0
  rwa [Nat.pow_zero,Nat.div_one] at bit

theorem hasWritable (e : Nat) : has e entryWritable = decide (e / 2 % 2 = 1) := hasBit e 1

theorem linkTarget {p : Nat} (page : p % 4096 = 0) (small : p < 2^32) :
    (p+3) &&& addressMask = p ∧ (p+3) &&& 0xFFFFFFFFFF000 = p := by
  have narrow : (p+3) &&& 0xFFFFFFFFFF000 = (p+3) / 4096 % 2^40 * 4096 := andField (p+3) 12 40
  rw [masked,narrow]
  omega

theorem hugeEntry {i : Nat} (inside : i < 512) :
    has (0x200000*i+0x83) entrySize = true ∧ has (0x200000*i+0x83) entryPresent = true ∧ has (0x200000*i+0x83) entryWritable = true ∧
      (0x200000*i+0x83) &&& 0xFFFFFFFFFF000 = 0x200000*i := by
  have target : (0x200000*i+0x83) &&& 0xFFFFFFFFFF000 = (0x200000*i+0x83) / 4096 % 2^40 * 4096 := andField _ 12 40
  rw [hasSize,hasPresent,hasWritable,target]
  simp only [decide_eq_true_eq]
  omega

theorem linkBits {p : Nat} (page : p % 4096 = 0) :
    has (p+3) entrySize = false ∧ has (p+3) entryPresent = true ∧ has (p+3) entryWritable = true := by
  rw [hasSize,hasPresent,hasWritable]
  simp only [decide_eq_true_eq,decide_eq_false_iff_not]
  omega

theorem firstGbTranslates (reserved : Reserved t m) (tables : FirstGb t m') {a : Nat} (inside : a < 2^30) :
    pagingGetPhysicalAddress m' t.level4 a = a ∧ allows m' t.level4 a entryWritable = true := by
  have page3 := reserved.pages t.level3 (by simp)
  have page2 := reserved.pages t.level2 (by simp)
  have digit4 : digit a 39 = 0 := by rw [digitValue]; omega
  have digit3 : digit a 30 = 0 := by rw [digitValue]; omega
  obtain ⟨i,quotient⟩ : ∃ i, i = a / 2^21 := ⟨_,rfl⟩
  have digit2 : digit a 21 = i := by rw [digitValue]; omega
  have entry4 : readWord m' t.level4 = t.level3+3 := tables.level4 0 (by decide)
  have entry3 : readWord m' t.level3 = t.level2+3 := tables.level3 0 (by decide)
  have entry2 : readWord m' (t.level2+8*i) = 0x200000*i+0x83 := tables.level2 i (by omega)
  obtain ⟨size3,present4,writable4⟩ := linkBits page3.1
  obtain ⟨size2,present3,writable3⟩ := linkBits page2.1
  obtain ⟨huge,present2,writable2,target⟩ := hugeEntry (show i < 512 by omega)
  obtain ⟨target4,walk4⟩ := linkTarget page3.1 (by omega)
  obtain ⟨target3,walk3⟩ := linkTarget page2.1 (by omega)
  constructor
  · have offset : a &&& 0x1FFFFF = a % 2^21 := Nat.and_two_pow_sub_one_eq_mod a 21
    unfold pagingGetPhysicalAddress
    simp only [digit4,digit3,digit2,Nat.mul_zero,Nat.add_zero,entry4,target4,entry3,target3,entry2,size2,huge,target,offset]
    rw [if_neg (by omega),if_neg (by omega),if_neg (by decide),if_neg (by omega),if_pos trivial]
    omega
  · unfold allows walk walk walk
    simp [digit4,digit3,digit2,entry4,entry3,entry2,present4,walk4,present3,size2,walk3,present2,huge,writable4,writable3,writable2]

theorem aboveUnmapped (reserved : Reserved t m) (tables : FirstGb t m') {a : Nat} (above : 2^30 ≤ a) (canonical : a < 2^48) :
    pagingGetPhysicalAddress m' t.level4 a = 0 ∧ allows m' t.level4 a entryPresent = false := by
  have page3 := reserved.pages t.level3 (by simp)
  obtain ⟨_,present4,_⟩ := linkBits page3.1
  obtain ⟨target4,walk4⟩ := linkTarget page3.1 (by omega)
  have empty : has 0 entryPresent = false := by decide
  by_cases first : digit a 39 = 0
  · have outside : digit a 30 ≠ 0 := by
      rw [digitValue] at first ⊢
      omega
    have entry4 : readWord m' t.level4 = t.level3+3 := tables.level4 0 (by decide)
    have entry3 : readWord m' (t.level3+8*digit a 30) = 0 :=
      (tables.level3 _ (by rw [digitValue]; omega)).trans (if_neg outside)
    constructor
    · unfold pagingGetPhysicalAddress
      simp only [first,Nat.mul_zero,Nat.add_zero,entry4,target4,entry3]
      rw [if_neg (by omega),if_pos trivial]
    · unfold allows walk walk
      simp [first,entry4,present4,walk4,entry3,empty]
  · have entry4 : readWord m' (t.level4+8*digit a 39) = 0 :=
      (tables.level4 _ (by rw [digitValue]; omega)).trans (if_neg first)
    constructor
    · unfold pagingGetPhysicalAddress
      simp only [entry4,if_true]
    · unfold allows walk
      simp [entry4,empty]

theorem firstGbMapped {fuel : Nat} {s : Boot} (reserved : Reserved t s.memory) (enough : 512 ≤ fuel) :
    ∃ s', pagingMapFirstGb t fuel s = some s' ∧ s'.cr3 = t.level4 ∧
      (∀ a < 2^30, pagingGetPhysicalAddress s'.memory s'.cr3 a = a ∧ allows s'.memory s'.cr3 a entryWritable = true) ∧
      (∀ a, 2^30 ≤ a → a < 2^48 → pagingGetPhysicalAddress s'.memory s'.cr3 a = 0 ∧ allows s'.memory s'.cr3 a entryPresent = false) ∧
      ∀ x, (∀ p ∈ [t.level4,t.level3,t.level2], ¬ (p ≤ x ∧ x < p+4096)) → s'.memory x = s.memory x := by
  obtain ⟨s',done,root,tables,same⟩ := firstGbTables reserved enough
  refine ⟨s',done,root,fun a inside => ?_,fun a above canonical => ?_,same⟩
  · rw [root]
    exact firstGbTranslates reserved tables inside
  · rw [root]
    exact aboveUnmapped reserved tables above canonical

def bssTables : Tables := ⟨0x104000,0x105000,0x106000⟩

theorem bssReserved : Reserved bssTables fun _ => 0 :=
  ⟨by decide,by unfold TablesApart; decide,fun _ _ _ _ _ => rfl⟩

theorem firstGbMappedBss : Reserved bssTables (fun _ => 0) ∧ 512 ≤ 512 ∧
    ∃ s', pagingMapFirstGb bssTables 512 ⟨fun _ => 0,0,0,0,0⟩ = some s' ∧ s'.cr3 = bssTables.level4 ∧
      (∀ a < 2^30, pagingGetPhysicalAddress s'.memory s'.cr3 a = a ∧ allows s'.memory s'.cr3 a entryWritable = true) ∧
      (∀ a, 2^30 ≤ a → a < 2^48 → pagingGetPhysicalAddress s'.memory s'.cr3 a = 0 ∧ allows s'.memory s'.cr3 a entryPresent = false) ∧
      ∀ x, (∀ p ∈ [bssTables.level4,bssTables.level3,bssTables.level2], ¬ (p ≤ x ∧ x < p+4096)) → s'.memory x = 0 :=
  ⟨bssReserved,Nat.le_refl _,@firstGbMapped bssTables 512 ⟨fun _ => 0,0,0,0,0⟩ bssReserved (Nat.le_refl _)⟩

end Kokos.BootPaging

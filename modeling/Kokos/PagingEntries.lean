import Kokos.Paging
import Kokos.RadixRanges
import Kokos.WordBits

/-! Page tables as a tree of tables: 512 entries each, a leaf at level 1 or where the
size bit is set. Here are the bits of one entry and of one address. -/
namespace Kokos.Paging
open ByteMemory RadixTables WordBits

def shape : Shape where
  fanout := 512
  leaf d e := decide (3 ≤ d) || (decide (1 ≤ d) && has e entrySize)
  target e := e &&& addressMask
  positive := by decide

def row (m : Memory) (table index : Nat) : Nat := readWord m (table+8*index)

def entries (m : Memory) (root : Nat) : Nat → Nat → Nat := entryAt shape (row m) root

def IsPage (p : Nat) : Prop := p % 4096 = 0 ∧ 0 < p ∧ p < 2^52

@[simp] theorem shapeFanout : shape.fanout = 512 := rfl

theorem entriesGrounded (m : Memory) (root : Nat) : Grounded shape (entries m root) := entryAtGrounded _ _

theorem masked (x : Nat) : x &&& addressMask = x / 4096 % 2^51 * 4096 := andField x 12 51

theorem hasBit (flags k : Nat) : has flags (2^k) = decide (flags / 2^k % 2 = 1) := by
  have field := andField flags k 1
  have bit : 2^(k+1) - 2^k = 2^k := by rw [Nat.pow_succ]; omega
  have positive : 0 < 2^k := Nat.two_pow_pos k
  rw [bit] at field
  simp only [has,field,ne_eq,Nat.mul_eq_zero]
  congr 1
  apply propext
  constructor
  · intro h; omega
  · intro h; omega

theorem hasSize (e : Nat) : has e entrySize = decide (e / 128 % 2 = 1) := hasBit e 7

theorem hasShort (flags : Nat) {k : Nat} (low : k < 16) : has (flags % 2^16) (2^k) = has flags (2^k) := by
  have bit := Nat.testBit_mod_two_pow flags 16 k
  rw [Nat.testBit_eq_decide_div_mod_eq,Nat.testBit_eq_decide_div_mod_eq] at bit
  rw [hasBit,hasBit,bit]
  simp [low]

theorem convertBits (flags : Nat) : pagingConvertFlags flags < 8 ∧ pagingConvertFlags flags % 2 = 1 := by
  unfold pagingConvertFlags
  cases has flags flagWrite <;> cases has flags flagUser <;> decide

/-! Links. -/

theorem linkPage {g d : Nat} (page : IsPage g) (inner : d < 3) :
    shape.link d (g ||| entryWritable ||| entryPresent) = some g ∧ g ||| entryWritable ||| entryPresent < 2^64 := by
  have value : g ||| entryWritable ||| entryPresent = g+3 := by
    obtain ⟨aligned,_,_⟩ := page
    have h := orAdd (g/4096) (show 3 < 2^12 by decide)
    rw [Nat.or_assoc]
    rwa [show 2^12*(g/4096) = g by omega] at h
  obtain ⟨aligned,positive,bound⟩ := page
  rw [value]
  refine ⟨?_,by omega⟩
  have leaf : shape.leaf d (g+3) = false := by
    have size : has (g+3) entrySize = false := by
      rw [hasSize,decide_eq_false_iff_not]; omega
    simp [shape,size]; omega
  rw [linkOf (by omega) leaf]
  simp only [shape,masked]
  congr 1
  omega

theorem leafDepth {d : Nat} (e : Nat) (deep : 3 ≤ d) : shape.leaf d e = true := by simp [shape,deep]

theorem linkDepth {d e : Nat} (link : (shape.link d e).isSome) : d < 3 := by
  by_contra deep
  have leaf := leafDepth e (Nat.le_of_not_lt deep)
  rw [linkLeaf leaf] at link
  contradiction

theorem leafRoot (e : Nat) : shape.leaf 0 e = false := rfl

theorem leafZero {d : Nat} (inner : d < 3) : shape.leaf d 0 = false := by
  have size : has 0 entrySize = false := by decide
  simp [shape,size]; omega

theorem sizeClear {d e : Nat} (low : 1 ≤ d) (leaf : shape.leaf d e = false) : has e entrySize = false := by
  simp only [shape,Bool.or_eq_false_iff,Bool.and_eq_false_iff,decide_eq_false_iff_not] at leaf
  rcases leaf.2 with h | h
  · omega
  · exact h

/-! Leaves. -/

theorem entryBits {x f : Nat} (flags : f < 4096) :
    (x &&& addressMask) ||| f = x / 4096 % 2^51 * 4096 + f := by
  rw [masked]
  exact orAddPlaced (s := 12) _ flags

theorem leafEntry {d x f : Nat} (low : 1 ≤ d) (flags : f < 8) (present : f % 2 = 1) :
    let e := (x &&& addressMask) ||| f ||| (if d < 3 then entrySize else 0)
    e ≠ 0 ∧ shape.leaf d e = true ∧ e < 2^64 ∧ e &&& 0xFFFFFFFFFF000 = x / 4096 % 2^40 * 4096 := by
  have value : (x &&& addressMask) ||| f ||| (if d < 3 then entrySize else 0) =
      x / 4096 % 2^51 * 4096 + (f + if d < 3 then 128 else 0) := by
    have merged : f ||| (if d < 3 then entrySize else 0) = f + if d < 3 then 128 else 0 := by
      by_cases huge : d < 3
      · have h := orAdd 1 (show f < 2^7 by omega)
        rw [if_pos huge,if_pos huge,Nat.or_comm]
        rw [Nat.mul_one] at h
        rw [entrySize,show (0b010000000 : Nat) = 2^7 by decide,h]
        omega
      · simp [huge]
    rw [Nat.or_assoc,merged]
    exact entryBits (by split <;> omega)
  intro e
  have sum : e = x / 4096 % 2^51 * 4096 + (f + if d < 3 then 128 else 0) := value
  have field : e &&& 0xFFFFFFFFFF000 = e / 4096 % 2^40 * 4096 := andField e 12 40
  refine ⟨by omega,?_,by split at sum <;> omega,?_⟩
  · by_cases huge : d < 3
    · have size : has e entrySize = true := by
        rw [if_pos huge] at sum
        rw [hasSize,decide_eq_true_iff]; omega
      simp [shape,size,low]
    · exact leafDepth e (by omega)
  · rw [field]
    split at sum <;> omega

/-! Addresses. -/

theorem digitValue (address shift : Nat) : digit address shift = address / 2^shift % 512 := by
  have field := andField (address >>> shift) 0 9
  simpa [digit,Nat.shiftRight_eq_div_pow] using field

def pageNumber (address : Nat) : Nat := address / 4096 % 2^36

theorem addressSum {c : PagingContext} (i3 : c.level3Index < 512)
    (i2 : c.level2Index < 512) (i1 : c.level1Index < 512) :
    c.address = 4096*(c.level1Index + 512*(c.level2Index + 512*(c.level3Index + 512*c.level4Index))) := by
  unfold PagingContext.address
  simp only [Nat.shiftLeft_eq]
  have low := orAddPlaced c.level2Index (show c.level1Index*2^12 < 2^21 by omega)
  have mid := orAddPlaced c.level3Index (show c.level2Index*2^21 + c.level1Index*2^12 < 2^30 by omega)
  have high := orAddPlaced c.level4Index (show c.level3Index*2^30 + (c.level2Index*2^21 + c.level1Index*2^12) < 2^39 by omega)
  rw [Nat.or_comm (c.level1Index*2^12),low,Nat.or_comm _ (c.level3Index*2^30),mid,Nat.or_comm _ (c.level4Index*2^39),high]
  omega

/-! Translation, read off the entries. -/

def numberAt (address depth : Nat) : Nat := pageNumber address / 512^(3-depth)

def Mapped (E : Nat → Nat → Nat) (address : Nat) : Prop := ∃ e ≤ 3, Leaf shape E 3 (pageNumber address) e

def resolve (E : Nat → Nat → Nat) (address : Nat) : Nat :=
  if E 1 (numberAt address 1) ≠ 0 ∧ shape.leaf 1 (E 1 (numberAt address 1)) = true then
    (E 1 (numberAt address 1) &&& 0xFFFFFFFFFF000) + address % 2^30
  else if E 2 (numberAt address 2) ≠ 0 ∧ shape.leaf 2 (E 2 (numberAt address 2)) = true then
    (E 2 (numberAt address 2) &&& 0xFFFFFFFFFF000) + address % 2^21
  else if E 3 (numberAt address 3) ≠ 0 then (E 3 (numberAt address 3) &&& 0xFFFFFFFFFF000) + address % 2^12
  else 0

theorem overDigits (address : Nat) :
    digit address 39 = numberAt address 0 ∧ digit address 30 = numberAt address 1 % 512 ∧
      digit address 21 = numberAt address 2 % 512 ∧ digit address 12 = numberAt address 3 % 512 := by
  simp only [digitValue,numberAt,pageNumber]
  omega

theorem overPath (address : Nat) {d e : Nat} (depth : d ≤ 3) (above : e ≤ d) :
    numberAt address d / 512^(d-e) = numberAt address e := by
  unfold numberAt
  rw [Nat.div_div_eq_div_mul,← Nat.pow_add,show 3-d+(d-e) = 3-e by omega]

theorem leafLink {E : Nat → Nat → Nat} (grounded : Grounded shape E) {address d e : Nat} (deep : e ≤ 3) (above : d < e)
    (leaf : Leaf shape E 3 (pageNumber address) e) : (shape.link d (E d (numberAt address d))).isSome := by
  have link := groundedLink grounded leaf.1 d above
  rwa [show pageNumber address / shape.fanout^(3-e) / shape.fanout^(e-d) = numberAt address d from
    overPath address deep (Nat.le_of_lt above)] at link

theorem overUp (address depth : Nat) (low : depth < 3) : numberAt address (depth+1) / 512 = numberAt address depth := by
  have path := overPath address (show depth+1 ≤ 3 by omega) (Nat.le_succ depth)
  rwa [Nat.add_sub_cancel_left,Nat.pow_one] at path

theorem overBound (address depth : Nat) (low : depth ≤ 3) : numberAt address depth < 512^(depth+1) := by
  unfold numberAt pageNumber
  apply Nat.div_lt_of_lt_mul
  rw [← Nat.pow_add,show 3-depth+(depth+1) = 4 by omega]
  omega

theorem tableAtZero (m : Memory) (root address : Nat) :
    tableAt shape (row m) root 0 (numberAt address 0 / 512) = some root := by
  have bound := overBound address 0 (by decide)
  simp only [tableAt]
  rw [if_pos (by omega)]

theorem entriesStep {m : Memory} {root d address t : Nat} (low : d < 3)
    (table : tableAt shape (row m) root d (numberAt address d / 512) = some t) :
    entries m root d (numberAt address d) = readWord m (t + 8*(numberAt address d % 512)) ∧
      tableAt shape (row m) root (d+1) (numberAt address (d+1) / 512) = shape.link d (entries m root d (numberAt address d)) := by
  refine ⟨?_,?_⟩
  · simp only [entries,entryAt,shapeFanout,table,row]
  · rw [overUp address d low,tableAtLink]
    rfl

theorem entriesLast {m : Memory} {root d n : Nat} (table : tableAt shape (row m) root d (n/512) = none) :
    entries m root d n = 0 := by
  simp only [entries,entryAt,shapeFanout,table]

theorem entriesBlank {m : Memory} {root : Nat} (zero : ∀ i < 512, row m root i = 0) (d n : Nat) : entries m root d n = 0 := by
  induction d generalizing n with
  | zero =>
    unfold entries entryAt
    split
    · rename_i f found
      simp only [tableAt] at found
      split at found
      · cases found
        exact zero _ (Nat.mod_lt _ (by decide))
      · cases found
    · rfl
  | succ d ih =>
    refine entriesLast ?_
    rw [tableAtLink,show entryAt shape (row m) root d (n/512) = 0 from ih (n/512),linkZero]

theorem translation (m : Memory) (root address : Nat) :
    pagingGetPhysicalAddress m root address = resolve (entries m root) address := by
  obtain ⟨d4,d3,d2,d1⟩ := overDigits address
  have mod30 : address &&& 0x3FFFFFFF = address % 2^30 := Nat.and_two_pow_sub_one_eq_mod address 30
  have mod21 : address &&& 0x1FFFFF = address % 2^21 := Nat.and_two_pow_sub_one_eq_mod address 21
  have mod12 : address &&& 0b111111111111 = address % 2^12 := Nat.and_two_pow_sub_one_eq_mod address 12
  have root0 : numberAt address 0 % 512 = numberAt address 0 := Nat.mod_eq_of_lt (overBound address 0 (by decide))
  -- Below an entry that is no link the entries read 0, level by level.
  have dead : ∀ d, d < 3 → tableAt shape (row m) root d (numberAt address d / 512) = none →
      tableAt shape (row m) root (d+1) (numberAt address (d+1) / 512) = none := by
    intro d low none
    rw [overUp address d low,tableAt,shapeFanout,none]
    rfl
  have size : ∀ d e, d = 1 ∨ d = 2 → shape.leaf d e = has e entrySize := by
    rintro d e (rfl | rfl) <;> rfl
  obtain ⟨e0,t1⟩ := entriesStep (by decide) (tableAtZero m root address)
  rw [root0] at e0
  unfold pagingGetPhysicalAddress resolve
  simp only [d4,d3,d2,d1,mod30,mod21,mod12,← e0]
  by_cases zero4 : entries m root 0 (numberAt address 0) = 0
  · rw [zero4,linkZero] at t1
    have t2 := dead 1 (by decide) t1
    have t3 := dead 2 (by decide) t2
    simp [zero4,entriesLast t1,entriesLast t2,entriesLast t3]
  · rw [linkOf zero4 (leafRoot _)] at t1
    obtain ⟨e1,t2⟩ := entriesStep (by decide) t1
    rw [if_neg zero4]
    change _ = readWord m ((entries m root 0 (numberAt address 0) &&& addressMask) + _) at e1
    rw [← e1]
    by_cases zero3 : entries m root 1 (numberAt address 1) = 0
    · rw [zero3,linkZero] at t2
      have t3 := dead 2 (by decide) t2
      simp [zero3,entriesLast t2,entriesLast t3]
    · rw [if_neg zero3]
      cases huge3 : has (entries m root 1 (numberAt address 1)) entrySize with
      | true => simp [zero3,size,huge3]
      | false =>
        have inner3 := (size 1 _ (Or.inl rfl)).trans huge3
        rw [linkOf zero3 inner3] at t2
        obtain ⟨e2,t3⟩ := entriesStep (by decide) t2
        change _ = readWord m ((entries m root 1 (numberAt address 1) &&& addressMask) + _) at e2
        rw [← e2]
        by_cases zero2 : entries m root 2 (numberAt address 2) = 0
        · rw [zero2,linkZero] at t3
          simp [inner3,zero2,entriesLast t3]
        · rw [if_neg zero2]
          cases huge2 : has (entries m root 2 (numberAt address 2)) entrySize with
          | true => simp [inner3,zero2,size,huge2]
          | false =>
            have inner2 := (size 2 _ (Or.inr rfl)).trans huge2
            rw [linkOf zero2 inner2] at t3
            have e3 : entries m root 3 (numberAt address 3) =
                readWord m ((entries m root 2 (numberAt address 2) &&& addressMask) + 8*(numberAt address 3 % 512)) := by
              simp only [entries,entryAt,shapeFanout,t3]
              rfl
            rw [← e3]
            by_cases zero1 : entries m root 3 (numberAt address 3) = 0
            · simp [inner3,inner2,zero1]
            · simp [inner3,inner2,zero1]

/-! What decides a translation is the leaf over the address. -/

theorem resolveLeaf {E : Nat → Nat → Nat} (grounded : Grounded shape E) {address e : Nat} (he : e ≤ 3)
    (leaf : Leaf shape E 3 (pageNumber address) e) :
    resolve E address = (E e (numberAt address e) &&& 0xFFFFFFFFFF000) + address % (4096*512^(3-e)) := by
  have only : ∀ d, d ≤ 3 → d ≠ e → ¬ (E d (numberAt address d) ≠ 0 ∧ shape.leaf d (E d (numberAt address d)) = true) :=
    fun d hd other here => other (leafUnique grounded hd he here leaf)
  have here : E e (numberAt address e) ≠ 0 ∧ shape.leaf e (E e (numberAt address e)) = true := leaf
  unfold resolve
  match e, he with
  | 0, _ => exact absurd here.2 (by simp [leafRoot])
  | 1, _ => rw [if_pos here]; rfl
  | 2, _ => rw [if_neg (only 1 (by decide) (by decide)),if_pos here]; rfl
  | 3, _ => rw [if_neg (only 1 (by decide) (by decide)),if_neg (only 2 (by decide) (by decide)),if_pos here.1]; rfl

theorem resolveNone {E : Nat → Nat → Nat} {address : Nat} (none : ¬ Mapped E address) : resolve E address = 0 := by
  have no : ∀ d, d ≤ 3 → ¬ (E d (numberAt address d) ≠ 0 ∧ shape.leaf d (E d (numberAt address d)) = true) :=
    fun d hd here => none ⟨d,hd,here⟩
  unfold resolve
  rw [if_neg (no 1 (by decide)),if_neg (no 2 (by decide)),if_neg]
  intro nonzero
  exact no 3 (by decide) ⟨nonzero,leafDepth _ (by decide)⟩

theorem resolveSame {E E' : Nat → Nat → Nat} (grounded : Grounded shape E) (grounded' : Grounded shape E')
    {address : Nat} (same : ∀ e ≤ 3, (Leaf shape E' 3 (pageNumber address) e ↔ Leaf shape E 3 (pageNumber address) e) ∧
      (Leaf shape E 3 (pageNumber address) e → E' e (numberAt address e) = E e (numberAt address e))) :
    resolve E' address = resolve E address ∧ (Mapped E' address ↔ Mapped E address) := by
  have mapped : Mapped E' address ↔ Mapped E address :=
    ⟨fun ⟨e,he,leaf⟩ => ⟨e,he,(same e he).1.mp leaf⟩,fun ⟨e,he,leaf⟩ => ⟨e,he,(same e he).1.mpr leaf⟩⟩
  refine ⟨?_,mapped⟩
  by_cases here : Mapped E address
  · obtain ⟨e,he,leaf⟩ := here
    rw [resolveLeaf grounded he leaf,resolveLeaf grounded' he ((same e he).1.mpr leaf),(same e he).2 leaf]
  · rw [resolveNone here,resolveNone (fun h => here (mapped.mp h))]

section Filled
variable {E E' : Nat → Nat → Nat} {d n m : Nat} {val : Nat → Nat} {address : Nat}

theorem resolveOutside (grounded : Grounded shape E) (grounded' : Grounded shape E')
    (filled : Filled shape E E' d n m val) (depth : d ≤ 3) (outside : numberAt address d < n ∨ n+m ≤ numberAt address d) :
    resolve E' address = resolve E address ∧ (Mapped E' address ↔ Mapped E address) :=
  resolveSame grounded grounded' fun _ he => filledOutside filled depth he outside

theorem resolveInside (grounded' : Grounded shape E') (filled : Filled shape E E' d n m val) (depth : d ≤ 3)
    {j : Nat} (hj : j < m) (here : numberAt address d = n+j) (leaf : val j ≠ 0 ∧ shape.leaf d (val j) = true) :
    resolve E' address = (val j &&& 0xFFFFFFFFFF000) + address % (4096*512^(3-d)) ∧ Mapped E' address := by
  have own := (filledInside grounded' filled depth hj here leaf depth).mpr rfl
  refine ⟨?_,d,depth,own⟩
  rw [resolveLeaf grounded' depth own,here,filled.value j hj]

theorem resolveErased (grounded : Grounded shape E) (grounded' : Grounded shape E')
    (filled : Filled shape E E' d n m val) (depth : d ≤ 3) (zero : ∀ j < m, val j = 0) (mapped : Mapped E' address) :
    Mapped E address ∧ resolve E' address = resolve E address := by
  by_cases outside : numberAt address d < n ∨ n+m ≤ numberAt address d
  · obtain ⟨same,both⟩ := resolveOutside grounded grounded' filled depth outside
    exact ⟨both.mp mapped,same⟩
  · obtain ⟨e,he,leaf⟩ := mapped
    have inside : n ≤ numberAt address d ∧ numberAt address d < n+m := by omega
    obtain ⟨higher,old⟩ := filledErased filled depth zero inside he leaf
    have same : E' e (numberAt address e) = E e (numberAt address e) := filledAbove filled higher old.1
    refine ⟨⟨e,he,old⟩,?_⟩
    rw [resolveLeaf grounded' he leaf,resolveLeaf grounded he old,same]

end Filled

end Kokos.Paging

import Kokos.ByteMemory
import Kokos.WhileLoops
import Kokos.WordBits

/-! multiboot2_info_get over the bytes of the information block. What the walk reads is
recorded beside it, as pairs of an address and a number of bytes. Addresses do not wrap. -/
namespace Kokos.Multiboot
open ByteMemory WhileLoops

/-- ALIGN_TO_NEXT(n, unit) in `unsigned int`: `-unit` is the mask 2^32 - unit. -/
def alignToNext (n unit : Nat) : Nat := (((n + (2^32 - 1)) % 2^32 &&& (2^32 - unit)) + unit) % 2^32

def totalSize (m : Memory) (info : Nat) : Nat := readUnsigned m info
def unused (m : Memory) (info : Nat) : Nat := readUnsigned m (info+4)
def tagType (m : Memory) (tag : Nat) : Nat := readUnsigned m tag
def tagSize (m : Memory) (tag : Nat) : Nat := readUnsigned m (tag+4)

def sizeofMultibootInfo : Nat := 8
def tagTypeEnd : Nat := 0
def tagTypeMemoryMap : Nat := 6

structure Walk where
  address : Nat
  reads : List (Nat × Nat)
  deriving DecidableEq, Repr

def getBody (m : Memory) (type : Nat) (s : Walk) : Walk ⊕ Walk :=
  if tagType m s.address = tagTypeEnd then .inr ⟨0,s.reads ++ [(s.address,4)]⟩
  else if tagType m s.address = type then .inr ⟨s.address,s.reads ++ [(s.address,4)]⟩
  else .inl ⟨s.address + alignToNext (tagSize m s.address) 8,s.reads ++ [(s.address,4),(s.address+4,4)]⟩

def multiboot2InfoGet (fuel : Nat) (m : Memory) (info type : Nat) : Option Walk :=
  loop (getBody m type) fuel ⟨info + sizeofMultibootInfo,[]⟩

def multiboot2InfoAvailable (m : Memory) (info : Nat) : Bool :=
  info ≠ 0 ∧ unused m info = 0 ∧ totalSize m info < 100000 ∧ 8 ≤ totalSize m info

theorem alignUp (n : Nat) : alignToNext n 8 = (n+7)/8*8 % 2^32 := by
  have field := WordBits.andField ((n + (2^32 - 1)) % 2^32) 3 29
  unfold alignToNext
  simp only [Nat.reducePow,Nat.reduceAdd,Nat.reduceSub] at field ⊢
  rw [field]
  omega

theorem alignExact {n : Nat} (bound : n ≤ 2^32 - 8) : alignToNext n 8 = (n+7)/8*8 := by
  rw [alignUp]
  omega

theorem alignSteps {n : Nat} (bound : n < 2^32) : alignToNext n 8 = 0 ∨ 0 < n ∧ alignToNext n 8 = (n+7)/8*8 := by
  rw [alignUp]
  omega

/-! A block that is a list of tags. -/

inductive TagList (m : Memory) (stop : Nat) : Nat → List Nat → Prop where
  | last {tag} (type : tagType m tag = tagTypeEnd) (size : 8 ≤ tagSize m tag) (inside : tag + tagSize m tag ≤ stop) :
      TagList m stop tag [tag]
  | tag {tag tags} (type : tagType m tag ≠ tagTypeEnd) (size : 8 ≤ tagSize m tag) (inside : tag + tagSize m tag ≤ stop)
      (rest : TagList m stop (tag + (tagSize m tag + 7)/8*8) tags) : TagList m stop tag (tag::tags)

def TaggedBlock (m : Memory) (info : Nat) (tags : List Nat) : Prop :=
  TagList m (info + totalSize m info) (info + sizeofMultibootInfo) tags

def InHeaders (tags : List Nat) (reads : List (Nat × Nat)) : Prop :=
  ∀ r ∈ reads, ∃ tag ∈ tags, tag ≤ r.1 ∧ r.1 + r.2 ≤ tag+8

theorem tagsInside {m stop tag tags} (list : TagList m stop tag tags) : ∀ t ∈ tags, tag ≤ t ∧ t + tagSize m t ≤ stop := by
  induction list with
  | last _ _ inside =>
    intro t member
    rw [List.mem_singleton.mp member]
    exact ⟨Nat.le_refl _,inside⟩
  | tag _ _ inside _ ih =>
    intro t member
    rcases List.mem_cons.mp member with rfl | later
    · exact ⟨Nat.le_refl _,inside⟩
    · have := ih t later
      exact ⟨by omega,this.2⟩

theorem walkTags {m stop tag tags type} (list : TagList m stop tag tags) (short : stop + 8 ≤ tag + 2^32)
    (notEnd : type ≠ tagTypeEnd) (before : List (Nat × Nat)) : ∃ reads, InHeaders tags reads ∧
    Ends (getBody m type) ⟨tag,before⟩ ⟨(tags.find? (tagType m · = type)).getD 0,before ++ reads⟩ := by
  induction list generalizing before with
  | last atEnd size inside =>
    rename_i tag
    have other : ¬ tagTypeEnd = type := fun same => notEnd same.symm
    refine ⟨[(tag,4)],?_,.leave ?_⟩
    · simp [InHeaders]
    · simp [getBody,atEnd,other]
  | tag goesOn size inside rest ih =>
    rename_i tag tags
    by_cases found : tagType m tag = type
    · refine ⟨[(tag,4)],?_,.leave ?_⟩
      · simp [InHeaders]
      · simp [getBody,found,notEnd]
    · have step : alignToNext (tagSize m tag) 8 = (tagSize m tag + 7)/8*8 := alignExact (by omega)
      have pass : getBody m type ⟨tag,before⟩ = .inl ⟨tag + (tagSize m tag + 7)/8*8,before ++ [(tag,4),(tag+4,4)]⟩ := by
        simp only [getBody,goesOn,found,if_false,step]
      obtain ⟨reads,headers,ends⟩ := ih (by omega) (before ++ [(tag,4),(tag+4,4)])
      refine ⟨[(tag,4),(tag+4,4)] ++ reads,?_,.goOn pass ?_⟩
      · intro r member
        rcases List.mem_append.mp member with here | later
        · refine ⟨tag,List.mem_cons_self,?_⟩
          simp only [List.mem_cons,List.not_mem_nil,or_false] at here
          rcases here with rfl | rfl <;> simp only <;> omega
        · obtain ⟨t,inTags,bounds⟩ := headers r later
          exact ⟨t,List.mem_cons_of_mem _ inTags,bounds⟩
      · simpa [List.find?_cons,found] using ends

theorem walkBlock {m info tags type} (block : TaggedBlock m info tags) (notEnd : type ≠ tagTypeEnd) :
    ∃ reads, InHeaders tags reads ∧ Ends (getBody m type) ⟨info + sizeofMultibootInfo,[]⟩
      ⟨(tags.find? (tagType m · = type)).getD 0,reads⟩ := by
  have total : totalSize m info < 2^32 := readUnsignedBound m info
  exact walkTags block (by unfold sizeofMultibootInfo; omega) notEnd []

theorem getReturnsFirst {m info tags type} (block : TaggedBlock m info tags) (notEnd : type ≠ tagTypeEnd) :
    ∃ least reads, InHeaders tags reads ∧ ∀ fuel, least ≤ fuel →
      multiboot2InfoGet fuel m info type = some ⟨(tags.find? (tagType m · = type)).getD 0,reads⟩ := by
  obtain ⟨reads,headers,ends⟩ := walkBlock block notEnd
  obtain ⟨least,returns⟩ := loopOfEnds ends
  exact ⟨least,reads,headers,returns⟩

def twoTags : Memory := fun a =>
  if a = 0x1000 then 32 else if a = 0x1008 then 1 else if a = 0x100C then 9 else if a = 0x101C then 8 else 0

theorem twoTagsReturnFirst : ∃ least reads, InHeaders [0x1008,0x1018] reads ∧ ∀ fuel, least ≤ fuel →
    multiboot2InfoGet fuel twoTags 0x1000 1 = some ⟨0x1008,reads⟩ :=
  getReturnsFirst (m := twoTags) (.tag (by decide) (by decide) (by decide)
    (.last (by decide) (by decide) (by decide))) (by decide)

/-! Any block: where the walk ends, and what it has read by then. -/

def Inside (m : Memory) (info : Nat) (reads : List (Nat × Nat)) : Prop :=
  ∀ r ∈ reads, info ≤ r.1 ∧ r.1 + r.2 ≤ info + totalSize m info

def StaysInside (m : Memory) (info type : Nat) : Prop :=
  ∃ fuel s, multiboot2InfoGet fuel m info type = some s ∧ Inside m info s.reads

inductive Leads (m : Memory) : Nat → Nat → Prop where
  | here {tag} : Leads m tag tag
  | next {tag last} (size : 0 < tagSize m tag) (rest : Leads m (tag + (tagSize m tag + 7)/8*8) last) : Leads m tag last

def Sought (m : Memory) (type tag : Nat) : Prop := tagType m tag = tagTypeEnd ∨ tagType m tag = type
instance (m type tag) : Decidable (Sought m type tag) := by unfold Sought; infer_instance

theorem leadsUp {m tag last} (leads : Leads m tag last) : tag ≤ last := by
  induction leads with
  | here => exact Nat.le_refl _
  | next _ _ ih => omega

theorem passOn {m type} {s : Walk} (other : ¬ Sought m type s.address) : getBody m type s =
    .inl ⟨s.address + alignToNext (tagSize m s.address) 8,s.reads ++ [(s.address,4),(s.address+4,4)]⟩ := by
  simp only [Sought,not_or] at other
  simp only [getBody,other.1,other.2,if_false]

theorem passLeaves {m type} {s : Walk} (sought : Sought m type s.address) :
    ∃ address, getBody m type s = .inr ⟨address,s.reads ++ [(s.address,4)]⟩ := by
  unfold getBody
  by_cases atEnd : tagType m s.address = tagTypeEnd
  · exact ⟨0,if_pos atEnd⟩
  · refine ⟨s.address,?_⟩
    rw [if_neg atEnd,if_pos (sought.resolve_left atEnd)]

theorem stuck {m type} {s r : Walk} (other : ¬ Sought m type s.address) (step : alignToNext (tagSize m s.address) 8 = 0) :
    ¬ Ends (getBody m type) s r := by
  refine neverEnds (I := fun t => t.address = s.address) (fun t same => ?_) rfl
  refine ⟨_,passOn (same ▸ other),?_⟩
  simp only [same,step,Nat.add_zero]

theorem endsAtSought {m type} {s r : Walk} (ends : Ends (getBody m type) s r) :
    ∃ last, Leads m s.address last ∧ Sought m type last ∧ (last,4) ∈ r.reads := by
  induction ends with
  | @leave s r here =>
    by_cases sought : Sought m type s.address
    · obtain ⟨address,pass⟩ := passLeaves sought
      rw [pass] at here
      exact ⟨s.address,.here,sought,by simp [← Sum.inr.inj here]⟩
    · rw [passOn sought] at here
      cases here
  | @goOn s s' r here rest ih =>
    have other : ¬ Sought m type s.address := by
      intro sought
      obtain ⟨address,pass⟩ := passLeaves sought
      rw [pass] at here
      cases here
    have moved := here
    rw [passOn other] at moved
    obtain ⟨last,leads,sought,read⟩ := ih
    rw [← Sum.inl.inj moved] at leads
    rcases alignSteps (readUnsignedBound m (s.address + 4)) with stays | ⟨size,step⟩
    · exact absurd (.goOn here rest) (stuck other stays)
    · exact ⟨last,.next size (step ▸ leads),sought,read⟩

theorem insideAppend {m info reads more} (first : Inside m info reads) (second : Inside m info more) :
    Inside m info (reads ++ more) := fun r member => (List.mem_append.mp member).elim (first r) (second r)

theorem leavesInside {m type info} {s : Walk} (sought : Sought m type s.address) (low : info ≤ s.address)
    (high : s.address + 4 ≤ info + totalSize m info) (inside : Inside m info s.reads) :
    ∃ r, Ends (getBody m type) s r ∧ Inside m info r.reads := by
  obtain ⟨address,pass⟩ := passLeaves sought
  refine ⟨_,.leave pass,insideAppend inside ?_⟩
  intro r member
  rw [List.mem_singleton.mp member]
  exact ⟨low,high⟩

theorem endsInside {m type info tag last} (leads : Leads m tag last) (sought : Sought m type last)
    (low : info ≤ tag) (high : last + 4 ≤ info + totalSize m info) {before : List (Nat × Nat)} (inside : Inside m info before) :
    ∃ r, Ends (getBody m type) ⟨tag,before⟩ r ∧ Inside m info r.reads := by
  induction leads generalizing before with
  | here => exact leavesInside sought low high inside
  | @next tag last size rest ih =>
    have up := leadsUp rest
    by_cases here : Sought m type tag
    · exact leavesInside here low (by simp only; omega) inside
    · have total := readUnsignedBound m info
      have step : alignToNext (tagSize m tag) 8 = (tagSize m tag + 7)/8*8 := by
        unfold totalSize at high
        exact alignExact (by omega)
      have pass := passOn (s := ⟨tag,before⟩) here
      simp only [step] at pass
      have headInside : Inside m info (before ++ [(tag,4),(tag+4,4)]) := by
        refine insideAppend inside fun r member => ?_
        simp only [List.mem_cons,List.not_mem_nil,or_false] at member
        rcases member with rfl | rfl <;> simp only <;> omega
      obtain ⟨r,ends,kept⟩ := ih sought (by omega) high headInside
      exact ⟨r,.goOn pass ends,kept⟩

theorem staysInsideIff {m info type} : StaysInside m info type ↔ ∃ last, Leads m (info + sizeofMultibootInfo) last ∧
    Sought m type last ∧ last + 4 ≤ info + totalSize m info := by
  constructor
  · rintro ⟨fuel,s,returned,inside⟩
    obtain ⟨last,leads,sought,read⟩ := endsAtSought (endsOfLoop returned)
    exact ⟨last,leads,sought,(inside _ read).2⟩
  · rintro ⟨last,leads,sought,high⟩
    obtain ⟨r,ends,inside⟩ := endsInside leads sought (Nat.le_add_right _ _) high (show Inside m info [] by simp [Inside])
    obtain ⟨fuel,returned⟩ := loopEnds.mpr ends
    exact ⟨fuel,r,returned,inside⟩

def emptyTag : Memory := fun a => if a = 0x1000 then 16 else if a = 0x1008 then 1 else 0

theorem emptyTagAccepted : multiboot2InfoAvailable emptyTag 0x1000 = true ∧ ¬ StaysInside emptyTag 0x1000 6 := by
  refine ⟨by decide,?_⟩
  rintro ⟨fuel,s,returned,_⟩
  exact stuck (s := ⟨0x1008,[]⟩) (by decide) (by decide) (endsOfLoop returned)

end Kokos.Multiboot

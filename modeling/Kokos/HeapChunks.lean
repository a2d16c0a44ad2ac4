import Kokos.Heap
import Kokos.LinkedLists
import Kokos.WordBits

/-! The chunks of the heap as a list, and what inserting and unlinking a chunk do to it. -/
namespace Kokos.Heap
open ByteMemory CountedLoops LinkedLists

theorem alignValue {bytes : Int} (request : Request bytes) : alignToNext bytes = (bytes+7)/8*8 := by
  obtain ⟨low,high⟩ := request
  rcases Int.eq_ofNat_of_zero_le low with ⟨n,rfl⟩
  cases n with
  | zero => rfl
  | succ k =>
    have less : ((k+1 : Nat) : Int) - 1 = k := by omega
    have small : k < 2^64 := by omega
    have mask : (BitVec.ofNat 64 k &&& -8#64).toNat = k/8*8 := by
      have field := WordBits.andField k 3 61
      rw [Nat.mod_eq_of_lt (by omega)] at field
      rw [BitVec.toNat_and,BitVec.toNat_ofNat,Nat.mod_eq_of_lt small]
      exact field
    have value : (((BitVec.ofNat 64 k &&& -8#64) + 8#64).setWidth 32).toNat = k/8*8 + 8 := by
      rw [BitVec.toNat_setWidth,BitVec.toNat_add,mask]
      simp only [BitVec.toNat_ofNat]
      omega
    unfold alignToNext
    rw [less,show BitVec.ofInt 64 (k : Int) = BitVec.ofNat 64 k from rfl,BitVec.toInt_eq_toNat_of_lt (by rw [value]; omega),value]
    omega

def Apart (x y : Nat) : Prop := x+24 ≤ y ∨ y+24 ≤ x

section
variable {m : Memory} {x y v : Nat}

theorem setNext (away : x = y ∨ Apart x y) (bound : v < 2^64) :
    nextOf (writeWord m (y + chunkNext) v) x = (if x = y then v else nextOf m x) ∧
    previousOf (writeWord m (y + chunkNext) v) x = previousOf m x ∧
    sizeOf (writeWord m (y + chunkNext) v) x = sizeOf m x := by
  unfold Apart at away
  unfold nextOf previousOf sizeOf chunkNext chunkPrevious chunkSize
  refine ⟨?_,readWriteOther m v (by omega),readIntCongr (writeWordOther m v (by omega)) ⟨Nat.le_refl _,Nat.le_refl _⟩⟩
  by_cases this : x = y
  · rw [if_pos this,this]
    exact readWriteSame m _ bound
  · rw [if_neg this]
    exact readWriteOther m v (by omega)

theorem setPrevious (away : x = y ∨ Apart x y) (bound : v < 2^64) :
    nextOf (writeWord m (y + chunkPrevious) v) x = nextOf m x ∧
    previousOf (writeWord m (y + chunkPrevious) v) x = (if x = y then v else previousOf m x) ∧
    sizeOf (writeWord m (y + chunkPrevious) v) x = sizeOf m x := by
  unfold Apart at away
  unfold nextOf previousOf sizeOf chunkNext chunkPrevious chunkSize
  refine ⟨readWriteOther m v (by omega),?_,readIntCongr (writeWordOther m v (by omega)) ⟨Nat.le_refl _,Nat.le_refl _⟩⟩
  by_cases this : x = y
  · rw [if_pos this,this]
    exact readWriteSame m _ bound
  · rw [if_neg this]
    exact readWriteOther m v (by omega)

theorem setSize {bytes : Int} (away : x = y ∨ Apart x y) (low : 0 ≤ bytes) (high : bytes < 2^31) :
    nextOf (writeInt m (y + chunkSize) bytes) x = nextOf m x ∧
    previousOf (writeInt m (y + chunkSize) bytes) x = previousOf m x ∧
    sizeOf (writeInt m (y + chunkSize) bytes) x = (if x = y then bytes else sizeOf m x) := by
  unfold Apart at away
  unfold nextOf previousOf sizeOf chunkNext chunkPrevious chunkSize
  have same : ∀ b size, b+size ≤ y+16 ∨ y+16+4 ≤ b → SameBytes m (writeInt m (y+16) bytes) b size :=
    fun b size apart => writeIntOther m bytes apart
  refine ⟨readWordCongr (same (x+0) 8 (by omega)),readWordCongr (same (x+8) 8 (by omega)),?_⟩
  by_cases this : x = y
  · rw [if_pos this,this]
    exact readIntSame m _ (by omega) high
  · rw [if_neg this]
    exact readIntCongr (same (x+16) 4 (by omega)) ⟨Nat.le_refl _,Nat.le_refl _⟩

theorem fieldsSame {m' : Memory} (same : SameBytes m m' x 24) :
    nextOf m' x = nextOf m x ∧ previousOf m' x = previousOf m x ∧ sizeOf m' x = sizeOf m x := by
  unfold nextOf previousOf sizeOf chunkNext chunkPrevious chunkSize
  exact ⟨readWordCongr (sameInside same (by omega)),readWordCongr (sameInside same (by omega)),readIntCongr same (by omega)⟩

end

def newHeader (m : Memory) (n d c : Nat) (bytes : Int) : Memory :=
  writeWord (writeWord (writeInt m (n + chunkSize) bytes) (n + chunkNext) d) (n + chunkPrevious) c

section
variable {m : Memory} {c n d x : Nat} {bytes : Int}

theorem newHeaderFields (low : 0 ≤ bytes) (high : bytes < 2^31) (bounds : c < 2^64 ∧ d < 2^64) (fresh : x = n ∨ Apart x n) :
    nextOf (newHeader m n d c bytes) x = (if x = n then d else nextOf m x) ∧
    previousOf (newHeader m n d c bytes) x = (if x = n then c else previousOf m x) ∧
    sizeOf (newHeader m n d c bytes) x = (if x = n then bytes else sizeOf m x) := by
  obtain ⟨next1,previous1,size1⟩ := @setSize m x n bytes fresh low high
  obtain ⟨next2,previous2,size2⟩ := @setNext (writeInt m (n + chunkSize) bytes) x n d fresh bounds.2
  obtain ⟨next3,previous3,size3⟩ :=
    @setPrevious (writeWord (writeInt m (n + chunkSize) bytes) (n + chunkNext) d) x n c fresh bounds.1
  unfold newHeader
  rw [next3,next2,next1,previous3,previous2,previous1,size3,size2,size1]
  exact ⟨rfl,rfl,rfl⟩

theorem newHeaderOther {b size : Nat} (away : b+size ≤ n ∨ n+24 ≤ b) : SameBytes m (newHeader m n d c bytes) b size := by
  unfold newHeader chunkSize chunkNext chunkPrevious
  refine sameTrans (sameTrans (writeIntOther m bytes ?_) (writeWordOther _ d ?_)) (writeWordOther _ c ?_)
  all_goals omega

def linkAround (m : Memory) (n c d : Nat) : Memory :=
  writeWord (if d ≠ 0 then writeWord m (d + chunkPrevious) n else m) (c + chunkNext) n

theorem linkFields (bound : n < 2^64) (proper : x ≠ 0) (here : x = c ∨ Apart x c) (after : d = 0 ∨ x = d ∨ Apart x d) :
    nextOf (linkAround m n c d) x = (if x = c then n else nextOf m x) ∧
    previousOf (linkAround m n c d) x = (if x = d then n else previousOf m x) ∧
    sizeOf (linkAround m n c d) x = sizeOf m x := by
  unfold linkAround
  by_cases last : d = 0
  · have other : x ≠ d := last ▸ proper
    rw [if_neg (not_not_intro last),if_neg other]
    exact setNext here bound
  · rw [if_pos last]
    obtain ⟨next1,previous1,size1⟩ := @setPrevious m x d n (after.resolve_left last) bound
    obtain ⟨next2,previous2,size2⟩ := @setNext (writeWord m (d + chunkPrevious) n) x c n here bound
    rw [next2,next1,previous2,previous1,size2,size1]
    exact ⟨rfl,rfl,rfl⟩

theorem linkOther {b size : Nat} (away : b+size ≤ c ∨ c+24 ≤ b) (after : d = 0 ∨ b+size ≤ d ∨ d+24 ≤ b) :
    SameBytes m (linkAround m n c d) b size := by
  unfold linkAround chunkPrevious chunkNext
  by_cases last : d = 0
  · rw [if_neg (not_not_intro last)]
    exact writeWordOther m n (by omega)
  · rw [if_pos last]
    exact sameTrans (writeWordOther m n (by omega)) (writeWordOther _ n (by omega))

theorem insertChunkEq (place : c + chunkBytes + sizeOf m c = n) (size : 0 ≤ sizeOf m c) (low : 0 ≤ bytes) (high : bytes < 2^31)
    (bound : c < 2^64) :
    insertChunk m c bytes = (linkAround (newHeader m n (nextOf m c) c bytes) n c (nextOf m c),n + chunkBytes) := by
  have chunk : (c + chunkBytes + sizeOf m c).toNat = n := by
    rw [place]
    rfl
  have apart : c = n ∨ Apart c n := by
    unfold Apart
    unfold chunkBytes at place
    omega
  have other : c ≠ n := by
    unfold chunkBytes at place
    omega
  have first : nextOf (writeInt m (n + chunkSize) bytes) c = nextOf m c := (setSize apart low high).1
  have header : nextOf (newHeader m n (nextOf m c) c bytes) c = nextOf m c :=
    (newHeaderFields low high ⟨bound,readWordBound m _⟩ apart).1.trans (if_neg other)
  unfold insertChunk
  simp only [chunk,first]
  change nextOf (writeWord (writeWord (writeInt m (n + chunkSize) bytes) (n + chunkNext) (nextOf m c)) (n + chunkPrevious) c) c = _ at header
  simp only [header]
  rfl

end

structure Chunks (m : Memory) (all : List Nat) : Prop where
  links : Links (nextOf m) (previousOf m) 0 0 all
  order : all.Pairwise fun c d => c + 24 + sizeOf m c ≤ d
  sizes : ∀ c ∈ all, 0 ≤ sizeOf m c
  ends : ∀ c ∈ all, c + 24 + sizeOf m c ≤ 2^64
  proper : ∀ c ∈ all, 0 < c

section
variable {m : Memory} {all k l : List Nat} {c n : Nat} {bytes : Int}

theorem apartOf (order : all.Pairwise fun c d => c+24 ≤ d) : ∀ x ∈ all, ∀ y ∈ all, x = y ∨ Apart x y := by
  have symmetric : Std.Symm Apart := ⟨fun _ _ => Or.symm⟩
  have apart : all.Pairwise Apart := order.imp Or.inl
  exact fun x first y second => or_iff_not_imp_left.mpr (apart.forall first second)

theorem headersApart (chunks : Chunks m all) : all.Pairwise fun c d => c+24 ≤ d := by
  refine chunks.order.imp_of_mem fun first _ after => ?_
  have size := chunks.sizes _ first
  omega

theorem chunksSame {m' : Memory} (chunks : Chunks m all) (same : ∀ c ∈ all, SameBytes m m' c 24) : Chunks m' all := by
  have fields := fun c member => fieldsSame (same c member)
  have sizes : ∀ c ∈ all, sizeOf m' c = sizeOf m c := fun c member => (fields c member).2.2
  refine ⟨?_,?_,fun c member => ?_,fun c member => ?_,chunks.proper⟩
  · refine linksSame chunks.links (fun d head => ?_) (fun x member => (fields x member).1)
      fun x member => (fields x (List.mem_of_mem_tail member)).2.1
    cases all with
    | nil => cases head
    | cons e all =>
      cases head
      exact (fields _ List.mem_cons_self).2.1.trans chunks.links.1
  · exact chunks.order.imp_of_mem fun first _ after => by rwa [sizes _ first]
  · rw [sizes c member]
    exact chunks.sizes c member
  · rw [sizes c member]
    exact chunks.ends c member

theorem aroundGap (chunks : Chunks m (k ++ c::l)) (fits : ∀ d, l.head? = some d → n + 24 + bytes ≤ d) :
    (∀ x ∈ k, x + 24 + sizeOf m x ≤ c) ∧ (∀ x ∈ l, n + 24 + bytes ≤ x) := by
  obtain ⟨_,tail,before⟩ := List.pairwise_append.mp chunks.order
  refine ⟨fun x member => before x member c List.mem_cons_self,fun x member => ?_⟩
  cases l with
  | nil => cases member
  | cons d l =>
    have gap := fits d rfl
    rcases List.mem_cons.mp member with rfl | deeper
    · exact gap
    · have later := (List.pairwise_cons.mp (List.pairwise_cons.mp tail).2).1 x deeper
      have size := chunks.sizes d (by simp)
      omega

theorem insertMembers (x : Nat) : x ∈ k ++ c::n::l ↔ x = n ∨ x ∈ k ++ c::l := by
  simp only [List.mem_append,List.mem_cons]
  grind

theorem insertFresh (distinct : (k ++ c::n::l).Nodup) : n ∉ k ++ c::l := by
  rw [List.append_cons] at distinct ⊢
  exact (List.nodup_cons.mp (List.perm_middle.nodup_iff.mp distinct)).1

theorem beforeNew (chunks : Chunks m (k ++ c::l)) (place : c + 24 + sizeOf m c = n) :
    ∀ x ∈ k ++ [c], x ∈ k ++ c::l ∧ x + 24 + sizeOf m x ≤ n := by
  have member : c ∈ k ++ c::l := by simp
  have size := chunks.sizes c member
  have before := (List.pairwise_append.mp chunks.order).2.2
  intro x there
  rcases List.mem_append.mp there with first | here
  · have := before x first c List.mem_cons_self
    exact ⟨List.mem_append_left _ first,by omega⟩
  · rw [List.mem_singleton.mp here]
    exact ⟨member,by omega⟩

theorem insertApart (chunks : Chunks m (k ++ c::l)) (place : c + 24 + sizeOf m c = n) (low : 0 ≤ bytes)
    (fits : ∀ d, l.head? = some d → n + 24 + bytes ≤ d) : (k ++ c::n::l).Pairwise fun x y => x+24 ≤ y := by
  refine pairwiseInsert (headersApart chunks) (fun _ _ _ h => h) (fun x there => ?_) fun x there => ?_
  · obtain ⟨known,early⟩ := beforeNew chunks place x there
    have := chunks.sizes x known
    omega
  · have := (aroundGap chunks fits).2 x there
    omega

theorem distinctOf (order : all.Pairwise fun c d => c+24 ≤ d) : all.Nodup := order.imp fun h => by omega

theorem headInside (l : List Nat) : l.headD 0 = 0 ∨ l.headD 0 ∈ l := by
  cases l with
  | nil => exact Or.inl rfl
  | cons e l => exact Or.inr List.mem_cons_self

theorem chunksInsert (chunks : Chunks m (k ++ c::l)) (place : c + 24 + sizeOf m c = n) (low : 0 ≤ bytes) (high : bytes < 2^31)
    (fits : ∀ d, l.head? = some d → n + 24 + bytes ≤ d) (room : n + 24 + bytes ≤ 2^64) :
    Chunks (insertChunk m c bytes).1 (k ++ c::n::l) ∧ (insertChunk m c bytes).2 = n+24 ∧
    n ∉ k ++ c::l ∧ sizeOf (insertChunk m c bytes).1 n = bytes ∧
    (∀ x ∈ k ++ c::l, sizeOf (insertChunk m c bytes).1 x = sizeOf m x) ∧
    ∀ b size, (∀ x ∈ k ++ c::n::l, b+size ≤ x ∨ x+24 ≤ b) → SameBytes m (insertChunk m c bytes).1 b size := by
  have member : c ∈ k ++ c::l := by simp
  have size := chunks.sizes c member
  have cEnd := chunks.ends c member
  have early := beforeNew chunks place
  have beyond := (aroundGap chunks fits).2
  have ordered := insertApart chunks place low fits
  have distinct := distinctOf ordered
  have apart := apartOf ordered
  have new : n ∈ k ++ c::n::l := by simp
  have old : ∀ x ∈ k ++ c::l, x ∈ k ++ c::n::l := fun x there => (insertMembers x).mpr (Or.inr there)
  have behind : ∀ x ∈ l, x ∈ k ++ c::l := fun x there => List.mem_append_right _ (List.mem_cons_of_mem _ there)
  have proper : ∀ x ∈ k ++ c::n::l, x ≠ 0 := by
    intro x there
    rcases (insertMembers x).mp there with rfl | was
    · omega
    · exact Nat.ne_of_gt (chunks.proper x was)
  have inside := headInside l
  rw [insertChunkEq place size low high (by omega),linksNext chunks.links]
  dsimp only
  have bound : l.headD 0 < 2^64 := by
    rcases inside with none | next
    · omega
    · have := chunks.ends _ (behind _ next)
      have := chunks.sizes _ (behind _ next)
      omega
  have fields : ∀ x ∈ k ++ c::n::l,
      nextOf (linkAround (newHeader m n (l.headD 0) c bytes) n c (l.headD 0)) x =
        (if x = c then n else if x = n then l.headD 0 else nextOf m x) ∧
      previousOf (linkAround (newHeader m n (l.headD 0) c bytes) n c (l.headD 0)) x =
        (if x = l.headD 0 then n else if x = n then c else previousOf m x) ∧
      sizeOf (linkAround (newHeader m n (l.headD 0) c bytes) n c (l.headD 0)) x = (if x = n then bytes else sizeOf m x) := by
    intro x there
    obtain ⟨next1,previous1,size1⟩ := @newHeaderFields m c n (l.headD 0) x bytes low high ⟨by omega,bound⟩ (apart x there n new)
    obtain ⟨next2,previous2,size2⟩ := @linkFields (newHeader m n (l.headD 0) c bytes) c n (l.headD 0) x (by omega) (proper x there)
      (apart x there c (old c member)) (inside.imp id fun next => apart x there _ (old _ (behind _ next)))
    rw [next2,next1,previous2,previous1,size2,size1]
    exact ⟨rfl,rfl,rfl⟩
  have frame : ∀ b size, (∀ x ∈ k ++ c::n::l, b+size ≤ x ∨ x+24 ≤ b) →
      SameBytes m (linkAround (newHeader m n (l.headD 0) c bytes) n c (l.headD 0)) b size := fun b size away =>
    sameTrans (newHeaderOther (away n new)) (linkOther (away c (old c member)) (inside.imp id fun next => away _ (old _ (behind _ next))))
  generalize linkAround (newHeader m n (l.headD 0) c bytes) n c (l.headD 0) = m' at *
  have fresh := insertFresh distinct
  have different : ∀ x ∈ k ++ c::l, x ≠ n := fun x there same => fresh (same ▸ there)
  have sizes : ∀ x ∈ k ++ c::l, sizeOf m' x = sizeOf m x :=
    fun x there => (fields x (old x there)).2.2.trans (if_neg (different x there))
  have sizeNew : sizeOf m' n = bytes := (fields n new).2.2.trans (if_pos rfl)
  have links := linksInsert chunks.links distinct proper (fun x there => (fields x there).1) fun x there => (fields x there).2.1
  refine ⟨⟨links,?_,?_,?_,fun x there => Nat.pos_of_ne_zero (proper x there)⟩,rfl,fresh,sizeNew,sizes,frame⟩
  · refine pairwiseInsert chunks.order (fun x there y h => ?_) (fun x there => ?_) fun x there => ?_
    · rwa [sizes x there]
    · rw [sizes x (early x there).1]
      exact (early x there).2
    · rw [sizeNew]
      exact beyond x there
  · intro x there
    rcases (insertMembers x).mp there with rfl | was
    · rw [sizeNew]
      exact low
    · rw [sizes x was]
      exact chunks.sizes x was
  · intro x there
    rcases (insertMembers x).mp there with rfl | was
    · rw [sizeNew]
      exact room
    · rw [sizes x was]
      exact chunks.ends x was

def unlink (m : Memory) (q d : Nat) : Memory :=
  if d ≠ 0 then writeWord (writeWord m (q + chunkNext) d) (d + chunkPrevious) q else writeWord m (q + chunkNext) d

theorem unlinkFields {q d x : Nat} (bounds : q < 2^64 ∧ d < 2^64) (proper : x ≠ 0) (here : x = q ∨ Apart x q)
    (after : d = 0 ∨ x = d ∨ Apart x d) :
    nextOf (unlink m q d) x = (if x = q then d else nextOf m x) ∧
    previousOf (unlink m q d) x = (if x = d then q else previousOf m x) ∧ sizeOf (unlink m q d) x = sizeOf m x := by
  obtain ⟨next1,previous1,size1⟩ := @setNext m x q d here bounds.2
  unfold unlink
  by_cases last : d = 0
  · have other : x ≠ d := last ▸ proper
    rw [if_neg (not_not_intro last),if_neg other]
    exact ⟨next1,previous1,size1⟩
  · rw [if_pos last]
    obtain ⟨next2,previous2,size2⟩ := @setPrevious (writeWord m (q + chunkNext) d) x d q (after.resolve_left last) bounds.1
    rw [next2,next1,previous2,previous1,size2,size1]
    exact ⟨rfl,rfl,rfl⟩

theorem unlinkOther {q d b size : Nat} (away : b+size ≤ q ∨ q+24 ≤ b) (after : d = 0 ∨ b+size ≤ d ∨ d+24 ≤ b) :
    SameBytes m (unlink m q d) b size := by
  unfold unlink chunkPrevious chunkNext
  by_cases last : d = 0
  · rw [if_neg (not_not_intro last)]
    exact writeWordOther m d (by omega)
  · rw [if_pos last]
    exact sameTrans (writeWordOther m d (by omega)) (writeWordOther _ q (by omega))

theorem memoryFreeEq {q : Nat} (back : previousOf m c = q) (proper : q ≠ 0) (apart : Apart c q) :
    memoryFree m (c + chunkBytes) = unlink m q (nextOf m c) := by
  have bound : nextOf m c < 2^64 := readWordBound m _
  have other : c ≠ q := by
    unfold Apart at apart
    omega
  obtain ⟨next,previous,_⟩ := @setNext m c q (nextOf m c) (Or.inr apart) bound
  rw [if_neg other] at next
  unfold memoryFree
  rw [Nat.add_sub_cancel]
  simp only [back,if_pos proper,next,previous]
  rfl

theorem chunksRemove {q : Nat} (chunks : Chunks m (k ++ q::c::l)) : Chunks (memoryFree m (c + chunkBytes)) (k ++ q::l) ∧
    (∀ x, x ∈ k ++ q::c::l ↔ x = c ∨ x ∈ k ++ q::l) ∧ c ∉ k ++ q::l ∧
    (∀ x ∈ k ++ q::l, sizeOf (memoryFree m (c + chunkBytes)) x = sizeOf m x) ∧
    ∀ b size, (∀ x ∈ k ++ q::l, b+size ≤ x ∨ x+24 ≤ b) → SameBytes m (memoryFree m (c + chunkBytes)) b size := by
  have split : k ++ q::c::l = (k ++ [q]) ++ c::l := List.append_cons k q (c::l)
  have part : (k ++ q::l).Sublist (k ++ q::c::l) := (List.Sublist.refl k).append ((List.sublist_cons_self c l).cons_cons q)
  have old : ∀ x ∈ k ++ q::l, x ∈ k ++ q::c::l := fun x there => part.subset there
  have memberQ : q ∈ k ++ q::l := by simp
  have ordered := headersApart chunks
  have distinct := distinctOf ordered
  have apart := apartOf ordered
  have qBefore : q+24 ≤ c := (List.pairwise_cons.mp (List.pairwise_append.mp ordered).2.1).1 c List.mem_cons_self
  have proper : ∀ x ∈ k ++ q::l, x ≠ 0 := fun x there => Nat.ne_of_gt (chunks.proper x (old x there))
  have inside := headInside l
  have onward : nextOf m c = l.headD 0 := linksNext (split ▸ chunks.links)
  have dBound : l.headD 0 < 2^64 := onward ▸ readWordBound m _
  have qBound : q < 2^64 := by
    have := chunks.ends q (old q memberQ)
    have := chunks.sizes q (old q memberQ)
    omega
  rw [memoryFreeEq (linksPrevious chunks.links) (proper q memberQ) (by unfold Apart; omega),onward]
  have behind : ∀ x ∈ l, x ∈ k ++ q::l := fun x there => List.mem_append_right _ (List.mem_cons_of_mem _ there)
  have fields : ∀ x ∈ k ++ q::l, nextOf (unlink m q (l.headD 0)) x = (if x = q then l.headD 0 else nextOf m x) ∧
      previousOf (unlink m q (l.headD 0)) x = (if x = l.headD 0 then q else previousOf m x) ∧
      sizeOf (unlink m q (l.headD 0)) x = sizeOf m x := fun x there =>
    unlinkFields ⟨qBound,dBound⟩ (proper x there) (apart x (old x there) q (old q memberQ))
      (inside.imp id fun next => apart x (old x there) _ (old _ (behind _ next)))
  have frame : ∀ b size, (∀ x ∈ k ++ q::l, b+size ≤ x ∨ x+24 ≤ b) → SameBytes m (unlink m q (l.headD 0)) b size :=
    fun b size away => unlinkOther (away q memberQ) (inside.imp id fun next => away _ (behind _ next))
  generalize unlink m q (l.headD 0) = m' at *
  have sizes : ∀ x ∈ k ++ q::l, sizeOf m' x = sizeOf m x := fun x there => (fields x there).2.2
  have links := linksRemove chunks.links (distinct.sublist part) proper (fun x there => (fields x there).1) fun x there => (fields x there).2.1
  refine ⟨⟨links,?_,?_,?_,fun x there => chunks.proper x (old x there)⟩,insertMembers,insertFresh distinct,sizes,frame⟩
  · refine (chunks.order.sublist part).imp_of_mem fun first _ h => ?_
    rwa [sizes _ first]
  · intro x there
    rw [sizes x there]
    exact chunks.sizes x (old x there)
  · intro x there
    rw [sizes x there]
    exact chunks.ends x (old x there)

theorem chunksGrow (chunks : Chunks m (k ++ [c])) (low : 0 ≤ bytes) (high : bytes < 2^31) (room : c + 24 + bytes ≤ 2^64) :
    Chunks (writeInt m (c + chunkSize) bytes) (k ++ [c]) ∧ sizeOf (writeInt m (c + chunkSize) bytes) c = bytes ∧
    (∀ x ∈ k, sizeOf (writeInt m (c + chunkSize) bytes) x = sizeOf m x) ∧
    ∀ b size, (∀ x ∈ k ++ [c], b+size ≤ x ∨ x+24 ≤ b) → SameBytes m (writeInt m (c + chunkSize) bytes) b size := by
  have member : c ∈ k ++ [c] := by simp
  have apart := apartOf (headersApart chunks)
  have fields := fun x there => @setSize m x c bytes (apart x there c member) low high
  have before := (List.pairwise_append.mp (headersApart chunks)).2.2
  have size : sizeOf (writeInt m (c + chunkSize) bytes) c = bytes := (fields c member).2.2.trans (if_pos rfl)
  have sizes : ∀ x ∈ k, sizeOf (writeInt m (c + chunkSize) bytes) x = sizeOf m x := by
    intro x there
    have first := before x there c List.mem_cons_self
    exact (fields x (List.mem_append_left _ there)).2.2.trans (if_neg (by omega))
  have frame : ∀ b size, (∀ x ∈ k ++ [c], b+size ≤ x ∨ x+24 ≤ b) → SameBytes m (writeInt m (c + chunkSize) bytes) b size := by
    intro b size away
    have := away c member
    unfold chunkSize
    exact writeIntOther m bytes (by omega)
  generalize writeInt m (c + chunkSize) bytes = m' at *
  refine ⟨⟨?_,?_,?_,?_,chunks.proper⟩,size,sizes,frame⟩
  · refine linksSame chunks.links (fun d head => ?_) (fun x there => (fields x there).1)
      fun x there => (fields x (List.mem_of_mem_tail there)).2.1
    refine (fields d (List.mem_of_head? head)).2.1.trans ?_
    cases k with
    | nil =>
      cases head
      exact chunks.links.1
    | cons a k =>
      cases head
      exact chunks.links.1
  · obtain ⟨front,back,between⟩ := List.pairwise_append.mp chunks.order
    refine List.pairwise_append.mpr ⟨front.imp_of_mem fun first _ h => ?_,List.pairwise_singleton _ c,fun x there y last => ?_⟩
    · rwa [sizes _ first]
    · rw [sizes x there]
      exact between x there y last
  · intro x there
    rcases List.mem_append.mp there with first | last
    · rw [sizes x first]
      exact chunks.sizes x there
    · rw [List.mem_singleton.mp last,size]
      exact low
  · intro x there
    rcases List.mem_append.mp there with first | last
    · rw [sizes x first]
      exact chunks.ends x there
    · rw [List.mem_singleton.mp last,size]
      exact room

/-! The search for a gap. -/

theorem fitsIff (chunks : Chunks m (k ++ c::l)) (low : 0 ≤ bytes) (high : bytes < 2^31) :
    Fits m c bytes ↔ ∀ d, l.head? = some d → c + 48 + sizeOf m c + bytes < d := by
  have onward := linksNext chunks.links
  unfold Fits
  rw [onward]
  cases l with
  | nil => exact ⟨fun _ => nofun,fun _ => Or.inl rfl⟩
  | cons d l =>
    have memberC : c ∈ k ++ c::d::l := by simp
    have memberD : d ∈ k ++ c::d::l := by simp
    have size := chunks.sizes c memberC
    have sizeD := chunks.sizes d memberD
    have ends := chunks.ends d memberD
    have proper := chunks.proper d memberD
    have gap := (List.pairwise_cons.mp (List.pairwise_append.mp chunks.order).2.1).1 d List.mem_cons_self
    have compare : (bytes+48).toNat < (d - (c + sizeOf m c)).toNat ↔ c + 48 + sizeOf m c + bytes < d := by
      clear ends high
      omega
    have need : (bytes + chunkBytes*2) % 2^64 = bytes + 48 := by
      unfold chunkBytes
      omega
    have room : ((d : Int) - (c + sizeOf m c)) % 2^64 = d - (c + sizeOf m c) := by omega
    rw [need,List.headD_cons,room,or_iff_right (Nat.ne_of_gt proper),compare]
    constructor
    · rintro fits e ⟨⟩
      exact fits
    · exact fun fits => fits d rfl

theorem allocateFromFits {fuel : Nat} {r : Memory × Nat} (chunks : Chunks m (k ++ c::l)) (low : 0 ≤ bytes) (high : bytes < 2^31)
    (result : allocateFrom fuel m c bytes = some r) : ∃ k' c' l', k ++ c::l = k' ++ c'::l' ∧
      (∀ d, l'.head? = some d → c' + 48 + sizeOf m c' + bytes < d) ∧ r = insertChunk m c' bytes := by
  induction fuel generalizing k c l with
  | zero => cases result
  | succ fuel ih =>
    have proper := chunks.proper c (by simp)
    have fitting := fitsIff chunks low high
    unfold allocateFrom at result
    rw [if_neg (by omega)] at result
    by_cases fits : Fits m c bytes
    · rw [if_pos fits] at result
      exact ⟨k,c,l,rfl,fitting.mp fits,(Option.some.inj result).symm⟩
    · rw [if_neg fits,linksNext chunks.links] at result
      cases l with
      | nil => exact absurd (fitting.mpr nofun) fits
      | cons d l =>
        have split : k ++ c::d::l = (k ++ [c]) ++ d::l := List.append_cons k c (d::l)
        rw [split] at chunks ⊢
        exact ih chunks result

theorem allocateFromReturns {fuel : Nat} (chunks : Chunks m (k ++ c::l)) (low : 0 ≤ bytes) (high : bytes < 2^31)
    (enough : l.length < fuel) : ∃ r, allocateFrom fuel m c bytes = some r := by
  induction fuel generalizing k c l with
  | zero => omega
  | succ fuel ih =>
    have proper := chunks.proper c (by simp)
    unfold allocateFrom
    rw [if_neg (by omega)]
    by_cases fits : Fits m c bytes
    · exact ⟨_,if_pos fits⟩
    · rw [if_neg fits,linksNext chunks.links]
      cases l with
      | nil => exact absurd ((fitsIff chunks low high).mpr nofun) fits
      | cons d l =>
        rw [List.append_cons] at chunks
        exact ih chunks (Nat.lt_of_succ_lt_succ enough)

theorem memoryCopySpec {source target old : Nat} {size : Int} (apart : source + old ≤ target ∨ target + size ≤ source) :
    (∀ b n, b+n ≤ target ∨ target + size.toNat ≤ b → SameBytes m (memoryCopy m source target size) b n) ∧
    ∀ i, i < old → i < size.toNat → memoryCopy m source target size (target+i) = m (source+i) := by
  have copied := @countRule Memory size.toNat (fun i m => Function.update m (target+i) (m (source+i))) m
    (fun j t => (∀ x, ¬ (target ≤ x ∧ x < target+j) → t x = m x) ∧ ∀ i, i < old → i < j → t (target+i) = m (source+i)) ?_ ?_
  · refine ⟨fun b n away x first last => copied.1 x (by omega),copied.2⟩
  · exact ⟨fun _ _ => rfl,fun i _ h => absurd h (Nat.not_lt_zero i)⟩
  · rintro j t inside ⟨others,done⟩
    refine ⟨fun x outside => ?_,fun i low high => ?_⟩
    · rw [Function.update_of_ne (by omega)]
      exact others x (by omega)
    · by_cases this : i = j
      · subst this
        rw [Function.update_self]
        exact others _ (by omega)
      · rw [Function.update_of_ne (by omega)]
        exact done i low (by omega)

end

end Kokos.Heap

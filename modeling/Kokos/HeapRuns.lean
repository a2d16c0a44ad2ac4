import Kokos.HeapChunks

/-! What holds over every run of the heap. -/
namespace Kokos.Heap
open ByteMemory TransitionRuns LinkedLists

structure Sound (root : Nat) (s : State) (all : List Nat) : Prop where
  chunks : Chunks s.memory all
  head : ∃ rest, all = root::rest
  rootSize : sizeOf s.memory root = 0
  live : ∀ p n, s.live p = some n ↔ ∃ c ∈ all, c ≠ root ∧ p = c + 24 ∧ sizeOf s.memory c = n

section
variable {root p q n size : Nat} {s s' : State} {all : List Nat}

theorem blockHeaders (sound : Sound root s all) (block : s.live p = some n) : ∀ x ∈ all, p+n ≤ x ∨ x+24 ≤ p := by
  obtain ⟨c,member,_,rfl,size⟩ := (sound.live p n).mp block
  intro x there
  have order : all.Pairwise fun c d => c + 24 + sizeOf s.memory c ≤ d := sound.chunks.order
  have apart : x = c ∨ (x + 24 + sizeOf s.memory x ≤ c ∨ c + 24 + sizeOf s.memory c ≤ x) := by
    have both := List.pairwise_iff_getElem.mp order
    obtain ⟨i,hi,rfl⟩ := List.getElem_of_mem member
    obtain ⟨j,hj,rfl⟩ := List.getElem_of_mem there
    rcases Nat.lt_trichotomy i j with less | rfl | more
    · exact Or.inr (Or.inr (both i j hi hj less))
    · exact Or.inl rfl
    · exact Or.inr (Or.inl (both j i hj hi more))
  have sizeX := sound.chunks.sizes x there
  omega

theorem blocksApart (sound : Sound root s all) (block : s.live p = some n) (block' : s.live q = some size) (other : p ≠ q) :
    p+n ≤ q ∨ q+size ≤ p := by
  obtain ⟨c,member,_,rfl,_⟩ := (sound.live p n).mp block
  obtain ⟨d,member',_,rfl,_⟩ := (sound.live q size).mp block'
  have first := blockHeaders sound block d member'
  have second := blockHeaders sound block' c member
  have apart := apartOf (headersApart sound.chunks) c member d member'
  unfold Apart at apart
  omega

theorem soundWrite {memory : Memory} (sound : Sound root s all) (inside : ∀ x, ¬ InBlock s x → memory x = s.memory x) :
    Sound root { s with memory := memory } all := by
  have same : ∀ c ∈ all, SameBytes s.memory memory c 24 := by
    intro c member x low high
    refine inside x fun block => ?_
    obtain ⟨p,n,live,first,last⟩ := block
    have := blockHeaders sound live c member
    omega
  have sizes : ∀ c ∈ all, sizeOf memory c = sizeOf s.memory c := fun c member => (fieldsSame (same c member)).2.2
  obtain ⟨rest,split⟩ := sound.head
  refine ⟨chunksSame sound.chunks same,sound.head,?_,fun p n => (sound.live p n).trans ?_⟩
  · have member : root ∈ all := split ▸ List.mem_cons_self
    exact (sizes root member).trans sound.rootSize
  · refine exists_congr fun c => and_congr_right fun member => ?_
    rw [sizes c member]

theorem liveUpdate {all' : List Nat} {memory : Memory} {c : Nat} {v : Option Nat} (sound : Sound root s all)
    (others : ∀ x, x ≠ c → (x ∈ all' ↔ x ∈ all)) (sizes : ∀ x ∈ all, x ≠ c → sizeOf memory x = sizeOf s.memory x)
    (this : ∀ n, v = some n ↔ c ∈ all' ∧ c ≠ root ∧ sizeOf memory c = n) :
    ∀ p n, Function.update s.live (c+24) v p = some n ↔ ∃ x ∈ all', x ≠ root ∧ p = x + 24 ∧ sizeOf memory x = n := by
  intro p n
  by_cases here : p = c+24
  · subst here
    rw [Function.update_self,this n]
    constructor
    · rintro ⟨member,proper,size⟩
      exact ⟨c,member,proper,rfl,size⟩
    · rintro ⟨x,member,proper,same,size⟩
      obtain rfl : c = x := by omega
      exact ⟨member,proper,size⟩
  · rw [Function.update_of_ne here,sound.live p n]
    refine exists_congr fun x => ?_
    constructor
    · rintro ⟨member,proper,rfl,size⟩
      have other : x ≠ c := fun h => here (h ▸ rfl)
      exact ⟨(others x other).mpr member,proper,rfl,(sizes x member other).trans size⟩
    · rintro ⟨member,proper,rfl,size⟩
      have other : x ≠ c := fun h => here (h ▸ rfl)
      have before := (others x other).mp member
      exact ⟨before,proper,rfl,(sizes x before other).symm.trans size⟩

theorem rootFirst (sound : Sound root s all) : root ∈ all ∧ ∀ x ∈ all, root ≤ x := by
  obtain ⟨rest,rfl⟩ := sound.head
  refine ⟨List.mem_cons_self,fun x member => ?_⟩
  rcases List.mem_cons.mp member with rfl | later
  · exact Nat.le_refl x
  · have := (List.pairwise_cons.mp (headersApart sound.chunks)).1 x later
    omega

theorem headKept {k l l' : List Nat} {c : Nat} (head : ∃ rest, k ++ c::l = root::rest) : ∃ rest, k ++ c::l' = root::rest := by
  obtain ⟨rest,split⟩ := head
  cases k with
  | nil =>
    cases split
    exact ⟨l',rfl⟩
  | cons a k =>
    cases split
    exact ⟨k ++ c::l',rfl⟩

theorem soundInsert {bytes : Int} {k l : List Nat} {c : Nat} {r : Memory × Nat} (sound : Sound root s all) (split : all = k ++ c::l)
    (fits : ∀ d, l.head? = some d → c + 48 + sizeOf s.memory c + bytes < d) (low : 0 ≤ bytes) (high : bytes < 2^31)
    (result : r = insertChunk s.memory c bytes) (room : r.2 + bytes ≤ 2^64) :
    (∃ all', Sound root { memory := r.1, live := Function.update s.live r.2 (some bytes.toNat) } all') ∧ s.live r.2 = none ∧
      ∀ p n, s.live p = some n → SameBytes s.memory r.1 p n := by
  subst split
  have member : c ∈ k ++ c::l := by simp
  have size := sound.chunks.sizes c member
  obtain ⟨n,place⟩ := Int.eq_ofNat_of_zero_le (a := c + 24 + sizeOf s.memory c) (by omega)
  have after : r.2 = n+24 := by
    rw [result,insertChunkEq place size low high (by have := sound.chunks.ends c member; omega)]
    rfl
  obtain ⟨chunks,_,fresh,sizeNew,sizes,frame⟩ := chunksInsert (n := n) sound.chunks place low high
    (fun d head => by have := fits d head; omega) (by omega)
  rw [← result] at chunks sizeNew sizes frame
  obtain ⟨first,least⟩ := rootFirst sound
  have proper : n ≠ root := fun h => fresh (h ▸ first)
  have sound' : Sound root { memory := r.1, live := Function.update s.live r.2 (some bytes.toNat) } (k ++ c::n::l) := by
    refine ⟨chunks,?_,(sizes root first).trans sound.rootSize,?_⟩
    · exact headKept sound.head
    · rw [after]
      refine liveUpdate sound (fun x other => ?_) (fun x there _ => sizes x there) fun j => ?_
      · rw [insertMembers,or_iff_right other]
      · have new : n ∈ k ++ c::n::l := by simp
        rw [and_iff_right new,and_iff_right proper,sizeNew,Option.some.injEq]
        omega
  have unused : s.live r.2 = none := by
    by_contra used
    obtain ⟨j,block⟩ := Option.ne_none_iff_exists'.mp used
    obtain ⟨x,there,_,same,_⟩ := (sound.live _ j).mp block
    exact fresh ((show n = x by omega) ▸ there)
  refine ⟨⟨_,sound'⟩,unused,fun p j block => frame p j (blockHeaders sound' ?_)⟩
  have other : p ≠ r.2 := by
    rintro rfl
    rw [unused] at block
    cases block
  exact (Function.update_of_ne other _ _).trans block

theorem liveSplit (sound : Sound root s all) (block : s.live p = some n) : ∃ k q c l, all = k ++ q::c::l ∧ p = c + chunkBytes ∧
    c ≠ root ∧ sizeOf s.memory c = n := by
  obtain ⟨c,member,proper,rfl,size⟩ := (sound.live p n).mp block
  obtain ⟨rest,rfl⟩ := sound.head
  obtain ⟨k,l,rfl⟩ := List.append_of_mem ((List.mem_cons.mp member).resolve_left proper)
  rcases List.eq_nil_or_concat k with rfl | ⟨k,q,rfl⟩
  · exact ⟨[],root,c,l,rfl,rfl,proper,size⟩
  · exact ⟨root::k,q,c,l,by simp,rfl,proper,size⟩

theorem soundFree (sound : Sound root s all) (block : s.live p = some n) :
    (∃ all', Sound root { memory := memoryFree s.memory p, live := Function.update s.live p none } all') ∧
      ∀ q j, q ≠ p → s.live q = some j → SameBytes s.memory (memoryFree s.memory p) q j := by
  obtain ⟨k,q,c,l,rfl,rfl,proper,_⟩ := liveSplit sound block
  obtain ⟨chunks,members,fresh,sizes,frame⟩ := chunksRemove sound.chunks
  obtain ⟨first,_⟩ := rootFirst sound
  have firstLeft : root ∈ k ++ q::l := ((members root).mp first).resolve_left proper.symm
  refine ⟨⟨k ++ q::l,chunks,?_,(sizes root firstLeft).trans sound.rootSize,?_⟩,fun b j _ live => ?_⟩
  · exact headKept sound.head
  · refine liveUpdate sound (fun x other => ?_) (fun x there other => ?_) fun j => ?_
    · rw [members,or_iff_right other]
    · exact sizes x (((members x).mp there).resolve_left other)
    · exact ⟨nofun,fun h => absurd h.1 fresh⟩
  · exact frame b j fun x there => blockHeaders sound live x ((members x).mpr (Or.inr there))

theorem alignBounds {bytes : Int} (request : Request bytes) : Request (alignToNext bytes) ∧ bytes ≤ alignToNext bytes ∧
    alignToNext bytes < 2^31 ∧ alignToNext (alignToNext bytes) = alignToNext bytes := by
  have value := alignValue request
  have again : Request (alignToNext bytes) := by
    unfold Request at request ⊢
    omega
  unfold Request at request
  refine ⟨again,by omega,by omega,?_⟩
  rw [alignValue again]
  omega

theorem soundAllocate {fuel : Nat} {bytes : Int} {r : Memory × Nat} (sound : Sound root s all) (request : Request bytes)
    (result : memoryAllocate fuel root s.memory bytes = some r) (room : r.2 + alignToNext bytes ≤ 2^64) :
    (∃ all', Sound root { memory := r.1, live := Function.update s.live r.2 (some (alignToNext bytes).toNat) } all') ∧
      s.live r.2 = none ∧ ∀ p n, s.live p = some n → SameBytes s.memory r.1 p n := by
  obtain ⟨⟨low,_⟩,_,high,_⟩ := alignBounds request
  obtain ⟨rest,rfl⟩ := sound.head
  have chunks : Chunks s.memory ([] ++ root::rest) := sound.chunks
  obtain ⟨k,c,l,split,fits,inserted⟩ := allocateFromFits chunks low high result
  exact soundInsert sound split fits low high inserted room

theorem allocateReturns {bytes : Int} (sound : Sound root s all) (request : Request bytes) :
    ∃ fuel r, memoryAllocate fuel root s.memory bytes = some r := by
  obtain ⟨⟨low,_⟩,_,high,_⟩ := alignBounds request
  obtain ⟨rest,rfl⟩ := sound.head
  have chunks : Chunks s.memory ([] ++ root::rest) := sound.chunks
  exact ⟨_,allocateFromReturns chunks low high (Nat.lt_succ_self _)⟩

theorem soundGrow {bytes : Int} {k : List Nat} {c : Nat} (sound : Sound root s (k ++ [c])) (proper : c ≠ root)
    (low : 0 ≤ bytes) (high : bytes < 2^31) (room : c + 24 + bytes ≤ 2^64) :
    Sound root { memory := writeInt s.memory (c + chunkSize) bytes, live := Function.update s.live (c+24) (some bytes.toNat) } (k ++ [c]) ∧
      ∀ p n, s.live p = some n → SameBytes s.memory (writeInt s.memory (c + chunkSize) bytes) p n := by
  obtain ⟨chunks,size,sizes,frame⟩ := chunksGrow sound.chunks low high room
  have member : c ∈ k ++ [c] := by simp
  have others : ∀ x ∈ k ++ [c], x ≠ c → x ∈ k := fun x there other =>
    (List.mem_append.mp there).resolve_right fun last => other (List.mem_singleton.mp last)
  obtain ⟨first,_⟩ := rootFirst sound
  refine ⟨⟨chunks,sound.head,(sizes root (others root first proper.symm)).trans sound.rootSize,?_⟩,fun p n live => ?_⟩
  · refine liveUpdate sound (fun _ _ => Iff.rfl) (fun x there other => sizes x (others x there other)) fun j => ?_
    rw [and_iff_right member,and_iff_right proper,size,Option.some.injEq]
    omega
  · exact frame p n (blockHeaders sound live)

theorem soundMove {bytes : Int} {m1 : Memory} (block : s.live p = some n) (low : 0 ≤ bytes)
    (made : ∃ all1, Sound root { memory := m1, live := Function.update s.live q (some bytes.toNat) } all1) (unused : s.live q = none)
    (same1 : ∀ p n, s.live p = some n → SameBytes s.memory m1 p n) :
    (∃ all', Sound root { memory := memoryFree (memoryCopy m1 p q bytes) p
                          live := Function.update (Function.update s.live p none) q (some bytes.toNat) } all') ∧
      (∀ b j, b ≠ p → s.live b = some j → b ≠ q ∧ SameBytes s.memory (memoryFree (memoryCopy m1 p q bytes) p) b j) ∧
      ∀ i, i < n → i < bytes.toNat → memoryFree (memoryCopy m1 p q bytes) p (q+i) = s.memory (p+i) := by
  obtain ⟨all1,sound1⟩ := made
  have different : ∀ b j, s.live b = some j → b ≠ q := by
    rintro b j live rfl
    rw [unused] at live
    cases live
  have live1 : ∀ b j, s.live b = some j → Function.update s.live q (some bytes.toNat) b = some j := fun b j live =>
    (Function.update_of_ne (different b j live) _ _).trans live
  have liveNew : Function.update s.live q (some bytes.toNat) q = some bytes.toNat := Function.update_self _ _ _
  -- The copy writes inside the new block only.
  have apart : ∀ b j, s.live b = some j → b+j ≤ q ∨ q+bytes.toNat ≤ b := fun b j live =>
    blocksApart sound1 (live1 b j live) liveNew (different b j live)
  obtain ⟨outside,copied⟩ := @memoryCopySpec m1 p q n bytes (by have := apart p n block; omega)
  have sound2 : Sound root { memory := memoryCopy m1 p q bytes, live := Function.update s.live q (some bytes.toNat) } all1 := by
    refine soundWrite sound1 fun x away => ?_
    have far : x < q ∨ q+bytes.toNat ≤ x := by
      by_contra inside
      exact away ⟨q,bytes.toNat,liveNew,by omega,by omega⟩
    exact outside x 1 (by omega) x (Nat.le_refl x) (Nat.lt_succ_self x)
  obtain ⟨⟨all3,sound3⟩,same3⟩ := soundFree sound2 (live1 p n block)
  refine ⟨⟨all3,?_⟩,fun b j other live => ⟨different b j live,?_⟩,fun i first second => ?_⟩
  · rw [Function.update_comm (different p n block)]
    exact sound3
  · have inside := outside b j (by have := apart b j live; omega)
    exact sameTrans (same1 b j live) (sameTrans inside (same3 b j other (live1 b j live)))
  · have kept := same3 q bytes.toNat (different p n block).symm liveNew (q+i) (by omega) (by omega)
    exact (kept.trans (copied i first second)).trans (same1 p n block (p+i) (by omega) (by omega))

theorem staysLast {k l : List Nat} {q c : Nat} (sound : Sound root s (k ++ q::c::l))
    (stays : nextOf s.memory c = 0 ∨ (nextOf s.memory c : Int) ≤ c + sizeOf s.memory c) : l = [] := by
  have split : k ++ q::c::l = (k ++ [q]) ++ c::l := List.append_cons k q (c::l)
  have onward := linksNext (split ▸ sound.chunks.links)
  cases l with
  | nil => rfl
  | cons d l =>
    have order := (List.pairwise_append.mp (split ▸ sound.chunks.order)).2.1
    have next := (List.pairwise_cons.mp order).1 d List.mem_cons_self
    have properD := sound.chunks.proper d (by simp)
    rw [onward,List.headD_cons] at stays
    omega

theorem soundResize {fuel : Nat} {bytes : Int} {m' : Memory} (sound : Sound root s all) (block : s.live p = some n) (request : Request bytes)
    (result : memoryResize fuel root s.memory p bytes = some (m',q)) (room : q + alignToNext bytes ≤ 2^64) :
    (∃ all', Sound root { memory := m'
                          live := Function.update (Function.update s.live p none) q (some (alignToNext bytes).toNat) } all') ∧
      (∀ b j, b ≠ p → s.live b = some j → b ≠ q ∧ SameBytes s.memory m' b j) ∧
      ∀ i, i < n → i < (alignToNext bytes).toNat → m' (q+i) = s.memory (p+i) := by
  obtain ⟨again,_,high,twice⟩ := alignBounds request
  obtain ⟨k,a,c,l,rfl,rfl,proper,size⟩ := liveSplit sound block
  have split : k ++ a::c::l = (k ++ [a]) ++ c::l := List.append_cons k a (c::l)
  unfold memoryResize at result
  simp only [Nat.add_sub_cancel] at result
  split at result
  · rename_i stays
    obtain ⟨rfl,rfl⟩ := Prod.mk.inj (Option.some.inj result)
    have last := staysLast sound stays
    subst last
    rw [split] at sound
    obtain ⟨sound',same⟩ := soundGrow sound proper again.1 high (by unfold chunkBytes at room; omega)
    refine ⟨⟨k ++ [a] ++ [c],?_⟩,fun b j other live => ⟨other,same b j live⟩,fun i first _ => ?_⟩
    · rw [Function.update_idem]
      exact sound'
    · exact same _ n block _ (by omega) (by omega)
  · obtain ⟨⟨m1,q1⟩,allocated,moved⟩ := Option.bind_eq_some_iff.mp result
    obtain ⟨rfl,rfl⟩ := Prod.mk.inj (Option.some.inj moved)
    have inserted := soundAllocate sound again allocated (by rw [twice]; exact room)
    rw [twice] at inserted
    exact soundMove block again.1 inserted.1 inserted.2.1 inserted.2.2

theorem resizeReturns {bytes : Int} (sound : Sound root s all) (request : Request bytes) (p : Nat) :
    ∃ fuel r, memoryResize fuel root s.memory p bytes = some r := by
  obtain ⟨fuel,r,allocated⟩ := allocateReturns sound (alignBounds request).1
  refine ⟨fuel,?_⟩
  unfold memoryResize
  dsimp only
  split
  · exact ⟨_,rfl⟩
  · exact ⟨_,by rw [allocated]; rfl⟩

theorem soundStart (started : Started root s) : Sound root s [root] where
  chunks :=
    { links := ⟨started.previous,started.next,trivial⟩
      order := List.pairwise_singleton _ root
      sizes := fun c member => by rw [List.mem_singleton.mp member,started.size]
      ends := fun c member => by
        have place := started.place.2
        unfold chunkBytes at place
        rw [List.mem_singleton.mp member,started.size]
        omega
      proper := fun c member => by
        rw [List.mem_singleton.mp member]
        exact started.place.1 }
  head := ⟨[],rfl⟩
  rootSize := started.size
  live p n := by
    rw [started.live p]
    constructor
    · nofun
    · rintro ⟨c,member,proper,_⟩
      exact absurd (List.mem_singleton.mp member) proper

theorem soundStep {e : Event} (sound : Sound root s all) (move : step root s e s') : ∃ all', Sound root s' all' := by
  cases e with
  | allocate bytes pointer =>
    obtain ⟨request,fuel,memory,result,room,rfl⟩ := move
    exact (soundAllocate sound request result room).1
  | free pointer =>
    obtain ⟨live,rfl⟩ := move
    obtain ⟨n,block⟩ := Option.ne_none_iff_exists'.mp live
    exact (soundFree sound block).1
  | resize pointer bytes newPointer =>
    obtain ⟨live,request,fuel,memory,result,room,rfl⟩ := move
    obtain ⟨n,block⟩ := Option.ne_none_iff_exists'.mp live
    exact (soundResize sound block request result room).1
  | write memory =>
    obtain ⟨inside,rfl⟩ := move
    exact ⟨all,soundWrite sound inside⟩

theorem soundRun {es : List Event} (run : (system root).Run es s) : ∃ all, Sound root s all :=
  invariant (I := fun s => ∃ all, Sound root s all) (fun _ started => ⟨[root],soundStart started⟩) (fun _ _ _ ⟨_,sound⟩ move => soundStep sound move) run

theorem contentsKept {e : Event} (sound : Sound root s all) (move : step root s e s') (call : ∀ memory, e ≠ .write memory)
    (block : s.live p = some n) (kept : e ≠ .free p) (put : ∀ bytes q, e ≠ .resize p bytes q) :
    s'.live p = some n ∧ SameBytes s.memory s'.memory p n := by
  cases e with
  | allocate bytes pointer =>
    obtain ⟨request,fuel,memory,result,room,rfl⟩ := move
    obtain ⟨_,unused,same⟩ := soundAllocate sound request result room
    have other : p ≠ pointer := by
      rintro rfl
      rw [unused] at block
      cases block
    exact ⟨(Function.update_of_ne other _ _).trans block,same p n block⟩
  | free pointer =>
    obtain ⟨live,rfl⟩ := move
    obtain ⟨k,freed⟩ := Option.ne_none_iff_exists'.mp live
    have other : p ≠ pointer := fun h => kept (h ▸ rfl)
    exact ⟨(Function.update_of_ne other _ _).trans block,(soundFree sound freed).2 p n other block⟩
  | resize pointer bytes newPointer =>
    obtain ⟨live,request,fuel,memory,result,room,rfl⟩ := move
    obtain ⟨k,resized⟩ := Option.ne_none_iff_exists'.mp live
    have other : p ≠ pointer := fun h => put bytes newPointer (h ▸ rfl)
    obtain ⟨apart,same⟩ := (soundResize sound resized request result room).2.1 p n other block
    refine ⟨?_,same⟩
    simp only [Function.update_of_ne apart,Function.update_of_ne other]
    exact block
  | write memory => exact absurd rfl (call memory)

theorem heapSound {es : List Event} (run : (system root).Run es s) :
    (∃ all, Chunks s.memory all ∧ all.head? = some root ∧ all.Pairwise (· < ·) ∧
      (∀ p n, s.live p = some n → p-24 ∈ all ∧ sizeOf s.memory (p-24) = n ∧ ∀ c ∈ all, p+n ≤ c ∨ c+24 ≤ p)) ∧
    (∀ p q n k, s.live p = some n → s.live q = some k → p ≠ q → p+n ≤ q ∨ q+k ≤ p) ∧
    (∀ e s', step root s e s' → (∀ memory, e ≠ .write memory) → ∀ p n, s.live p = some n → e ≠ .free p →
      (∀ bytes q, e ≠ .resize p bytes q) → s'.live p = some n ∧ ∀ x, p ≤ x → x < p+n → s'.memory x = s.memory x) ∧
    (∀ p bytes q s', step root s (.resize p bytes q) s' → ∃ n k, s.live p = some n ∧ s'.live q = some k ∧ bytes ≤ k ∧
      ∀ i, i < n → i < k → s'.memory (q+i) = s.memory (p+i)) ∧
    ∀ bytes, Request bytes → (∃ fuel r, memoryAllocate fuel root s.memory bytes = some r) ∧
      ∀ p, ∃ fuel r, memoryResize fuel root s.memory p bytes = some r := by
  obtain ⟨all,sound⟩ := soundRun run
  refine ⟨⟨all,sound.chunks,?_,?_,fun p n block => ?_⟩,?_,?_,?_,?_⟩
  · obtain ⟨rest,rfl⟩ := sound.head
    rfl
  · exact (headersApart sound.chunks).imp fun h => by omega
  · obtain ⟨c,member,_,rfl,size⟩ := (sound.live p n).mp block
    rw [Nat.add_sub_cancel]
    exact ⟨member,size,blockHeaders sound block⟩
  · exact fun p q n k block block' other => blocksApart sound block block' other
  · exact fun e s' move call p n block kept put => contentsKept sound move call block kept put
  · rintro p bytes q s' ⟨live,request,fuel,memory,result,room,rfl⟩
    obtain ⟨n,block⟩ := Option.ne_none_iff_exists'.mp live
    obtain ⟨again,more,_⟩ := alignBounds request
    refine ⟨n,(alignToNext bytes).toNat,block,Function.update_self _ _ _,by omega,?_⟩
    exact (soundResize sound block request result room).2.2
  · exact fun bytes request => ⟨allocateReturns sound request,resizeReturns sound request⟩

end

theorem startedZero : Started 0x200000 ⟨fun _ => 0,fun _ => none⟩ :=
  ⟨⟨by omega,by unfold chunkBytes; omega⟩,by decide +kernel,by decide +kernel,by decide +kernel,fun _ => rfl⟩

theorem twoBlocks : ∃ s, (system 0x200000).Run [.allocate 8 0x200050,.allocate 8 0x200030] s ∧ s.live 0x200030 = some 8 ∧
    s.live 0x200050 = some 8 ∧ nextOf s.memory (0x200030 - chunkBytes) = 0x200038 ∧
    ∃ memory, memoryResize 3 0x200000 (Function.update s.memory 0x200030 7) 0x200030 24 = some (memory,0x200070) := by
  have results : ((memoryAllocate 1 0x200000 (fun _ => 0) 8).bind fun first => (memoryAllocate 2 0x200000 first.1 8).bind fun second =>
      (memoryResize 3 0x200000 (Function.update second.1 0x200030 7) 0x200030 24).map fun third =>
        (first.2,second.2,nextOf second.1 0x200018,third.2)) = some (0x200030,0x200050,0x200038,0x200070) := by decide +kernel
  obtain ⟨⟨memory,pointer⟩,first,rest⟩ := Option.bind_eq_some_iff.mp results
  obtain ⟨⟨memory',pointer'⟩,second,rest⟩ := Option.bind_eq_some_iff.mp rest
  obtain ⟨⟨memory'',pointer''⟩,third,same⟩ := Option.map_eq_some_iff.mp rest
  simp only [Prod.mk.injEq] at same
  obtain ⟨rfl,rfl,next,rfl⟩ := same
  have request : Request 8 := ⟨by decide,by decide⟩
  have aligned : alignToNext 8 = 8 := by decide
  have run : (system 0x200000).Run [.allocate 8 0x200030] _ :=
    .step (.start startedZero) ⟨request,1,memory,first,by rw [aligned]; omega,rfl⟩
  have run' : (system 0x200000).Run [.allocate 8 0x200050,.allocate 8 0x200030] _ :=
    .step run ⟨request,2,memory',second,by rw [aligned]; omega,rfl⟩
  refine ⟨_,run',?_,?_,next,memory'',third⟩
  · simp only [aligned]
    rw [Function.update_of_ne (by decide),Function.update_self]
    rfl
  · simp only [aligned]
    rw [Function.update_self]
    rfl

theorem heapSoundMoved : ∃ written s moved s' all, written 0x200030 = 7 ∧
    (system 0x200000).Run [.write written,.allocate 8 0x200050,.allocate 8 0x200030] s ∧
    step 0x200000 s (.resize 0x200030 24 0x200070) moved ∧ moved.memory 0x200070 = 7 ∧
    step 0x200000 moved (.free 0x200050) s' ∧ s'.live 0x200070 = some 24 ∧ s'.live 0x200030 = none ∧ s'.live 0x200050 = none ∧
    Chunks s'.memory all ∧ 0x200058 ∈ all := by
  obtain ⟨s,two,live,live',_,memory,result⟩ := twoBlocks
  obtain ⟨written,same⟩ : ∃ written, written = Function.update s.memory 0x200030 7 := ⟨_,rfl⟩
  rw [← same] at result
  have seven : written 0x200030 = 7 := by rw [same,Function.update_self]
  have run : (system 0x200000).Run [.write written,.allocate 8 0x200050,.allocate 8 0x200030] ⟨written,s.live⟩ := by
    refine .step two ⟨fun x outside => ?_,rfl⟩
    rw [same]
    refine Function.update_of_ne ?_ _ _
    rintro rfl
    exact outside ⟨0x200030,8,live,by decide,by decide⟩
  have aligned : alignToNext 24 = 24 := by decide
  obtain ⟨moved,ends⟩ : ∃ moved : State, moved = ⟨memory,Function.update (Function.update s.live 0x200030 none) 0x200070 (some 24)⟩ :=
    ⟨_,rfl⟩
  have move : step 0x200000 ⟨written,s.live⟩ (.resize 0x200030 24 0x200070) moved := by
    refine ⟨by rw [live]; exact Option.some_ne_none 8,⟨by decide,by decide⟩,3,memory,result,by rw [aligned]; omega,?_⟩
    rw [aligned]
    exact ends
  have other : moved.live 0x200050 = some 8 := by
    rw [ends]
    dsimp only
    rw [Function.update_of_ne (by decide),Function.update_of_ne (by decide),live']
  obtain ⟨s',freed⟩ : ∃ s' : State, s' = ⟨memoryFree moved.memory 0x200050,Function.update moved.live 0x200050 none⟩ := ⟨_,rfl⟩
  have free : step 0x200000 moved (.free 0x200050) s' := ⟨by rw [other]; exact Option.some_ne_none 8,freed⟩
  have final : s'.live 0x200070 = some 24 ∧ s'.live 0x200030 = none ∧ s'.live 0x200050 = none := by
    rw [freed,ends]
    dsimp only
    refine ⟨?_,?_,Function.update_self _ _ _⟩
    · rw [Function.update_of_ne (by decide),Function.update_self]
    · rw [Function.update_of_ne (by decide),Function.update_of_ne (by decide),Function.update_self]
  have run' : (system 0x200000).Run [.free 0x200050,.resize 0x200030 24 0x200070,.write written,.allocate 8 0x200050,
      .allocate 8 0x200030] s' := .step (.step run move) free
  obtain ⟨_,_,_,resized,_⟩ := heapSound run
  obtain ⟨n,k,first,_,more,kept⟩ := resized _ _ _ _ move
  obtain rfl : 8 = n := Option.some.inj (live.symm.trans first)
  obtain ⟨⟨all,chunks,_,_,blocks⟩,_⟩ := heapSound run'
  refine ⟨written,_,moved,s',all,seven,run,move,?_,free,final.1,final.2.1,final.2.2,chunks,(blocks 0x200070 24 final.1).1⟩
  exact (kept 0 (by decide) (by omega)).trans seven

end Kokos.Heap

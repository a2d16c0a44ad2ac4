import Kokos.HeapRuns

/-! The bytes that memory_resize reads when it moves a block. -/
namespace Kokos.Heap
open ByteMemory CountedLoops TransitionRuns LinkedLists

structure Copying where
  memory : Memory
  reads : List Nat

def memoryCopyReads (m : Memory) (source target : Nat) (size : Int) : Copying :=
  countUp size.toNat (fun i s => ⟨Function.update s.memory (target+i) (s.memory (source+i)),(source+i)::s.reads⟩) ⟨m,[]⟩

structure Resized where
  memory : Memory
  pointer : Nat
  reads : List Nat

def memoryResizeReads (fuel memoryChunk : Nat) (m : Memory) (pointer : Nat) (bytes : Int) : Option Resized := do
  let bytes := alignToNext bytes
  let header := pointer - chunkBytes
  if nextOf m header = 0 ∨ (nextOf m header : Int) ≤ header + sizeOf m header then
    some ⟨writeInt m (header + chunkSize) bytes,pointer,[]⟩
  else
    let (m,newPointer) ← memoryAllocate fuel memoryChunk m bytes
    let copied := memoryCopyReads m pointer newPointer bytes
    some ⟨memoryFree copied.memory pointer,newPointer,copied.reads⟩

section
variable {root p n : Nat} {s : State} {all : List Nat} {bytes : Int}

theorem copyReads (m : Memory) (source target : Nat) (size : Int) :
    (memoryCopyReads m source target size).memory = memoryCopy m source target size ∧
    ∀ a, a ∈ (memoryCopyReads m source target size).reads ↔ source ≤ a ∧ a < source + size.toNat := by
  unfold memoryCopyReads memoryCopy
  induction size.toNat with
  | zero =>
    refine ⟨rfl,fun a => ?_⟩
    have nowhere : ¬ (source ≤ a ∧ a < source+0) := by omega
    exact iff_of_false List.not_mem_nil nowhere
  | succ k ih =>
    obtain ⟨same,reads⟩ := ih
    refine ⟨by simp only [countUp]; rw [same],fun a => ?_⟩
    have here : a = source+k ∨ source ≤ a ∧ a < source+k ↔ source ≤ a ∧ a < source+(k+1) := by omega
    simp only [countUp,List.mem_cons]
    rw [reads,here]

theorem resizeReads (fuel memoryChunk : Nat) (m : Memory) (pointer : Nat) (bytes : Int) :
    (memoryResizeReads fuel memoryChunk m pointer bytes).map (fun r => (r.memory,r.pointer)) =
      memoryResize fuel memoryChunk m pointer bytes := by
  unfold memoryResizeReads memoryResize
  dsimp only
  split
  · rfl
  · cases memoryAllocate fuel memoryChunk m (alignToNext bytes) with
    | none => rfl
    | some r => exact congrArg some (by rw [← (copyReads _ _ _ _).1])

structure CopiesInside (root : Nat) (m : Memory) (p n : Nat) (bytes : Int) : Prop where
  returns : ∃ fuel r, memoryResizeReads fuel root m p bytes = some r
  inside : ∀ fuel r, memoryResizeReads fuel root m p bytes = some r → ∀ a ∈ r.reads, p ≤ a ∧ a < p+n

theorem staysIff (sound : Sound root s all) (block : s.live p = some n) :
    nextOf s.memory (p - chunkBytes) = 0 ∨ (nextOf s.memory (p - chunkBytes) : Int) ≤ (p - chunkBytes : Nat) + sizeOf s.memory (p - chunkBytes) ↔
      nextOf s.memory (p - chunkBytes) = 0 := by
  obtain ⟨k,q,c,l,rfl,rfl,_,_⟩ := liveSplit sound block
  have split : k ++ q::c::l = (k ++ [q]) ++ c::l := List.append_cons k q (c::l)
  have onward := linksNext (split ▸ sound.chunks.links)
  rw [Nat.add_sub_cancel]
  refine ⟨fun stays => ?_,Or.inl⟩
  rw [onward,staysLast sound stays]
  rfl

theorem copiesSoundIff (sound : Sound root s all) (block : s.live p = some n) (request : Request bytes) :
    CopiesInside root s.memory p n bytes ↔ nextOf s.memory (p - chunkBytes) = 0 ∨ alignToNext bytes ≤ n := by
  have stays := staysIff sound block
  have low := (alignBounds request).1.1
  obtain ⟨fuel,r,returns⟩ := resizeReturns sound request p
  rw [← resizeReads] at returns
  obtain ⟨read,traced,_⟩ := Option.map_eq_some_iff.mp returns
  by_cases last : nextOf s.memory (p - chunkBytes) = 0
  · refine iff_of_true ⟨⟨fuel,read,traced⟩,fun fuel r result => ?_⟩ (Or.inl last)
    unfold memoryResizeReads at result
    dsimp only at result
    rw [if_pos (stays.mpr last)] at result
    rw [← Option.some.inj result]
    exact nofun
  · have reads : ∀ fuel r, memoryResizeReads fuel root s.memory p bytes = some r →
        ∀ a, a ∈ r.reads ↔ p ≤ a ∧ a < p + (alignToNext bytes).toNat := by
      intro fuel r result
      unfold memoryResizeReads at result
      dsimp only at result
      rw [if_neg (mt stays.mp last)] at result
      obtain ⟨_,_,moved⟩ := Option.bind_eq_some_iff.mp result
      rw [← Option.some.inj moved]
      exact (copyReads _ _ _ _).2
    rw [or_iff_right last]
    constructor
    · intro copies
      by_contra more
      have bound := copies.inside fuel read traced (p+n) ((reads fuel read traced _).mpr (by omega))
      omega
    · intro fits
      refine ⟨⟨fuel,read,traced⟩,fun fuel r result a member => ?_⟩
      have inside := (reads fuel r result a).mp member
      omega

theorem copiesInsideIff {es : List Event} (run : (system root).Run es s) (block : s.live p = some n) (request : Request bytes) :
    CopiesInside root s.memory p n bytes ↔ nextOf s.memory (p - chunkBytes) = 0 ∨ alignToNext bytes ≤ n := by
  obtain ⟨all,sound⟩ := soundRun run
  exact copiesSoundIff sound block request

end

theorem growthReadsHeader : ∃ es s, (system 0x200000).Run es s ∧ s.live 0x200030 = some 8 ∧ Request 24 ∧
    ¬ CopiesInside 0x200000 s.memory 0x200030 8 24 := by
  obtain ⟨s,run,live,_,next,_⟩ := twoBlocks
  have request : Request 24 := ⟨by decide,by decide⟩
  obtain ⟨all,sound⟩ := soundRun run
  refine ⟨_,s,run,live,request,fun copies => ?_⟩
  rcases (copiesSoundIff sound live request).mp copies with last | fits
  · rw [next] at last
    cases last
  · exact absurd fits (by decide)

theorem copiesInsideTwo : ∃ s, (system 0x200000).Run [.allocate 8 0x200050,.allocate 8 0x200030] s ∧ (CopiesInside 0x200000 s.memory 0x200030 8 24 ↔
    nextOf s.memory (0x200030 - chunkBytes) = 0 ∨ alignToNext 24 ≤ 8) := by
  obtain ⟨s,run,live,_⟩ := twoBlocks
  exact ⟨s,run,copiesInsideIff run live ⟨by decide,by decide⟩⟩

end Kokos.Heap

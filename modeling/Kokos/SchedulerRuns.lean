import Kokos.PointerRings
import Kokos.SchedulerSwitch

/-! Runs of the scheduler: processes run, are created and are put into the ring, and
the timer interrupts, in any order. scheduler_execute is three events, so that an
interrupt may come between them. Beside the machine the state records what the
results speak of: the pages of the processes, what each process was started with,
and the processor as it was when each was last preempted and when the last one was resumed. -/
namespace Kokos.Scheduler
open ByteMemory TransitionRuns PointerRings

structure State where
  machine : Machine
  created : List Nat
  ready : List Nat
  inserted : List Nat
  table : Nat → BitVec 64
  entrypoint : Nat → BitVec 64
  stack : Nat → BitVec 64
  last : Nat → Option Cpu
  resumed : Cpu

def Intact (m m' : Memory) (p : Nat) : Prop := SameBytes m m' p 32 ∧ SameBytes m m' (p+72) 112

inductive Event where
  | run (cpu : Cpu) (memory : Memory)
  | create (process : Nat) (level4 : BitVec 64)
  | finish (process : Nat) (stack entrypoint : BitVec 64)
  | insert (process : Nat)
  | interrupt (scratch : Register → BitVec 64)

def IsProcessPage (interruptStack p : Nat) : Prop := p % 4096 = 0 ∧ 0 < p ∧ p < 2^64 ∧ p+4096 ≠ interruptStack

def step (s : State) : Event → State → Prop
  | .run cpu memory, s' => (∀ p ∈ s.created, Intact s.machine.memory memory p) ∧
      s' = { s with machine := { s.machine with cpu := cpu, memory := memory } }
  | .create p level4, s' => IsProcessPage s.machine.interruptStack p ∧ p ∉ s.created ∧
      s' = { s with
        machine := { s.machine with
          memory := beginProcess s.machine.memory p s.machine.currentProcessId level4
          currentProcessId := s.machine.currentProcessId + 1 }
        created := p :: s.created
        table := Function.update s.table p level4 }
  | .finish p stack entrypoint, s' => p ∈ s.created ∧ p ∉ s.ready ∧
      s' = { s with
        machine := { s.machine with memory := finishProcess s.machine.memory p stack entrypoint }
        ready := p :: s.ready
        entrypoint := Function.update s.entrypoint p entrypoint
        stack := Function.update s.stack p stack }
  | .insert p, s' => p ∈ s.ready ∧ p ∉ s.inserted ∧
      s' = { s with machine := insertProcess s.machine p, inserted := p :: s.inserted }
  | .interrupt scratch, s' =>
      s' = { s with
        machine := schedulerInterrupt scratch s.machine
        last := Function.update s.last s.machine.currentProcess (some s.machine.cpu)
        resumed := (schedulerInterrupt scratch s.machine).cpu }

structure Started (dummy : Nat) (s : State) : Prop where
  page : IsProcessPage s.machine.interruptStack dummy
  stackPage : s.machine.interruptStack % 4096 = 0 ∧ 0 < s.machine.interruptStack
  dummyFields : ∃ m unused, SameBytes (dummyProcess m dummy unused (s.table dummy)) s.machine.memory dummy 32
  current : s.machine.currentProcess = dummy
  cr3 : s.machine.cr3 = s.table dummy
  created : s.created = [dummy]
  ready : s.ready = [dummy]
  inserted : s.inserted = [dummy]
  last : ∀ p, s.last p = none
  resumed : s.resumed = s.machine.cpu

def system (dummy : Nat) : System State Event := ⟨Started dummy,step⟩

def firstCpu (entrypoint stack : BitVec 64) : Cpu where
  registers _ := 0
  rip := entrypoint
  rsp := stack + 4096*8
  rflags := defaultRflags
  cs := 0
  ss := 0

def State.saved (s : State) (p : Nat) : Cpu := (s.last p).getD (firstCpu (s.entrypoint p) (s.stack p))

structure Sound (dummy : Nat) (s : State) (rest : List Nat) : Prop where
  stackPage : s.machine.interruptStack % 4096 = 0 ∧ 0 < s.machine.interruptStack
  pages : ∀ p ∈ s.created, IsProcessPage s.machine.interruptStack p
  ring : Ring (nextOf s.machine.memory) s.machine.currentProcess rest
  members : ∀ p, p ∈ s.machine.currentProcess::rest ↔ p ∈ s.inserted
  known : ∀ p ∈ s.ready, p ∈ s.created
  subset : ∀ p ∈ s.inserted, p ∈ s.ready
  tables : ∀ p ∈ s.created, loadWord s.machine.memory (p + processLevel4Table) = s.table p
  stored : ∀ p ∈ s.ready, p ≠ s.machine.currentProcess → Stored s.machine.memory p (s.saved p)
  cr3 : s.machine.cr3 = s.table s.machine.currentProcess
  preempted : ∀ p, s.last p ≠ none → p ∈ s.inserted
  first : dummy ∈ s.inserted
  behind : previousOf s.machine.memory dummy = dummy

section
variable {dummy : Nat} {s s' : State} {rest : List Nat}

theorem pagesApart {top p q : Nat} (hp : IsProcessPage top p) (hq : IsProcessPage top q) (other : p ≠ q) :
    Disjoint p 4096 q 4096 := by
  unfold IsProcessPage at hp hq
  unfold Disjoint
  omega

theorem stackApart {top p : Nat} (stackPage : top % 4096 = 0 ∧ 0 < top) (hp : IsProcessPage top p) :
    Disjoint p 4096 (top-128) 128 ∧ 128 ≤ top := by
  unfold IsProcessPage at hp
  unfold Disjoint
  omega

theorem nextSame {m m' : Memory} {p : Nat} (same : SameBytes m m' p 24) : nextOf m' p = nextOf m p := by
  unfold nextOf processNext
  exact readWordCongr fun x low high => same x (by omega) (by omega)

theorem previousSame {m m' : Memory} {p : Nat} (same : SameBytes m m' p 24) : previousOf m' p = previousOf m p := by
  unfold previousOf processPrevious
  exact readWordCongr fun x low high => same x (by omega) (by omega)

theorem inCreated (sound : Sound dummy s rest) {p : Nat} (member : p ∈ s.inserted) : p ∈ s.created :=
  sound.known p (sound.subset p member)

theorem soundKept (cpu : Cpu) {memory : Memory} (sound : Sound dummy s rest)
    (same : ∀ p ∈ s.created, Intact s.machine.memory memory p) :
    Sound dummy { s with machine := { s.machine with cpu := cpu, memory := memory } } rest := by
  have inRing : ∀ p ∈ s.machine.currentProcess::rest, p ∈ s.created :=
    fun p member => inCreated sound ((sound.members p).mp member)
  refine ⟨sound.stackPage,sound.pages,?_,sound.members,sound.known,sound.subset,?_,?_,sound.cr3,sound.preempted,sound.first,?_⟩
  · exact ringSame sound.ring fun p member => nextSame (sameInside (same p (inRing p member)).1 (by omega))
  · intro p member
    rw [loadCongr (same p member).1 (by unfold processLevel4Table; omega)]
    exact sound.tables p member
  · intro p member other
    exact storedSame (same p (sound.known p member)).2 (sound.stored p member other)
  · rw [previousSame (sameInside (same dummy (inCreated sound sound.first)).1 (by omega))]
    exact sound.behind

theorem finishOther {m : Memory} {p b size : Nat} {stack entrypoint : BitVec 64} (away : Disjoint b size (p+72) 112) :
    SameBytes m (finishProcess m p stack entrypoint) b size := by
  unfold Disjoint at away
  simp only [finishProcess,processSavedRflags,processSavedRegisters,processSavedStackPointer,processSavedInstructionPointer,
    savedLength]
  refine sameTrans ?_ (storeWordOther _ _ (by omega))
  refine sameTrans ?_ (storeWordOther _ _ (by omega))
  refine sameTrans ?_ (zeroBytesOther _ (by omega))
  exact storeWordOther m _ (by omega)

theorem finishStored (m : Memory) (p : Nat) (stack entrypoint : BitVec 64) :
    Stored (finishProcess m p stack entrypoint) p (firstCpu entrypoint stack) := by
  simp only [finishProcess,processSavedRflags,processSavedRegisters,processSavedStackPointer,processSavedInstructionPointer,
    savedLength]
  refine ⟨?_,loadStoreSame _ _ _,?_,?_⟩
  · show loadWord _ (p+72) = defaultRflags
    rw [loadStoreOther _ _ (by omega),loadStoreOther _ _ (by omega),
      loadCongr (a := p+72) (zeroBytesOther _ (by omega)) ⟨Nat.le_refl _,Nat.le_refl (p+72+8)⟩,loadStoreSame]
  · show loadWord _ (p+88) = stack + 4096*8
    rw [loadStoreOther _ _ (by omega),loadStoreSame]
  · have kept : ∀ m : Memory, SameBytes m (storeWord (storeWord m (p+88) (stack + 4096*8)) (p+80) entrypoint) (p+96) 88 :=
      fun m => sameTrans (storeWordOther m _ (by omega)) (storeWordOther _ _ (by omega))
    have zero : ∀ m : Memory, loadWords (zeroBytes m (p+96) 88) (p+96) 11 = List.replicate 11 0 :=
      fun m => loadWordsZero m ⟨Nat.le_refl _,Nat.le_refl _⟩
    exact (loadWordsCongr (kept _) ⟨Nat.le_refl _,Nat.le_refl _⟩).trans (zero _)

theorem beginOther {m : Memory} {p id b size : Nat} {level4 : BitVec 64} (away : Disjoint b size p 72) :
    SameBytes m (beginProcess m p id level4) b size := by
  unfold Disjoint at away
  simp only [beginProcess,writeContext,processId,processLevel4Table,processLevel3Table,processLevel2Table,processLevel1Table,
    processIndices]
  refine sameTrans ?_ (storeWordOther _ _ (by omega))
  refine sameTrans ?_ (storeWordOther _ _ (by omega))
  refine sameTrans ?_ (storeWordOther _ _ (by omega))
  refine sameTrans ?_ (storeWordOther _ _ (by omega))
  refine sameTrans ?_ (storeWordOther _ _ (by omega))
  exact storeWordOther m _ (by omega)

theorem contextTable (m : Memory) (p : Nat) (level4 : BitVec 64) :
    loadWord (writeContext m p level4) (p + processLevel4Table) = level4 := by
  simp only [writeContext,processLevel4Table,processLevel3Table,processLevel2Table,processLevel1Table,processIndices]
  rw [loadStoreOther _ _ (by omega),loadStoreOther _ _ (by omega),loadStoreOther _ _ (by omega),loadStoreOther _ _ (by omega),
    loadStoreSame]

theorem soundCreate {p : Nat} {level4 : BitVec 64} (sound : Sound dummy s rest) (move : step s (.create p level4) s') :
    Sound dummy s' rest := by
  obtain ⟨page,fresh,rfl⟩ := move
  have apart : ∀ q ∈ s.created, q ≠ p := fun q member h => fresh (h ▸ member)
  have old : ∀ q ∈ s.created, Intact s.machine.memory (beginProcess s.machine.memory p s.machine.currentProcessId level4) q := by
    intro q member
    have away := pagesApart (sound.pages q member) page (apart q member)
    unfold Disjoint at away
    exact ⟨beginOther (by unfold Disjoint; omega),beginOther (by unfold Disjoint; omega)⟩
  have kept := soundKept s.machine.cpu sound old
  refine ⟨kept.stackPage,?_,kept.ring,kept.members,fun q member => List.mem_cons_of_mem _ (kept.known q member),kept.subset,?_,
    kept.stored,?_,kept.preempted,kept.first,kept.behind⟩
  · intro q member
    rcases List.mem_cons.mp member with rfl | before
    · exact page
    · exact kept.pages q before
  · intro q member
    rcases List.mem_cons.mp member with rfl | before
    · simp only [Function.update_self]
      exact contextTable _ _ _
    · simp only [Function.update_of_ne (apart q before)]
      exact kept.tables q before
  · have current := inCreated sound ((sound.members _).mp List.mem_cons_self)
    simp only [Function.update_of_ne (apart _ current)]
    exact kept.cr3

theorem soundFinish {p : Nat} {stack entrypoint : BitVec 64} (sound : Sound dummy s rest)
    (move : step s (.finish p stack entrypoint) s') : Sound dummy s' rest := by
  obtain ⟨begun,fresh,rfl⟩ := move
  have apart : ∀ q ∈ s.ready, q ≠ p := fun q member h => fresh (h ▸ member)
  have lower : ∀ q ∈ s.created, SameBytes s.machine.memory (finishProcess s.machine.memory p stack entrypoint) q 32 := by
    intro q member
    have away := or_iff_not_imp_left.mpr (pagesApart (sound.pages q member) (sound.pages p begun))
    unfold Disjoint at away
    exact finishOther (by unfold Disjoint; omega)
  have inRing : ∀ q ∈ s.machine.currentProcess::rest, q ∈ s.created :=
    fun q member => inCreated sound ((sound.members q).mp member)
  refine ⟨sound.stackPage,sound.pages,?_,sound.members,?_,fun q member => List.mem_cons_of_mem _ (sound.subset q member),?_,?_,
    sound.cr3,sound.preempted,sound.first,?_⟩
  · exact ringSame sound.ring fun q member => nextSame (sameInside (lower q (inRing q member)) (by omega))
  · intro q member
    rcases List.mem_cons.mp member with rfl | before
    · exact begun
    · exact sound.known q before
  · intro q member
    rw [loadCongr (lower q member) (by unfold processLevel4Table; omega)]
    exact sound.tables q member
  · intro q member other
    rcases List.mem_cons.mp member with rfl | before
    · -- The new process was never preempted, since it is not in the ring.
      have never : s.last q = none := by
        by_contra ran
        exact fresh (sound.subset q (sound.preempted q ran))
      simp only [State.saved,never,Function.update_self,Option.getD_none]
      exact finishStored s.machine.memory q stack entrypoint
    · have stored := sound.stored q before other
      have away := pagesApart (sound.pages q (sound.known q before)) (sound.pages p begun) (apart q before)
      unfold Disjoint at away
      simp only [State.saved,Function.update_of_ne (apart q before)] at stored ⊢
      exact storedSame (finishOther (by unfold Disjoint; omega)) stored
  · rw [previousSame (sameInside (lower dummy (inCreated sound sound.first)) (by omega))]
    exact sound.behind

theorem readStoreOther (m : Memory) {a b : Nat} (v : BitVec 64) (apart : b+8 ≤ a ∨ a+8 ≤ b) :
    readWord (storeWord m a v) b = readWord m b := readWriteOther m v.toNat apart

theorem readStoreSame (m : Memory) (a : Nat) {v : Nat} (bound : v < 2^64) : readWord (storeWord m a (BitVec.ofNat 64 v)) a = v := by
  unfold storeWord
  rw [BitVec.toNat_ofNat,Nat.mod_eq_of_lt bound]
  exact readWriteSame m a bound

theorem insertSpec {p : Nat} (hp : IsProcessPage s.machine.interruptStack p)
    (hc : IsProcessPage s.machine.interruptStack s.machine.currentProcess) (other : s.machine.currentProcess ≠ p) :
    let m := (insertProcess s.machine p).memory
    insertProcess s.machine p = { s.machine with memory := m } ∧ nextOf m s.machine.currentProcess = p ∧
    nextOf m p = nextOf s.machine.memory s.machine.currentProcess ∧ previousOf m p = s.machine.currentProcess ∧
    (∀ q, IsProcessPage s.machine.interruptStack q → SameBytes s.machine.memory m (q+24) 160) ∧
    (∀ q, IsProcessPage s.machine.interruptStack q → q ≠ s.machine.currentProcess → q ≠ p →
      nextOf m q = nextOf s.machine.memory q) ∧
    ∀ q, IsProcessPage s.machine.interruptStack q → q ≠ p → previousOf m q = previousOf s.machine.memory q := by
  have call : insertProcess s.machine p = { s.machine with memory := (insertProcess s.machine p).memory } := by
    unfold insertProcess
    rw [if_pos (by have := hc.2.1; omega)]
  have memory : (insertProcess s.machine p).memory =
      storeWord (storeWord (storeWord s.machine.memory (p+8) (loadWord s.machine.memory (s.machine.currentProcess+8))) (p+16)
        (BitVec.ofNat 64 s.machine.currentProcess)) (s.machine.currentProcess+8) (BitVec.ofNat 64 p) := by
    unfold insertProcess
    rw [if_pos (by have := hc.2.1; omega)]
    rfl
  intro m
  change m = _ at memory
  generalize s.machine.currentProcess = c at *
  unfold IsProcessPage at hp hc
  have apart : ∀ q, IsProcessPage s.machine.interruptStack q → ∀ r, IsProcessPage s.machine.interruptStack r → q ≠ r →
      q+4096 ≤ r ∨ r+4096 ≤ q := fun q hq r hr different => pagesApart hq hr different
  have between := apart c hc p hp other
  refine ⟨call,?_,?_,?_,?_,?_,?_⟩
  · rw [memory]
    exact readStoreSame _ _ hp.2.2.1
  · unfold nextOf processNext
    rw [memory,readStoreOther _ _ (by omega),readStoreOther _ _ (by omega)]
    unfold storeWord loadWord
    rw [BitVec.toNat_ofNat,Nat.mod_eq_of_lt (readWordBound _ _)]
    exact readWriteSame _ _ (readWordBound _ _)
  · unfold previousOf processPrevious
    rw [memory,readStoreOther _ _ (by omega)]
    exact readStoreSame _ _ hc.2.2.1
  · intro q hq
    have left : q = c ∨ q+4096 ≤ c ∨ c+4096 ≤ q := or_iff_not_imp_left.mpr (apart q hq c hc)
    have right : q = p ∨ q+4096 ≤ p ∨ p+4096 ≤ q := or_iff_not_imp_left.mpr (apart q hq p hp)
    rw [memory]
    refine sameTrans ?_ (storeWordOther _ _ (by omega))
    refine sameTrans ?_ (storeWordOther _ _ (by omega))
    exact storeWordOther _ _ (by omega)
  · intro q hq left right
    have left := apart q hq c hc left
    have right := apart q hq p hp right
    unfold nextOf processNext
    rw [memory,readStoreOther _ _ (by omega),readStoreOther _ _ (by omega),readStoreOther _ _ (by omega)]
  · intro q hq right
    have left : q = c ∨ q+4096 ≤ c ∨ c+4096 ≤ q := or_iff_not_imp_left.mpr (apart q hq c hc)
    have right := apart q hq p hp right
    unfold previousOf processPrevious
    rw [memory,readStoreOther _ _ (by omega),readStoreOther _ _ (by omega),readStoreOther _ _ (by omega)]

theorem soundInsert {p : Nat} (sound : Sound dummy s rest) (move : step s (.insert p) s') : Sound dummy s' (p::rest) ∧
    s'.machine.currentProcess = s.machine.currentProcess := by
  obtain ⟨made,fresh,rfl⟩ := move
  have inRing := sound.members
  have current := inCreated sound ((inRing _).mp List.mem_cons_self)
  have hp := sound.pages p (sound.known p made)
  have hc := sound.pages _ current
  have other : s.machine.currentProcess ≠ p := fun h => fresh (h ▸ (inRing _).mp List.mem_cons_self)
  obtain ⟨call,here,onward,_,fields,nexts,previouses⟩ := insertSpec hp hc other
  generalize (insertProcess s.machine p).memory = m at *
  rw [call]
  have page : ∀ q ∈ s.machine.currentProcess::rest, IsProcessPage s.machine.interruptStack q :=
    fun q member => sound.pages q (inCreated sound ((inRing q).mp member))
  have outside : p ∉ s.machine.currentProcess::rest := fun member => fresh ((inRing p).mp member)
  refine ⟨⟨sound.stackPage,sound.pages,?_,?_,sound.known,?_,?_,?_,sound.cr3,?_,List.mem_cons_of_mem _ sound.first,?_⟩,rfl⟩
  · refine ringInsert sound.ring outside here onward fun q member => ?_
    have apart := (List.nodup_cons.mp sound.ring.distinct).1
    refine nexts q (page q (List.mem_cons_of_mem _ member)) (fun h => apart (h ▸ member)) fun h => ?_
    exact outside (h ▸ List.mem_cons_of_mem _ member)
  · intro q
    have old := inRing q
    simp only [List.mem_cons] at old ⊢
    rw [or_left_comm,old]
  · intro q member
    rcases List.mem_cons.mp member with rfl | before
    · exact made
    · exact sound.subset q before
  · intro q member
    rw [loadCongr (fields q (sound.pages q member)) (by unfold processLevel4Table; omega)]
    exact sound.tables q member
  · intro q member away
    exact storedSame (sameInside (fields q (sound.pages q (sound.known q member))) (by omega)) (sound.stored q member away)
  · exact fun q ran => List.mem_cons_of_mem _ (sound.preempted q ran)
  · have apart : dummy ≠ p := fun h => fresh (h ▸ sound.first)
    exact (previouses dummy (sound.pages dummy (inCreated sound sound.first)) apart).trans sound.behind

theorem preemptedAfter (c : Cpu) (sound : Sound dummy s rest) :
    ∀ p, Function.update s.last s.machine.currentProcess (some c) p ≠ none → p ∈ s.inserted := by
  intro p ran
  by_cases this : p = s.machine.currentProcess
  · rw [this]
    exact (sound.members _).mp List.mem_cons_self
  · rw [Function.update_of_ne this] at ran
    exact sound.preempted p ran

theorem interruptAlone {scratch : Register → BitVec 64} (sound : Sound dummy s []) (move : step s (.interrupt scratch) s') :
    Sound dummy s' [] ∧ s'.machine.currentProcess = s.machine.currentProcess ∧ Resumes s.machine.cpu s'.machine.cpu ∧
    ∀ r ∈ upperRegisters, s'.machine.cpu.registers r = s.machine.cpu.registers r := by
  have current := (sound.members _).mp List.mem_cons_self
  have page := sound.pages _ (inCreated sound current)
  obtain ⟨apart,room⟩ := stackApart sound.stackPage page
  unfold Disjoint at apart
  obtain ⟨resumes,upper,same,cr3,top,id,rest⟩ := @interruptStays s.machine scratch room sound.ring.closed (by unfold Disjoint; omega)
  cases move
  have machine : schedulerInterrupt scratch s.machine = { s.machine with
      cpu := (schedulerInterrupt scratch s.machine).cpu
      memory := (schedulerInterrupt scratch s.machine).memory } := by
    generalize schedulerInterrupt scratch s.machine = after at *
    cases after
    simp_all
  have kept := soundKept (schedulerInterrupt scratch s.machine).cpu sound fun p member => by
    have away := rest p 4096 (stackApart sound.stackPage (sound.pages p member)).1
    exact ⟨sameInside away (by omega),sameInside away (by omega)⟩
  rw [← machine] at kept
  refine ⟨⟨kept.stackPage,kept.pages,kept.ring,kept.members,kept.known,kept.subset,kept.tables,?_,kept.cr3,?_,kept.first,kept.behind⟩,
    same,resumes,upper⟩
  · intro p member away
    have apart : p ≠ s.machine.currentProcess := fun h => away (h.trans same.symm)
    have stored := kept.stored p member away
    simp only [State.saved,Function.update_of_ne apart] at stored ⊢
    exact stored
  · have after := preemptedAfter s.machine.cpu sound
    exact after

theorem interruptTurn {scratch : Register → BitVec 64} {d : Nat} (sound : Sound dummy s (d::rest))
    (move : step s (.interrupt scratch) s') : Sound dummy s' (rest ++ [s.machine.currentProcess]) ∧
    s'.machine.currentProcess = d ∧ Resumes (s.saved d) s'.machine.cpu ∧ s'.last d = s.last d ∧
    ∀ r ∈ upperRegisters, s'.machine.cpu.registers r = s.machine.cpu.registers r := by
  have current := (sound.members _).mp List.mem_cons_self
  have onward := (sound.members d).mp (List.mem_cons_of_mem _ List.mem_cons_self)
  have other : s.machine.currentProcess ≠ d := fun h =>
    (List.nodup_cons.mp sound.ring.distinct).1 (h ▸ List.mem_cons_self)
  have page := sound.pages _ (inCreated sound current)
  have page' := sound.pages _ (inCreated sound onward)
  have between := pagesApart page page' other
  obtain ⟨apart,room⟩ := stackApart sound.stackPage page
  obtain ⟨apart',_⟩ := stackApart sound.stackPage page'
  have stored := sound.stored d (sound.subset d onward) other.symm
  unfold Disjoint at apart apart' between
  obtain ⟨resumes,upper,turned,cr3,top,_,saved,rest'⟩ := @interruptSwitches s.machine scratch (s.saved d) d room sound.ring.closed.1
    other stored (by unfold Disjoint; omega) (by unfold Disjoint; omega) (by unfold Disjoint; omega)
  cases move
  have lower : ∀ p ∈ s.created, SameBytes s.machine.memory (schedulerInterrupt scratch s.machine).memory p 72 := by
    intro p member
    have away := (stackApart sound.stackPage (sound.pages p member)).1
    have far := or_iff_not_imp_left.mpr (pagesApart (sound.pages p member) page)
    unfold Disjoint at away far
    exact rest' p 72 (by unfold Disjoint; omega) (by unfold Disjoint; omega)
  have inRing : ∀ p ∈ s.machine.currentProcess::d::rest, p ∈ s.created :=
    fun p member => inCreated sound ((sound.members p).mp member)
  refine ⟨⟨?_,?_,?_,?_,sound.known,sound.subset,?_,?_,?_,?_,sound.first,?_⟩,turned,resumes,Function.update_of_ne other.symm _ _,upper⟩
  · rw [top]
    exact sound.stackPage
  · rw [top]
    exact sound.pages
  · rw [turned]
    exact ringTurn (ringSame sound.ring fun p member => nextSame (sameInside (lower p (inRing p member)) (by omega)))
  · intro p
    rw [turned,← sound.members p]
    simp only [List.mem_cons,List.mem_append,List.not_mem_nil,or_false]
    rw [← or_assoc,or_comm]
  · intro p member
    rw [loadCongr (lower p member) (by unfold processLevel4Table; omega)]
    exact sound.tables p member
  · intro p member away
    rw [turned] at away
    by_cases this : p = s.machine.currentProcess
    · subst this
      simp only [State.saved,Function.update_self,Option.getD_some]
      exact saved
    · have before := sound.stored p member this
      simp only [State.saved,Function.update_of_ne this] at before ⊢
      have clear := (stackApart sound.stackPage (sound.pages p (sound.known p member))).1
      have far := pagesApart (sound.pages p (sound.known p member)) page this
      unfold Disjoint at clear far
      exact storedSame (rest' (p+72) 112 (by unfold Disjoint; omega) (by unfold Disjoint; omega)) before
  · rw [turned,cr3]
    exact sound.tables d (inCreated sound onward)
  · have after := preemptedAfter s.machine.cpu sound
    exact after
  · rw [previousSame (sameInside (lower dummy (inCreated sound sound.first)) (by omega))]
    exact sound.behind

theorem soundStart (started : Started dummy s) : Sound dummy s [] := by
  obtain ⟨m,unused,same⟩ := started.dummyFields
  have page := started.page
  have bound := page.2.2.1
  have nextWord : nextOf s.machine.memory dummy = dummy := by
    rw [nextSame (sameInside same (by omega))]
    simp only [nextOf,dummyProcess,writeContext,processSavedInstructionPointer,processSavedStackPointer,processId,processNext,
      processPrevious,processLevel4Table,processLevel3Table,processLevel2Table,processLevel1Table,processIndices]
    rw [readStoreOther _ _ (by omega),readStoreOther _ _ (by omega),readStoreOther _ _ (by omega),readStoreOther _ _ (by omega),
      readStoreOther _ _ (by omega),readStoreOther _ _ (by omega)]
    exact readStoreSame _ _ bound
  have previousWord : previousOf s.machine.memory dummy = dummy := by
    rw [previousSame (sameInside same (by omega))]
    simp only [previousOf,dummyProcess,writeContext,processSavedInstructionPointer,processSavedStackPointer,processId,processNext,
      processPrevious,processLevel4Table,processLevel3Table,processLevel2Table,processLevel1Table,processIndices]
    rw [readStoreOther _ _ (by omega),readStoreOther _ _ (by omega),readStoreOther _ _ (by omega),readStoreOther _ _ (by omega),
      readStoreOther _ _ (by omega)]
    exact readStoreSame _ _ bound
  have tableWord : loadWord s.machine.memory (dummy + processLevel4Table) = s.table dummy := by
    rw [loadCongr same (by unfold processLevel4Table; omega)]
    exact contextTable _ _ _
  refine ⟨started.stackPage,?_,?_,?_,?_,?_,?_,?_,?_,?_,?_,previousWord⟩
  · intro p member
    rw [started.created,List.mem_singleton] at member
    exact member ▸ page
  · rw [started.current]
    exact ⟨nextWord,List.nodup_singleton dummy⟩
  · intro p
    rw [started.current,started.inserted]
  · intro p member
    rwa [started.created,← started.ready]
  · intro p member
    rwa [started.ready,← started.inserted]
  · intro p member
    rw [started.created,List.mem_singleton] at member
    exact member ▸ tableWord
  · intro p member other
    rw [started.ready,List.mem_singleton,← started.current] at member
    exact absurd member other
  · rw [started.current]
    exact started.cr3
  · exact fun p ran => absurd (started.last p) ran
  · rw [started.inserted]
    exact List.mem_cons_self

theorem soundQuiet {e : Event} (sound : Sound dummy s rest) (move : step s e s') (insertless : ∀ p, e ≠ .insert p)
    (calm : ∀ scratch, e ≠ .interrupt scratch) : Sound dummy s' rest ∧
      s'.machine.currentProcess = s.machine.currentProcess ∧ s'.inserted = s.inserted := by
  cases e with
  | run cpu memory =>
    obtain ⟨same,rfl⟩ := move
    exact ⟨soundKept cpu sound same,rfl,rfl⟩
  | create p level4 =>
    have kept := soundCreate sound move
    obtain ⟨_,_,rfl⟩ := move
    exact ⟨kept,rfl,rfl⟩
  | finish p stack entrypoint =>
    have kept := soundFinish sound move
    obtain ⟨_,_,rfl⟩ := move
    exact ⟨kept,rfl,rfl⟩
  | insert p => exact absurd rfl (insertless p)
  | interrupt scratch => exact absurd rfl (calm scratch)

theorem soundInterrupt {scratch : Register → BitVec 64} (sound : Sound dummy s rest) (move : step s (.interrupt scratch) s') :
    ∃ rest', Sound dummy s' rest' ∧
      s'.machine.currentProcess::rest' = (s.machine.currentProcess::rest).rotate 1 ∧ s'.inserted = s.inserted := by
  cases rest with
  | nil =>
    obtain ⟨kept,same,_⟩ := interruptAlone sound move
    cases move
    exact ⟨[],kept,by rw [same,List.rotate_singleton],rfl⟩
  | cons d rest =>
    obtain ⟨kept,turned,_⟩ := interruptTurn sound move
    cases move
    refine ⟨_,kept,?_,rfl⟩
    rw [turned,List.rotate_cons_succ,List.rotate_zero,List.cons_append]

theorem soundStep {e : Event} (sound : Sound dummy s rest) (move : step s e s') :
    (∃ rest', Sound dummy s' rest') ∧ ∀ p, p ∈ s'.inserted ↔ e = .insert p ∨ p ∈ s.inserted := by
  have others : s'.inserted = s.inserted → (∀ p, e ≠ .insert p) → ∀ p, p ∈ s'.inserted ↔ e = .insert p ∨ p ∈ s.inserted :=
    fun same insertless p => by rw [same,or_iff_right (insertless p)]
  cases e with
  | run cpu memory =>
    obtain ⟨kept,_,same⟩ := soundQuiet sound move (fun _ => nofun) fun _ => nofun
    exact ⟨⟨_,kept⟩,others same fun _ => nofun⟩
  | create p level4 =>
    obtain ⟨kept,_,same⟩ := soundQuiet sound move (fun _ => nofun) fun _ => nofun
    exact ⟨⟨_,kept⟩,others same fun _ => nofun⟩
  | finish p stack entrypoint =>
    obtain ⟨kept,_,same⟩ := soundQuiet sound move (fun _ => nofun) fun _ => nofun
    exact ⟨⟨_,kept⟩,others same fun _ => nofun⟩
  | insert q =>
    obtain ⟨kept,_⟩ := soundInsert sound move
    obtain ⟨_,_,rfl⟩ := move
    refine ⟨⟨_,kept⟩,fun p => ?_⟩
    simp only [List.mem_cons,Event.insert.injEq,eq_comm]
  | interrupt scratch =>
    obtain ⟨rest',kept,_,same⟩ := soundInterrupt sound move
    exact ⟨⟨rest',kept⟩,others same fun _ => nofun⟩

theorem soundRun {es : List Event} (run : (system dummy).Run es s) :
    (∃ rest, Sound dummy s rest) ∧ ∀ p, p ∈ s.inserted ↔ p = dummy ∨ .insert p ∈ es := by
  induction run with
  | start started =>
    refine ⟨⟨[],soundStart started⟩,fun p => ?_⟩
    rw [started.inserted]
    simp
  | step before move ih =>
    obtain ⟨⟨rest,sound⟩,members⟩ := ih
    obtain ⟨kept,more⟩ := soundStep sound move
    refine ⟨kept,fun p => ?_⟩
    rw [more p,members p,List.mem_cons,or_left_comm,eq_comm (a := Event.insert p)]

end

end Kokos.Scheduler

import Kokos.SchedulerRuns

/-! What holds over every run of the scheduler: the contexts, the ring and its rounds,
and what the ring and the switch lack. -/
namespace Kokos.Scheduler
open ByteMemory TransitionRuns PointerRings

section
variable {dummy : Nat} {s s' : State} {es : List Event} {scratch : Register → BitVec 64}

def bootState : State where
  machine :=
    { memory := dummyProcess (fun _ => 0) 0x2000 0x3000 0x4000
      cpu := ⟨fun _ => 0,0x100000,0x6000,0x202,8,16⟩
      cr3 := 0x4000
      currentProcess := 0x2000
      currentProcessId := 0
      interruptStack := 0x8000 }
  created := [0x2000]
  ready := [0x2000]
  inserted := [0x2000]
  table _ := 0x4000
  entrypoint _ := 0
  stack _ := 0
  last _ := none
  resumed := ⟨fun _ => 0,0x100000,0x6000,0x202,8,16⟩

theorem bootStarted : Started 0x2000 bootState where
  page := by unfold IsProcessPage; decide
  stackPage := by decide
  dummyFields := ⟨_,0x3000,fun _ _ _ => rfl⟩
  current := rfl
  cr3 := rfl
  created := rfl
  ready := rfl
  inserted := rfl
  last _ := rfl
  resumed := rfl

theorem executeRun {allowed : State → Event → Prop} (free : ∀ s e, (∀ scratch, e ≠ .interrupt scratch) → allowed s e)
    (run : ((system dummy).restrict allowed).Run es s) {p : Nat} {rest : List Nat} (level4 stack entrypoint : BitVec 64)
    (sound : Sound dummy s rest) (page : IsProcessPage s.machine.interruptStack p) (fresh : p ∉ s.created) : ∃ s',
      ((system dummy).restrict allowed).Run (.insert p::.finish p stack entrypoint::.create p level4::es) s' ∧
      Sound dummy s' (p::rest) ∧ s'.machine.currentProcess = s.machine.currentProcess ∧ s'.machine.cpu = s.machine.cpu ∧
      s'.resumed = s.resumed ∧ s'.last = s.last ∧
      s'.entrypoint p = entrypoint ∧ s'.stack p = stack ∧ s'.table p = level4 := by
  have unready : p ∉ s.ready := fun member => fresh (sound.known p member)
  have aside : p ∉ s.inserted := fun member => unready (sound.subset p member)
  obtain ⟨s1,create⟩ : ∃ s1, step s (.create p level4) s1 := ⟨_,page,fresh,rfl⟩
  have run1 : ((system dummy).restrict allowed).Run (.create p level4::es) s1 := .step run ⟨free s _ fun _ => nofun,create⟩
  have sound1 := soundCreate sound create
  have begun : p ∈ s1.created ∧ p ∉ s1.ready := by
    obtain ⟨_,_,rfl⟩ := create
    exact ⟨List.mem_cons_self,unready⟩
  obtain ⟨s2,finish⟩ : ∃ s2, step s1 (.finish p stack entrypoint) s2 := ⟨_,begun.1,begun.2,rfl⟩
  have run2 : ((system dummy).restrict allowed).Run (.finish p stack entrypoint::.create p level4::es) s2 :=
    .step run1 ⟨free s1 _ fun _ => nofun,finish⟩
  have sound2 := soundFinish sound1 finish
  have made : p ∈ s2.ready ∧ p ∉ s2.inserted := by
    obtain ⟨_,_,rfl⟩ := create
    obtain ⟨_,_,rfl⟩ := finish
    exact ⟨List.mem_cons_self,aside⟩
  obtain ⟨s3,insert⟩ : ∃ s3, step s2 (.insert p) s3 := ⟨_,made.1,made.2,rfl⟩
  have run3 : ((system dummy).restrict allowed).Run (.insert p::.finish p stack entrypoint::.create p level4::es) s3 :=
    .step run2 ⟨free s2 _ fun _ => nofun,insert⟩
  obtain ⟨sound3,same⟩ := soundInsert sound2 insert
  obtain ⟨_,_,rfl⟩ := create
  obtain ⟨_,_,rfl⟩ := finish
  obtain ⟨_,_,rfl⟩ := insert
  refine ⟨_,run3,sound3,same,?_,rfl,rfl,?_,?_,?_⟩
  · simp only [insertProcess]
    split <;> rfl
  · exact Function.update_self _ _ _
  · exact Function.update_self _ _ _
  · exact Function.update_self _ _ _

theorem turnAndBack {d : Nat} (sound : Sound dummy s [d]) (cpu : Cpu) : ∃ s1 s2 s3,
    step s (.interrupt scratch) s1 ∧ s1.machine.currentProcess = d ∧
    (∀ r ∈ upperRegisters, s1.machine.cpu.registers r = s.machine.cpu.registers r) ∧ s1.last d = s.last d ∧
    step s1 (.run cpu s1.machine.memory) s2 ∧ s2.machine.cpu = cpu ∧ s2.resumed = s1.machine.cpu ∧
    step s2 (.interrupt scratch) s3 ∧ s3.machine.currentProcess = s.machine.currentProcess ∧
    s3.last s.machine.currentProcess = some s.machine.cpu ∧
    ∀ r ∈ upperRegisters, s3.machine.cpu.registers r = cpu.registers r := by
  have other : s.machine.currentProcess ≠ d := fun h => (List.nodup_cons.mp sound.ring.distinct).1 (h ▸ List.mem_cons_self)
  obtain ⟨s1,first⟩ : ∃ s1, step s (.interrupt scratch) s1 := ⟨_,rfl⟩
  obtain ⟨sound1,turned,_,kept,upper⟩ := interruptTurn sound first
  obtain ⟨s2,run⟩ : ∃ s2, step s1 (.run cpu s1.machine.memory) s2 := ⟨_,fun p _ => ⟨fun _ _ _ => rfl,fun _ _ _ => rfl⟩,rfl⟩
  obtain ⟨sound2,_⟩ := soundQuiet sound1 run (fun _ => nofun) fun _ => nofun
  obtain ⟨s3,second⟩ : ∃ s3, step s2 (.interrupt scratch) s3 := ⟨_,rfl⟩
  have last : s1.last s.machine.currentProcess = some s.machine.cpu := by
    cases first
    exact Function.update_self _ _ _
  have ghosts : s1.resumed = s1.machine.cpu := by
    cases first
    rfl
  refine ⟨s1,s2,s3,first,turned,upper,kept,run,?_⟩
  obtain ⟨_,rfl⟩ := run
  obtain ⟨_,back,_,kept',upper'⟩ := interruptTurn sound2 second
  exact ⟨rfl,ghosts,second,back,kept'.trans last,upper'⟩

theorem resumedIntact (run : (system dummy).Run (.interrupt scratch::es) s) :
    (∀ c, s.last s.machine.currentProcess = some c → Resumes c s.machine.cpu) ∧
    (s.last s.machine.currentProcess = none → s.machine.cpu.rip = s.entrypoint s.machine.currentProcess ∧
      s.machine.cpu.rsp = s.stack s.machine.currentProcess + 4096*8 ∧
      ∀ r ∈ savedRegisters, s.machine.cpu.registers r = 0) ∧
    s.machine.cr3 = s.table s.machine.currentProcess := by
  cases run with
  | @step _ _ before _ run move =>
    obtain ⟨⟨rest,sound⟩,_⟩ := soundRun run
    cases rest with
    | nil =>
      obtain ⟨kept,same,resumes,_⟩ := interruptAlone sound move
      have preempted : s.last s.machine.currentProcess = some before.machine.cpu := by
        rw [same]
        cases move
        exact Function.update_self _ _ _
      refine ⟨fun c ran => ?_,fun never => ?_,kept.cr3⟩
      · rw [preempted] at ran
        cases ran
        exact resumes
      · rw [preempted] at never
        cases never
    | cons d rest =>
      obtain ⟨kept,turned,resumes,same,_⟩ := interruptTurn sound move
      rw [turned,same]
      have entry : s.entrypoint = before.entrypoint ∧ s.stack = before.stack := by
        cases move
        exact ⟨rfl,rfl⟩
      refine ⟨fun c ran => ?_,fun never => ?_,turned ▸ kept.cr3⟩
      · simp only [State.saved,ran,Option.getD_some] at resumes
        exact resumes
      · simp only [State.saved,never,Option.getD_none] at resumes
        rw [entry.1,entry.2]
        exact ⟨resumes.rip,resumes.rsp,resumes.registers⟩

theorem executedRun {allowed : State → Event → Prop} (free : ∀ s e, (∀ scratch, e ≠ .interrupt scratch) → allowed s e) :
    ∃ s, ((system 0x2000).restrict allowed).Run [.insert 0x9000,.finish 0x9000 0x8000000000 0x101000,.create 0x9000 0xA000] s ∧
      Sound 0x2000 s [0x9000] ∧ s.machine.currentProcess = 0x2000 ∧ s.machine.cpu = bootState.machine.cpu ∧
      s.resumed = bootState.machine.cpu ∧ s.last = bootState.last ∧
      s.entrypoint 0x9000 = 0x101000 ∧ s.stack 0x9000 = 0x8000000000 ∧ s.table 0x9000 = 0xA000 := by
  have page : IsProcessPage 0x8000 0x9000 := by unfold IsProcessPage; decide
  exact executeRun free (.start bootStarted) _ _ _ (soundStart bootStarted) page (by decide)

theorem resumedFirst : ∃ es s, (system 0x2000).Run (.interrupt (fun _ => 0)::es) s ∧
    s.machine.currentProcess = 0x9000 ∧ s.machine.cpu.rip = 0x101000 ∧ s.machine.cpu.rsp = 0x8000008000 ∧ s.machine.cr3 = 0xA000 := by
  obtain ⟨s,run,sound,_,_,_,last,entrypoint,stack,table⟩ := @executedRun (fun _ _ => True) fun _ _ _ => trivial
  obtain ⟨s1,_,_,move,turned,_,never,_⟩ := @turnAndBack _ s (fun _ => 0) _ sound s.machine.cpu
  have all : (system 0x2000).Run (.interrupt (fun _ => 0)::_) s1 := .step (restrictRun run) move
  obtain ⟨_,first,cr3⟩ := resumedIntact all
  have same : s1.entrypoint = s.entrypoint ∧ s1.stack = s.stack ∧ s1.table = s.table := by
    cases move
    exact ⟨rfl,rfl,rfl⟩
  rw [turned,same.1,same.2.1,entrypoint,stack,never,last] at first
  rw [turned,same.2.2,table] at cr3
  exact ⟨_,s1,all,turned,(first rfl).1,(first rfl).2.1,cr3⟩

/-! The registers that are not saved. -/

def KeepsUpper (s : State) : Event → Prop
  | .interrupt _ => nextOf s.machine.memory s.machine.currentProcess ≠ s.machine.currentProcess →
      (∃ p, p ≠ s.machine.currentProcess ∧ s.last p ≠ none) →
      ∀ r ∈ upperRegisters, s.machine.cpu.registers r = s.resumed.registers r
  | _ => True

def OneUpper (s : State) : Prop := ∀ p c, s.last p = some c → ∀ r ∈ upperRegisters, c.registers r = s.resumed.registers r

theorem oneUpperStart (started : Started dummy s) : OneUpper s := by
  intro p c ran
  rw [started.last p] at ran
  cases ran

theorem oneUpperInterrupt {rest : List Nat} (sound : Sound dummy s rest) (one : OneUpper s)
    (allowed : KeepsUpper s (.interrupt scratch)) (move : step s (.interrupt scratch) s') : OneUpper s' := by
  have upper : ∀ r ∈ upperRegisters, s'.resumed.registers r = s.machine.cpu.registers r := by
    cases rest with
    | nil =>
      have same := (interruptAlone sound move).2.2.2
      cases move
      exact same
    | cons d rest =>
      have same := (interruptTurn sound move).2.2.2.2
      cases move
      exact same
  have last : s'.last = Function.update s.last s.machine.currentProcess (some s.machine.cpu) := by
    cases move
    rfl
  intro p c ran r high
  rw [upper r high]
  rw [last] at ran
  by_cases this : p = s.machine.currentProcess
  · rw [this,Function.update_self] at ran
    cases ran
    rfl
  · rw [Function.update_of_ne this] at ran
    rw [one p c ran r high]
    have someOther : ∃ q, q ≠ s.machine.currentProcess ∧ s.last q ≠ none := ⟨p,this,by rw [ran]; nofun⟩
    -- With another preempted process in the ring the interrupt switches.
    have switches : nextOf s.machine.memory s.machine.currentProcess ≠ s.machine.currentProcess := by
      cases rest with
      | nil =>
        have member := (sound.members p).mpr (sound.preempted p (by rw [ran]; nofun))
        exact absurd (List.mem_singleton.mp member) this
      | cons d rest =>
        rw [sound.ring.closed.1]
        rintro rfl
        exact (List.nodup_cons.mp sound.ring.distinct).1 List.mem_cons_self
    exact (allowed switches someOther r high).symm

theorem oneUpperRun (run : ((system dummy).restrict KeepsUpper).Run es s) : OneUpper s := by
  induction run with
  | start started => exact oneUpperStart started
  | @step es e s s' before move ih =>
    obtain ⟨⟨rest,sound⟩,_⟩ := soundRun (restrictRun before)
    obtain ⟨allowed,move⟩ := move
    cases e with
    | run cpu memory =>
      obtain ⟨_,rfl⟩ := move
      exact ih
    | create p level4 =>
      obtain ⟨_,_,rfl⟩ := move
      exact ih
    | finish p stack entrypoint =>
      obtain ⟨_,_,rfl⟩ := move
      exact ih
    | insert p =>
      obtain ⟨_,_,rfl⟩ := move
      exact ih
    | interrupt scratch => exact oneUpperInterrupt sound ih allowed move

theorem upperStep (run : ((system dummy).restrict KeepsUpper).Run es s) (move : step s (.interrupt scratch) s') {c : Cpu}
    (ran : s'.last s'.machine.currentProcess = some c) :
    (∀ r ∈ upperRegisters, s'.machine.cpu.registers r = c.registers r) ↔ KeepsUpper s (.interrupt scratch) := by
  obtain ⟨⟨rest,sound⟩,_⟩ := soundRun (restrictRun run)
  cases rest with
  | nil =>
    obtain ⟨_,same,_,upper⟩ := interruptAlone sound move
    have preempted : s'.last s'.machine.currentProcess = some s.machine.cpu := by
      rw [same]
      cases move
      exact Function.update_self _ _ _
    rw [preempted] at ran
    cases ran
    exact ⟨fun _ switches => absurd sound.ring.closed switches,fun _ => upper⟩
  | cons d rest =>
    obtain ⟨_,turned,_,same,upper⟩ := interruptTurn sound move
    have other : d ≠ s.machine.currentProcess := by
      rintro rfl
      exact (List.nodup_cons.mp sound.ring.distinct).1 List.mem_cons_self
    rw [turned,same] at ran
    have agree := oneUpperRun run d c ran
    constructor
    · intro intact _ _ r high
      rw [← upper r high,intact r high]
      exact agree r high
    · intro allowed r high
      have points : nextOf s.machine.memory s.machine.currentProcess ≠ s.machine.currentProcess := by
        rw [sound.ring.closed.1]
        exact other
      rw [upper r high,agree r high]
      exact allowed points ⟨d,other,by rw [ran]; nofun⟩ r high

theorem upperIntact (run : ((system dummy).restrict KeepsUpper).Run es s) :
    (∀ scratch earlier c, es = .interrupt scratch::earlier → s.last s.machine.currentProcess = some c →
      ∀ r ∈ upperRegisters, s.machine.cpu.registers r = c.registers r) ∧
    ∀ scratch s' c, step s (.interrupt scratch) s' → s'.last s'.machine.currentProcess = some c →
      ((∀ r ∈ upperRegisters, s'.machine.cpu.registers r = c.registers r) ↔ KeepsUpper s (.interrupt scratch)) := by
  refine ⟨fun scratch earlier c now ran => ?_,fun scratch s' c move ran => upperStep run move ran⟩
  subst now
  cases run with
  | step before move => exact (upperStep before move.2 ran).mpr move.1

theorem upperIntactBack : ∃ es s, ((system 0x2000).restrict KeepsUpper).Run es s ∧ s.machine.currentProcess = 0x2000 ∧
    s.last 0x2000 = some bootState.machine.cpu ∧ ∀ r ∈ upperRegisters, s.machine.cpu.registers r = 0 := by
  have free : ∀ s e, (∀ scratch, e ≠ .interrupt scratch) → KeepsUpper s e := by
    rintro s (_ | _ | _ | _ | scratch) other
    all_goals first | trivial | exact absurd rfl (other scratch)
  obtain ⟨s,run,sound,current,cpu,resumed,last,_⟩ := executedRun free
  obtain ⟨s1,s2,s3,move1,_,upper,_,move2,kept,resumed',move3,back,preempted,_⟩ :=
    @turnAndBack _ s (fun _ => 0) _ sound bootState.machine.cpu
  rw [current] at back preempted
  rw [cpu] at preempted upper
  have allowed1 : KeepsUpper s (.interrupt fun _ => 0) := fun _ _ r _ => by rw [cpu,resumed]
  have allowed2 : KeepsUpper s2 (.interrupt fun _ => 0) := fun _ _ r high => by rw [kept,resumed',upper r high]
  have first : ((system 0x2000).restrict KeepsUpper).Run (.interrupt (fun _ => 0)::_) s1 := .step run ⟨allowed1,move1⟩
  have second : ((system 0x2000).restrict KeepsUpper).Run (.run _ _::_) s2 := .step first ⟨free _ _ fun _ => nofun,move2⟩
  have all : ((system 0x2000).restrict KeepsUpper).Run (.interrupt (fun _ => 0)::_) s3 := .step second ⟨allowed2,move3⟩
  have intact := (upperIntact all).1 _ _ bootState.machine.cpu rfl (by rw [back]; exact preempted)
  exact ⟨_,s3,all,back,preempted,intact⟩

/-- The dummy process with 0 in r12 finds the 7 there that the other process has put into it. -/
theorem upperLost : ∃ es s scratch c, (system 0x2000).Run (.interrupt scratch::es) s ∧ s.machine.currentProcess = 0x2000 ∧
    s.last 0x2000 = some c ∧ c.registers .r12 = 0 ∧ s.machine.cpu.registers .r12 = 7 := by
  obtain ⟨s,run,sound,current,cpu,_⟩ := @executedRun (fun _ _ => True) fun _ _ _ => trivial
  obtain ⟨s1,s2,s3,move1,_,_,_,move2,_,_,move3,back,preempted,upper⟩ :=
    @turnAndBack _ s (fun _ => 0) _ sound { s.machine.cpu with registers := fun r => if r = .r12 then 7 else 0 }
  rw [current] at back preempted
  rw [cpu] at preempted
  have first : (system 0x2000).Run (.interrupt (fun _ => 0)::_) s1 := .step (restrictRun run) move1
  have second : (system 0x2000).Run (.run _ _::_) s2 := .step first move2
  have all : (system 0x2000).Run (.interrupt (fun _ => 0)::_) s3 := .step second move3
  exact ⟨_,s3,_,_,all,back,preempted,rfl,upper .r12 List.mem_cons_self⟩

/-! The ring and its rounds. -/

inductive Stretch (s : State) : List Nat → State → Prop where
  | none : Stretch s [] s
  | interrupt {visited mid s' scratch} (before : Stretch s visited mid) (move : step mid (.interrupt scratch) s') :
      Stretch s (visited ++ [s'.machine.currentProcess]) s'
  | quiet {visited mid s' e} (before : Stretch s visited mid) (move : step mid e s') (insertless : ∀ p, e ≠ .insert p)
      (calm : ∀ scratch, e ≠ .interrupt scratch) : Stretch s visited s'

theorem stretchTurns {rest visited : List Nat} (sound : Sound dummy s rest) (stretch : Stretch s visited s') :
    ∃ rest', Sound dummy s' rest' ∧
      s'.machine.currentProcess::rest' = (s.machine.currentProcess::rest).rotate visited.length ∧
      ∀ i (h : i < visited.length), ((s.machine.currentProcess::rest).rotate (i+1)).head? = some visited[i] := by
  induction stretch with
  | none => exact ⟨rest,sound,(List.rotate_zero _).symm,fun i h => absurd h (Nat.not_lt_zero i)⟩
  | @interrupt visited mid s' scratch before move ih =>
    obtain ⟨rest',sound',turned,heads⟩ := ih
    obtain ⟨rest'',sound'',next,_⟩ := soundInterrupt sound' move
    have all : s'.machine.currentProcess::rest'' = (s.machine.currentProcess::rest).rotate (visited.length+1) := by
      rw [next,turned,List.rotate_rotate]
    refine ⟨rest'',sound'',by rw [List.length_append]; exact all,fun i h => ?_⟩
    by_cases last : i < visited.length
    · rw [List.getElem_append_left last]
      exact heads i last
    · have here : i = visited.length := by
        rw [List.length_append,List.length_singleton] at h
        omega
      subst here
      rw [← all,List.getElem_concat_length rfl]
      rfl
  | quiet before move insertless calm ih =>
    obtain ⟨rest',sound',turned,heads⟩ := ih
    obtain ⟨kept,same,_⟩ := soundQuiet sound' move insertless calm
    exact ⟨rest',kept,by rw [same]; exact turned,heads⟩

theorem ringRounds (run : (system dummy).Run es s) :
    ∃ rest, Ring (nextOf s.machine.memory) s.machine.currentProcess rest ∧
      (∀ p, p ∈ s.machine.currentProcess::rest ↔ p = dummy ∨ .insert p ∈ es) ∧
      ∀ visited s', Stretch s visited s' → visited.length = (s.machine.currentProcess::rest).length →
        visited.Perm (s.machine.currentProcess::rest) := by
  obtain ⟨⟨rest,sound⟩,members⟩ := soundRun run
  refine ⟨rest,sound.ring,fun p => (sound.members p).trans (members p),fun visited s' stretch round => ?_⟩
  obtain ⟨_,_,_,heads⟩ := stretchTurns sound stretch
  exact roundPerm heads round

theorem ringRoundsTwo : ∃ es s s' rest, (system 0x2000).Run es s ∧ Stretch s [0x9000,0x2000] s' ∧
    Ring (nextOf s.machine.memory) s.machine.currentProcess rest ∧ [0x9000,0x2000].Perm (s.machine.currentProcess::rest) := by
  obtain ⟨s,run,sound,current,_⟩ := @executedRun (fun _ _ => True) fun _ _ _ => trivial
  obtain ⟨s1,s2,s3,move1,turned,_,_,move2,_,_,move3,back,_⟩ := @turnAndBack _ s (fun _ => 0) _ sound s.machine.cpu
  obtain ⟨rest,ring,members,rounds⟩ := ringRounds (restrictRun run)
  have two : [0x2000,0x9000].Perm (s.machine.currentProcess::rest) := by
    refine (List.perm_ext_iff_of_nodup (by decide) ring.distinct).mpr fun p => ?_
    rw [members p]
    simp
  have there : Stretch s ([] ++ [s1.machine.currentProcess]) s1 := .interrupt .none move1
  have ran := there.quiet move2 (fun _ => nofun) fun _ => nofun
  have stretch := ran.interrupt move3
  rw [turned,back,current] at stretch
  exact ⟨_,s,s3,rest,restrictRun run,stretch,ring,rounds _ s3 stretch two.length_eq⟩

/-! The links back. -/

theorem insertedOther (run : (system dummy).Run es s) {p : Nat} (member : .insert p ∈ es) : p ≠ dummy := by
  induction run with
  | start => cases member
  | step before move ih =>
    rcases List.mem_cons.mp member with rfl | old
    · obtain ⟨⟨rest,sound⟩,_⟩ := soundRun before
      rintro rfl
      exact move.2.1 sound.first
    · exact ih old

theorem previousLinks (run : (system dummy).Run es s) :
    (∀ p, p = dummy ∨ .insert p ∈ es → previousOf s.machine.memory (nextOf s.machine.memory p) = p ∧
      nextOf s.machine.memory (previousOf s.machine.memory p) = p) ↔ ∀ p, .insert p ∉ es := by
  obtain ⟨⟨rest,sound⟩,inserted⟩ := soundRun run
  have members : ∀ p, p ∈ s.machine.currentProcess::rest ↔ p = dummy ∨ .insert p ∈ es :=
    fun p => (sound.members p).trans (inserted p)
  constructor
  · intro linked p member
    have here := (members p).mpr (Or.inr member)
    have first := (members dummy).mpr (Or.inl rfl)
    have other := insertedOther run member
    cases rest with
    | nil => exact other ((List.mem_singleton.mp here).trans (List.mem_singleton.mp first).symm)
    | cons d rest =>
      -- The process before the dummy is not what the dummy links back to.
      obtain ⟨q,inRing,points,different⟩ := ringBefore sound.ring first
      have back := (linked q ((members q).mp inRing)).1
      rw [points,sound.behind] at back
      exact different back.symm
  · intro none p member
    have only : p = dummy := member.resolve_right (none p)
    have alone : ∀ q ∈ s.machine.currentProcess::rest, q = dummy :=
      fun q inRing => ((members q).mp inRing).resolve_right (none q)
    have current := alone _ List.mem_cons_self
    have single : nextOf s.machine.memory dummy = dummy := by
      cases rest with
      | nil => exact current ▸ sound.ring.closed
      | cons d rest =>
        have points := sound.ring.closed.1
        rw [current] at points
        exact points.trans (alone d (List.mem_cons_of_mem _ List.mem_cons_self))
    rw [only,single,sound.behind,single]
    exact ⟨rfl,rfl⟩

theorem previousAlone : previousOf bootState.machine.memory (nextOf bootState.machine.memory 0x2000) = 0x2000 ∧
    nextOf bootState.machine.memory (previousOf bootState.machine.memory 0x2000) = 0x2000 :=
  (previousLinks (.start bootStarted)).mpr (fun _ => List.not_mem_nil) 0x2000 (Or.inl rfl)

theorem previousLost : ∃ es s, (system 0x2000).Run es s ∧ .insert 0x9000 ∈ es ∧
    previousOf s.machine.memory (nextOf s.machine.memory 0x9000) ≠ 0x9000 := by
  obtain ⟨s,run,sound,current,_⟩ := @executedRun (fun _ _ => True) fun _ _ _ => trivial
  have onward : nextOf s.machine.memory 0x9000 = s.machine.currentProcess := sound.ring.closed.2
  refine ⟨_,s,restrictRun run,List.mem_cons_self,?_⟩
  rw [onward,current,sound.behind]
  decide

end

end Kokos.Scheduler

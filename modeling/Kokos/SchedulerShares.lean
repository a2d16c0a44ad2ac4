import Kokos.SchedulerLaws

/-! The processes of a CPU by turns, against each of them on a processor of its own. A process
may use all that an interrupt saves, and not r12 to r15. -/
namespace Kokos.Scheduler
open ByteMemory TransitionRuns PointerRings

structure View where
  rip : BitVec 64
  rsp : BitVec 64
  rflags : BitVec 64
  registers : List (BitVec 64)

def viewOf (c : Cpu) : View := ⟨c.rip,c.rsp,c.rflags,savedRegisters.map c.registers⟩

def storedView (m : Memory) (p : Nat) : View :=
  ⟨loadWord m (p + processSavedInstructionPointer),loadWord m (p + processSavedStackPointer),loadWord m (p + processSavedRflags),
    loadWords m (p + processSavedRegisters) savedRegisters.length⟩

def State.view (s : State) (p : Nat) : View :=
  if p = s.machine.currentProcess then viewOf s.machine.cpu else storedView s.machine.memory p

def State.firstView (s : State) (dummy : Nat) (boot : View) (p : Nat) : View :=
  if p = dummy then boot else viewOf (firstCpu (s.entrypoint p) (s.stack p))

def alone (program : View → View → Prop) (first : View) : System View Unit where
  start v := v = first
  step v _ v' := program v v'

def Computes (programs : Nat → View → View → Prop) (s : State) : Event → Prop
  | .run cpu _ => programs s.machine.currentProcess (viewOf s.machine.cpu) (viewOf cpu)
  | _ => True

def systemFrom (boot : State) : System State Event := ⟨fun s => s = boot,step⟩

def behindFirst (p : Nat) : List Nat → List Nat
  | [] => []
  | q::rest => q::p::rest

def queue (dummy : Nat) : List Event → List Nat
  | [] => [dummy]
  | .insert p::es => behindFirst p (queue dummy es)
  | .interrupt _::es => (queue dummy es).rotate 1
  | _::es => queue dummy es

def turns (dummy : Nat) : List Event → Nat → Nat
  | [], _ => 0
  | .run _ _::es, p => turns dummy es p + if (queue dummy es).head? = some p then 1 else 0
  | _::es, p => turns dummy es p

section
variable {dummy : Nat} {boot s s' : State} {rest rest' : List Nat} {es : List Event} {programs : Nat → View → View → Prop}

theorem resumesView {c c' : Cpu} (resumes : Resumes c c') : viewOf c' = viewOf c := by
  have registers : savedRegisters.map c'.registers = savedRegisters.map c.registers := List.map_congr_left resumes.registers
  unfold viewOf
  rw [resumes.rip,resumes.rsp,resumes.rflags,registers]

theorem viewCurrent : s.view s.machine.currentProcess = viewOf s.machine.cpu := if_pos rfl

theorem viewSaved (sound : Sound dummy s rest) {p : Nat} (member : p ∈ s.inserted) (other : p ≠ s.machine.currentProcess) :
    s.view p = viewOf (s.saved p) := by
  have stored := sound.stored p (sound.subset p member) other
  unfold State.view storedView viewOf
  rw [if_neg other,stored.rip,stored.rsp,stored.rflags,stored.registers]

theorem viewSame (sound : Sound dummy s rest) (sound' : Sound dummy s' rest') (cpu : s'.machine.cpu = s.machine.cpu)
    (current : s'.machine.currentProcess = s.machine.currentProcess) {p : Nat} (member : p ∈ s.inserted)
    (member' : p ∈ s'.inserted) (saved : s'.saved p = s.saved p) : s'.view p = s.view p := by
  by_cases this : p = s.machine.currentProcess
  · subst this
    rw [viewCurrent,← current,viewCurrent,cpu]
  · rw [viewSaved sound member this,viewSaved sound' member' (current ▸ this),saved]

structure Shares (programs : Nat → View → View → Prop) (dummy : Nat) (boot : View) (es : List Event) (s : State)
    (rest : List Nat) : Prop where
  sound : Sound dummy s rest
  queued : queue dummy es = s.machine.currentProcess::rest
  along : ∀ p ∈ s.inserted, (alone (programs p) (s.firstView dummy boot p)).Run (List.replicate (turns dummy es p) ()) (s.view p)
  waiting : ∀ p, p ∉ s.inserted → turns dummy es p = 0

variable {view : View}

theorem sharesStart (started : Started dummy s) : Shares programs dummy (viewOf s.machine.cpu) [] s [] where
  sound := soundStart started
  queued := by rw [started.current]; rfl
  along p member := by
    rw [started.inserted,List.mem_singleton] at member
    subst member
    refine .start ?_
    rw [← started.current,viewCurrent,started.current]
    exact (if_pos rfl).symm
  waiting _ _ := rfl

theorem sharesRun {cpu : Cpu} {memory : Memory} (shares : Shares programs dummy view es s rest)
    (computes : Computes programs s (.run cpu memory)) (move : step s (.run cpu memory) s') :
    Shares programs dummy view (.run cpu memory::es) s' rest := by
  obtain ⟨same,rfl⟩ := move
  have sound := soundKept cpu shares.sound same
  have head : (queue dummy es).head? = some s.machine.currentProcess := by rw [shares.queued]; rfl
  refine ⟨sound,shares.queued,fun p member => ?_,fun p outside => ?_⟩
  · have before := shares.along p member
    unfold turns
    by_cases this : p = s.machine.currentProcess
    · subst this
      rw [if_pos head,List.replicate_succ]
      rw [viewCurrent] at before
      unfold State.view
      rw [if_pos rfl]
      exact .step before computes
    · have later : (queue dummy es).head? ≠ some p := fun first => this (Option.some.inj (first.symm.trans head))
      rw [if_neg later,Nat.add_zero,viewSaved sound member this]
      rw [viewSaved shares.sound member this] at before
      exact before
  · have other : s.machine.currentProcess ≠ p := by
      rintro rfl
      exact outside ((shares.sound.members _).mp List.mem_cons_self)
    unfold turns
    rw [head,if_neg fun first => other (Option.some.inj first),Nat.add_zero]
    exact shares.waiting p outside

theorem sharesCreate {p : Nat} {level4 : BitVec 64} (shares : Shares programs dummy view es s rest)
    (move : step s (.create p level4) s') : Shares programs dummy view (.create p level4::es) s' rest := by
  have sound := soundCreate shares.sound move
  obtain ⟨_,_,rfl⟩ := move
  refine ⟨sound,shares.queued,fun q member => ?_,shares.waiting⟩
  rw [viewSame shares.sound sound rfl rfl member member rfl]
  exact shares.along q member

theorem sharesFinish {p : Nat} {stack entrypoint : BitVec 64} (shares : Shares programs dummy view es s rest)
    (move : step s (.finish p stack entrypoint) s') : Shares programs dummy view (.finish p stack entrypoint::es) s' rest := by
  have sound := soundFinish shares.sound move
  obtain ⟨_,unready,rfl⟩ := move
  refine ⟨sound,shares.queued,fun q member => ?_,shares.waiting⟩
  have other : q ≠ p := fun same => unready (same ▸ shares.sound.subset q member)
  have entry : Function.update s.entrypoint p entrypoint q = s.entrypoint q := Function.update_of_ne other _ _
  have base : Function.update s.stack p stack q = s.stack q := Function.update_of_ne other _ _
  have first := shares.along q member
  have saved : (s.last q).getD (firstCpu (Function.update s.entrypoint p entrypoint q) (Function.update s.stack p stack q)) = s.saved q := by
    rw [entry,base]
    rfl
  rw [viewSame shares.sound sound rfl rfl member member saved]
  unfold State.firstView at first ⊢
  dsimp only
  rw [entry,base]
  exact first

theorem sharesInsert {p : Nat} (shares : Shares programs dummy view es s rest) (move : step s (.insert p) s') :
    Shares programs dummy view (.insert p::es) s' (p::rest) := by
  obtain ⟨sound,current⟩ := soundInsert shares.sound move
  obtain ⟨_,fresh,rfl⟩ := move
  have cpu : (insertProcess s.machine p).cpu = s.machine.cpu := by
    unfold insertProcess
    split
    · rfl
    · rfl
  refine ⟨sound,?_,fun q member => ?_,fun q outside => shares.waiting q fun old => outside (List.mem_cons_of_mem _ old)⟩
  · show behindFirst p (queue dummy es) = _
    rw [shares.queued,current]
    rfl
  · by_cases this : q = p
    · subst this
      have never : s.last q = none := Classical.not_not.mp fun ran => fresh (shares.sound.preempted q ran)
      have elsewhere : q ≠ s.machine.currentProcess := fun same => fresh ((shares.sound.members q).mp (same ▸ List.mem_cons_self))
      have apart : q ≠ dummy := fun same => fresh (same ▸ shares.sound.first)
      rw [show turns dummy (.insert q::es) q = 0 from shares.waiting q fresh,viewSaved sound member (current ▸ elsewhere)]
      refine .start ?_
      unfold State.saved State.firstView
      rw [show s.last q = none from never,if_neg apart]
      rfl
    · have old := (List.mem_cons.mp member).resolve_left this
      rw [viewSame shares.sound sound cpu current old member rfl]
      exact shares.along q old

theorem interruptViews {scratch : Register → BitVec 64} (sound : Sound dummy s rest) (move : step s (.interrupt scratch) s') :
    ∃ rest', Sound dummy s' rest' ∧ s'.machine.currentProcess::rest' = (s.machine.currentProcess::rest).rotate 1 ∧
      ∀ p ∈ s.inserted, s'.view p = s.view p := by
  have last : ∀ p, s'.last p = Function.update s.last s.machine.currentProcess (some s.machine.cpu) p := by
    intro p
    cases move
    rfl
  have inserted : s'.inserted = s.inserted := by
    cases move
    rfl
  have entries : s'.entrypoint = s.entrypoint ∧ s'.stack = s.stack := by
    cases move
    exact ⟨rfl,rfl⟩
  cases rest with
  | nil =>
    obtain ⟨sound',same,resumes,_⟩ := interruptAlone sound move
    refine ⟨[],sound',by rw [same,List.rotate_singleton],fun p member => ?_⟩
    have only : p = s.machine.currentProcess := List.mem_singleton.mp ((sound.members p).mpr member)
    rw [only,viewCurrent,← same,viewCurrent,resumesView resumes]
  | cons d rest =>
    obtain ⟨sound',turned,resumes,_⟩ := interruptTurn sound move
    refine ⟨_,sound',by rw [turned,List.rotate_cons_succ,List.rotate_zero,List.cons_append],fun p member => ?_⟩
    have different : s.machine.currentProcess ≠ d := fun same =>
      (List.nodup_cons.mp sound.ring.distinct).1 (same ▸ List.mem_cons_self)
    by_cases next : p = d
    · subst next
      rw [viewSaved sound member different.symm,← turned,viewCurrent,turned,resumesView resumes]
    · rw [viewSaved sound' (inserted ▸ member) (turned ▸ next)]
      unfold State.saved
      rw [last p,entries.1,entries.2]
      by_cases this : p = s.machine.currentProcess
      · subst this
        rw [Function.update_self,viewCurrent]
        rfl
      · rw [Function.update_of_ne this,viewSaved sound member this]
        rfl

theorem sharesInterrupt {scratch : Register → BitVec 64} (shares : Shares programs dummy view es s rest)
    (move : step s (.interrupt scratch) s') : ∃ rest', Shares programs dummy view (.interrupt scratch::es) s' rest' := by
  obtain ⟨rest',sound,turned,views⟩ := interruptViews shares.sound move
  have fields : s'.inserted = s.inserted ∧ s'.entrypoint = s.entrypoint ∧ s'.stack = s.stack := by
    cases move
    exact ⟨rfl,rfl,rfl⟩
  refine ⟨rest',sound,?_,fun p member => ?_,fun p outside => shares.waiting p (fields.1 ▸ outside)⟩
  · show (queue dummy es).rotate 1 = _
    rw [shares.queued,turned]
  · rw [fields.1] at member
    have first := shares.along p member
    rw [views p member]
    unfold State.firstView at first ⊢
    rw [fields.2.1,fields.2.2]
    exact first

theorem sharesSystem (started : Started dummy boot) (run : ((systemFrom boot).restrict (Computes programs)).Run es s) :
    ∃ rest, Shares programs dummy (viewOf boot.machine.cpu) es s rest := by
  induction run with
  | start first =>
    cases first
    exact ⟨[],sharesStart started⟩
  | @step es e s s' before move ih =>
    obtain ⟨rest,shares⟩ := ih
    obtain ⟨computes,move⟩ := move
    cases e with
    | run cpu memory => exact ⟨rest,sharesRun shares computes move⟩
    | create p level4 => exact ⟨rest,sharesCreate shares move⟩
    | finish p stack entrypoint => exact ⟨rest,sharesFinish shares move⟩
    | insert p => exact ⟨p::rest,sharesInsert shares move⟩
    | interrupt scratch => exact sharesInterrupt shares move

theorem computesAlone (started : Started dummy boot) (run : ((systemFrom boot).restrict (Computes programs)).Run es s) :
    (∃ rest, queue dummy es = s.machine.currentProcess::rest ∧ Ring (nextOf s.machine.memory) s.machine.currentProcess rest) ∧
    ∀ p ∈ queue dummy es, (alone (programs p) (s.firstView dummy (viewOf boot.machine.cpu) p)).Run
      (List.replicate (turns dummy es p) ()) (s.view p) := by
  obtain ⟨rest,shares⟩ := sharesSystem started run
  refine ⟨⟨rest,shares.queued,shares.sound.ring⟩,fun p member => shares.along p ?_⟩
  rw [shares.queued] at member
  exact (shares.sound.members p).mp member

def counting (v v' : View) : Prop := v' = { v with rip := v.rip+1 }

theorem computesAloneOther : ∃ es s, ((systemFrom bootState).restrict (Computes fun _ => counting)).Run es s ∧
    turns 0x2000 es 0x9000 = 1 ∧ turns 0x2000 es 0x2000 = 0 ∧
    (alone counting (s.firstView 0x2000 (viewOf bootState.machine.cpu) 0x9000)).Run
      (List.replicate (turns 0x2000 es 0x9000) ()) (s.view 0x9000) := by
  have page : IsProcessPage 0x8000 0x9000 := by unfold IsProcessPage; decide
  obtain ⟨s1,create⟩ : ∃ s1, step bootState (.create 0x9000 0xA000) s1 := ⟨_,page,by decide,rfl⟩
  have begun : 0x9000 ∈ s1.created ∧ 0x9000 ∉ s1.ready ∧ 0x9000 ∉ s1.inserted := by
    obtain ⟨_,_,rfl⟩ := create
    exact ⟨List.mem_cons_self,by decide,by decide⟩
  obtain ⟨s2,finish⟩ : ∃ s2, step s1 (.finish 0x9000 0x8000000000 0x101000) s2 := ⟨_,begun.1,begun.2.1,rfl⟩
  have made : 0x9000 ∈ s2.ready ∧ 0x9000 ∉ s2.inserted := by
    obtain ⟨_,_,rfl⟩ := finish
    exact ⟨List.mem_cons_self,begun.2.2⟩
  obtain ⟨s3,insert⟩ : ∃ s3, step s2 (.insert 0x9000) s3 := ⟨_,made.1,made.2,rfl⟩
  obtain ⟨s4,interrupt⟩ : ∃ s4, step s3 (.interrupt fun _ => 0) s4 := ⟨_,rfl⟩
  have moves : ((systemFrom bootState).restrict (Computes fun _ => counting)).Run
      [.interrupt fun _ => 0,.insert 0x9000,.finish 0x9000 0x8000000000 0x101000,.create 0x9000 0xA000] s4 :=
    .step (.step (.step (.step (.start rfl) ⟨trivial,create⟩) ⟨trivial,finish⟩) ⟨trivial,insert⟩) ⟨trivial,interrupt⟩
  obtain ⟨s5,count⟩ : ∃ s5, step s4 (.run { s4.machine.cpu with rip := s4.machine.cpu.rip+1 } s4.machine.memory) s5 :=
    ⟨_,fun p _ => ⟨fun _ _ _ => rfl,fun _ _ _ => rfl⟩,rfl⟩
  have computes : Computes (fun _ => counting) s4 (.run { s4.machine.cpu with rip := s4.machine.cpu.rip+1 } s4.machine.memory) := rfl
  have all := System.Run.step moves ⟨computes,count⟩
  exact ⟨_,s5,all,rfl,rfl,(computesAlone bootStarted all).2 0x9000 List.mem_cons_self⟩

end

end Kokos.Scheduler

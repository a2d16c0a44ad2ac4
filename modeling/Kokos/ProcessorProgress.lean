import Mathlib.Algebra.BigOperators.Fin
import Kokos.ProcessorRuns

/-! The startup protocol comes to its end: the steps that are left, and that one is always
possible. -/
namespace Kokos.ProcessorStartup
open TransitionRuns

variable {kernel : Kernel} {processors : List Processor} {visited : List (Fin 256)} {s s' : State}

def Stage.weight : Stage → Nat
  | .resetIncrement => 14
  | .initDestination => 13
  | .initCommand => 12
  | .startupDestination => 9
  | .startupCommand => 8
  | .repeatDestination => 5
  | .repeatCommand => 4
  | .waiting => 1

def Boot.weight : Boot → Nat
  | .loop rest => 15*rest.length + 1
  | .starting stage _ rest => 15*rest.length + 1 + stage.weight
  | .finished => 0

def load (q : List Ipi) (o : Other) : Nat := 2*q.length + match o with
  | .starting _ => 1
  | _ => 0

def weight (s : State) : Nat := s.boot.weight + ∑ a, load (s.flying a) (s.others a)

theorem sumChange {ι : Type} [Fintype ι] [DecidableEq ι] {f g : ι → Nat} {a : ι} (other : ∀ b, b ≠ a → g b = f b) :
    ∑ b, g b + f a = ∑ b, f b + g a := by
  have rest : ∑ b ∈ Finset.univ.erase a, g b = ∑ b ∈ Finset.univ.erase a, f b :=
    Finset.sum_congr rfl fun b member => other b (Finset.ne_of_mem_erase member)
  rw [← Finset.sum_erase_add _ _ (Finset.mem_univ a),rest,← Finset.sum_erase_add _ f (Finset.mem_univ a)]
  omega

theorem weightChange (boot : Boot) (command1 : BitVec 32) (increment done : Nat) (a : Fin 256) (q : List Ipi) (o : Other) :
    weight ⟨boot,command1,increment,done,Function.update s.flying a q,Function.update s.others a o⟩ + s.boot.weight +
      load (s.flying a) (s.others a) = weight s + boot.weight + load q o := by
  have change := sumChange (f := fun b => load (s.flying b) (s.others b))
    (g := fun b => load (Function.update s.flying a q b) (Function.update s.others a o b)) (a := a) (fun b other => by
      simp only [Function.update_of_ne other])
  simp only [Function.update_self] at change
  simp only [weight]
  omega

theorem weightBoot (boot : Boot) (command1 : BitVec 32) (increment done : Nat) :
    weight ⟨boot,command1,increment,done,s.flying,s.others⟩ + s.boot.weight = weight s + boot.weight := by
  simp only [weight]
  omega

theorem loadReceive (i : Ipi) (q : List Ipi) (o : Other) : load q (receive o i) < load (i::q) o := by
  have two : (i::q).length = q.length + 1 := rfl
  unfold load receive
  rw [two]
  cases i with
  | init =>
    cases o <;> dsimp only <;> omega
  | startup vector =>
    cases o <;> simp only [reduceCtorEq,if_true,if_false] <;> omega

theorem weightWrite (boot : Boot) (command0 : BitVec 32) :
    weight (writeCommand { s with boot } command0) + s.boot.weight ≤ weight s + boot.weight + 2 := by
  unfold writeCommand
  cases sentIpi command0 with
  | none =>
    have same := weightBoot (s := s) boot s.command1 s.startupIncrement s.startupDone
    dsimp only
    omega
  | some ipi =>
    have change := weightChange (s := s) boot s.command1 s.startupIncrement s.startupDone (sentTo s.command1)
      (s.flying (sentTo s.command1) ++ [ipi]) (s.others (sentTo s.command1))
    rw [Function.update_eq_self] at change
    have longer : load (s.flying (sentTo s.command1) ++ [ipi]) (s.others (sentTo s.command1)) =
        load (s.flying (sentTo s.command1)) (s.others (sentTo s.command1)) + 2 := by
      simp only [load,List.length_append,List.length_singleton]
      omega
    dsimp only
    omega

theorem bootStepWeight (step : bootStep kernel s = some s') : s' = s ∨ weight s' < weight s := by
  have stays : ∀ boot command1 increment done, boot.weight < s.boot.weight →
      weight ⟨boot,command1,increment,done,s.flying,s.others⟩ < weight s := by
    intro boot command1 increment done less
    have same := weightBoot (s := s) boot command1 increment done
    omega
  have sends : ∀ boot command0, boot.weight + 2 < s.boot.weight → weight (writeCommand { s with boot } command0) < weight s := by
    intro boot command0 less
    have written := weightWrite (s := s) boot command0
    omega
  cases boot : s.boot with
  | finished => simp only [bootStep,boot,reduceCtorEq] at step
  | loop rest =>
    cases rest with
    | nil =>
      simp only [bootStep,boot,Option.some.injEq] at step
      subst step
      exact Or.inr (stays _ _ _ _ (by rw [boot]; decide))
    | cons p rest =>
      simp only [bootStep,boot,Option.some.injEq] at step
      subst step
      refine Or.inr (stays _ _ _ _ ?_)
      rw [boot]
      split <;> simp only [Boot.weight,Stage.weight,List.length_cons] <;> omega
  | starting stage p rest =>
    cases stage with
    | resetIncrement | initDestination | startupDestination | repeatDestination =>
      simp only [bootStep,boot,Option.some.injEq] at step
      subst step
      refine Or.inr (stays _ _ _ _ ?_)
      rw [boot]
      simp only [Boot.weight,Stage.weight]
      omega
    | initCommand | startupCommand | repeatCommand =>
      simp only [bootStep,boot,Option.some.injEq] at step
      subst step
      refine Or.inr (sends _ _ ?_)
      rw [boot]
      simp only [Boot.weight,Stage.weight]
      omega
    | waiting =>
      simp only [bootStep,boot] at step
      split at step
      · exact Or.inl (Option.some.inj step).symm
      · cases Option.some.inj step
        refine Or.inr (stays _ _ _ _ ?_)
        rw [boot]
        simp only [Boot.weight,Stage.weight]
        omega

theorem stepWeight {e : Event} (step : next kernel s e = some s') : s' = s ∨ weight s' < weight s := by
  cases e with
  | boot => exact bootStepWeight step
  | deliver a =>
    obtain ⟨i,later,queue,rfl⟩ := delivered step
    have change := weightChange (s := s) s.boot s.command1 s.startupIncrement s.startupDone a later
      (receive (s.others a) i)
    have less := loadReceive i later (s.others a)
    rw [queue] at change
    exact Or.inr (by omega)
  | run a =>
    obtain ⟨starting,rfl⟩ := ran step
    have change := weightChange (s := s) s.boot s.command1 1 s.startupDone a (s.flying a) .halted
    rw [Function.update_eq_self,starting] at change
    simp only [load] at change
    exact Or.inr (by omega)

theorem askedMoves {vector k : Nat} {q : List Ipi} {o : Other} (asked : Asked vector (k+1) 0 q o) :
    (∃ i later, q = i::later) ∨ o = .starting (vector <<< 12) := by
  cases asked with
  | @before stale o old where_ =>
    cases stale with
    | nil => exact Or.inl ⟨_,_,rfl⟩
    | cons i stale => exact Or.inl ⟨_,_,rfl⟩
  | called => exact Or.inl ⟨_,_,rfl⟩
  | running first => exact Or.inr rfl

theorem deliverMoves {a : Fin 256} {i : Ipi} {later : List Ipi} (queue : s.flying a = i::later) :
    ∃ e s', next kernel s e = some s' ∧ s' ≠ s := by
  refine ⟨.deliver a,_,by simp only [next,queue]; rfl,fun same => ?_⟩
  have own := congrFun (congrArg State.flying same) a
  simp only [Function.update_self,queue] at own
  exact List.cons_ne_self i later own.symm

theorem writeBoot (boot : Boot) (command0 : BitVec 32) : (writeCommand { s with boot } command0).boot = boot := by
  unfold writeCommand
  cases sentIpi command0 <;> rfl

theorem soundMoves (aligned : kernel.startup16 % 4096 = 0) (low : kernel.startup16 < 2^20)
    (sound : Sound kernel processors visited s) (unfinished : s.boot ≠ .finished) : ∃ e s', next kernel s e = some s' ∧ s' ≠ s := by
  have moves : ∀ s', bootStep kernel s = some s' → s'.boot ≠ s.boot → ∃ e s', next kernel s e = some s' ∧ s' ≠ s :=
    fun s' step other => ⟨.boot,s',step,fun same => other (congrArg State.boot same)⟩
  cases boot : s.boot with
  | finished => exact absurd boot unfinished
  | loop rest =>
    cases rest with
    | nil =>
      refine moves _ (by simp only [bootStep,boot]; rfl) ?_
      rw [boot]
      exact fun h => by cases h
    | cons p rest =>
      refine moves _ (by simp only [bootStep,boot]; rfl) ?_
      rw [boot]
      dsimp only
      split
      · exact fun h => by cases h
      · exact fun h => List.cons_ne_self p rest (Boot.loop.inj h).symm
  | starting stage p rest =>
    cases stage with
    | resetIncrement | initDestination | startupDestination | repeatDestination =>
      refine moves _ (by simp only [bootStep,boot]; rfl) ?_
      rw [boot]
      exact fun h => by cases h
    | initCommand | startupCommand | repeatCommand =>
      refine moves _ (by simp only [bootStep,boot]; rfl) ?_
      rw [writeBoot,boot]
      exact fun h => by cases h
    | waiting =>
      have fits := sound.fits p.apicId
      rw [boot,roleHere rfl] at fits
      by_cases set : s.startupIncrement = 0
      · rw [set] at fits
        rcases askedMoves fits with ⟨i,later,queue⟩ | starting
        · exact deliverMoves queue
        · rw [vectorStarts aligned low] at starting
          refine ⟨.run p.apicId,_,by simp only [next,starting]; rfl,fun same => ?_⟩
          have own := congrFun (congrArg State.others same) p.apicId
          simp only [Function.update_self,starting] at own
          cases own
      · refine moves _ (by simp only [bootStep,boot,if_neg set]; rfl) ?_
        rw [boot]
        exact fun h => by cases h

def Changes (kernel : Kernel) (s : State) (e : Event) : Prop := next kernel s e ≠ some s

theorem startupEnds (aligned : kernel.startup16 % 4096 = 0) (low : kernel.startup16 < 2^20) {es : List Event}
    (run : ((system kernel processors).restrict (Changes kernel)).Run es s) :
    es.length ≤ 15*processors.length + 1 ∧
    (s.boot ≠ .finished → ∃ e s', Changes kernel s e ∧ next kernel s e = some s') := by
  constructor
  · have bound : ∀ {es : List Event} {s : State}, ((system kernel processors).restrict (Changes kernel)).Run es s →
        es.length + weight s ≤ 15*processors.length + 1 := by
      intro es s run
      induction run with
      | start first =>
        cases first
        simp [weight,Boot.weight,load]
      | @step es e s s' before move ih =>
        obtain ⟨changes,move⟩ := move
        have step : next kernel s e = some s' := move
        rcases stepWeight step with same | less
        · rw [same] at step
          exact absurd step changes
        · rw [List.length_cons]
          omega
    have := bound run
    omega
  · intro unfinished
    obtain ⟨visited,sound⟩ := soundSystem (vectorLow low) (restrictRun run)
    obtain ⟨e,s',step,other⟩ := soundMoves aligned low sound unfinished
    refine ⟨e,s',fun same => other ?_,step⟩
    exact Option.some.inj (step.symm.trans same)

theorem startupEndsFirst : ∃ s, ((system ⟨0x8000,0⟩ [⟨1,1⟩]).restrict (Changes ⟨0x8000,0⟩)).Run [.boot] s ∧
    ∃ e s', Changes ⟨0x8000,0⟩ s e ∧ next ⟨0x8000,0⟩ s e = some s' := by
  have changes : Changes ⟨0x8000,0⟩ ⟨.loop [⟨1,1⟩],0,0,0,fun _ => [],fun _ => .off⟩ .boot := fun same =>
    absurd (congrArg State.boot (Option.some.inj same)) (by decide)
  have run := TransitionRuns.System.Run.step (S := (system ⟨0x8000,0⟩ [⟨1,1⟩]).restrict (Changes ⟨0x8000,0⟩)) (.start rfl) ⟨changes,rfl⟩
  exact ⟨_,run,(startupEnds (by decide) (by decide) run).2 (by decide)⟩

end Kokos.ProcessorStartup

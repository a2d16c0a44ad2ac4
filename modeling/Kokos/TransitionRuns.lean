import Mathlib.Order.Interval.Finset.Nat

/-! Runs of a system that moves from state to state by events, the invariant rule
and the simulation rule. The events of a run are listed last first. -/
namespace Kokos.TransitionRuns

structure System (σ ε : Type) where
  start : σ → Prop
  step : σ → ε → σ → Prop

variable {σ τ ε δ : Type}

inductive System.Run (S : System σ ε) : List ε → σ → Prop where
  | start {s} (first : S.start s) : S.Run [] s
  | step {es e s s'} (before : S.Run es s) (move : S.step s e s') : S.Run (e::es) s'

theorem invariant {S : System σ ε} {I : σ → Prop} (first : ∀ s, S.start s → I s)
    (keeps : ∀ s e s', I s → S.step s e s' → I s') {es s} (run : S.Run es s) : I s := by
  induction run with
  | start h => exact first _ h
  | step before move ih => exact keeps _ _ _ ih move

def System.restrict (S : System σ ε) (allowed : σ → ε → Prop) : System σ ε where
  start := S.start
  step s e s' := allowed s e ∧ S.step s e s'

theorem restrictRun {S : System σ ε} {allowed : σ → ε → Prop} {es s} (run : (S.restrict allowed).Run es s) :
    S.Run es s := by
  induction run with
  | start h => exact .start h
  | step before move ih => exact .step ih move.2

theorem restrictExact {S : System σ ε} {I good : σ → Prop} {allowed : σ → ε → Prop}
    (first : ∀ s, S.start s → I s ∧ good s) (keeps : ∀ s e s', I s → S.step s e s' → I s')
    (exact_ : ∀ s e s', I s → good s → S.step s e s' → (good s' ↔ allowed s e)) {es s} :
    (S.restrict allowed).Run es s ↔ (S.restrict fun s _ => good s).Run es s ∧ good s := by
  have kept : ∀ {es s}, S.Run es s → I s := invariant (fun s start => (first s start).1) keeps
  constructor
  · intro run
    induction run with
    | start h => exact ⟨.start h,(first _ h).2⟩
    | step before move ih =>
      obtain ⟨goods,here⟩ := ih
      exact ⟨.step goods ⟨here,move.2⟩,(exact_ _ _ _ (kept (restrictRun before)) here move.2).mpr move.1⟩
  · rintro ⟨run,last⟩
    induction run with
    | start h => exact .start h
    | step before move ih =>
      obtain ⟨here,step⟩ := move
      exact .step (ih here) ⟨(exact_ _ _ _ (kept (restrictRun before)) here step).mp last,step⟩

theorem simulation {S : System σ ε} {A : System τ δ} {R : σ → τ → Prop}
    (first : ∀ s, S.start s → ∃ t, A.start t ∧ R s t)
    (moves : ∀ s t e s', R s t → S.step s e s' → R s' t ∨ ∃ d t', A.step t d t' ∧ R s' t')
    {es s} (run : S.Run es s) : ∃ ds t, A.Run ds t ∧ R s t := by
  induction run with
  | start h =>
    obtain ⟨t,ht,related⟩ := first _ h
    exact ⟨[],t,.start ht,related⟩
  | step before move ih =>
    obtain ⟨ds,t,there,related⟩ := ih
    rcases moves _ _ _ _ related move with same | ⟨d,t',step,related'⟩
    · exact ⟨ds,t,there,same⟩
    · exact ⟨d::ds,t',.step there step,related'⟩

def System.ofNext (init : σ) (next : σ → ε → Option σ) : System σ ε where
  start s := s = init
  step s e s' := next s e = some s'

def follow (next : σ → ε → Option σ) : σ → List ε → Option σ
  | s, [] => some s
  | s, e::es => (next s e).bind fun s' => follow next s' es

theorem followRun {S : System σ ε} {next : σ → ε → Option σ} (same : ∀ s e s', next s e = some s' → S.step s e s')
    {es before s s'} (run : S.Run before s) (path : follow next s es = some s') : S.Run (es.reverse ++ before) s' := by
  induction es generalizing before s with
  | nil =>
    cases Option.some.inj path
    exact run
  | cons e es ih =>
    obtain ⟨mid,move,rest⟩ := Option.bind_eq_some_iff.mp path
    have onward := ih (.step run (same _ _ _ move)) rest
    rwa [List.reverse_cons,List.append_assoc]

theorem followEnds {S : System σ ε} {next : σ → ε → Option σ} (same : ∀ s e s', next s e = some s' → S.step s e s')
    {es before s} {p : σ → Bool} (run : S.Run before s) (ends : (follow next s es).any p = true) :
    ∃ s', follow next s es = some s' ∧ S.Run (es.reverse ++ before) s' ∧ p s' = true := by
  cases path : follow next s es with
  | none =>
    rw [path] at ends
    cases ends
  | some s' =>
    rw [path] at ends
    exact ⟨s',rfl,followRun same run path,ends⟩

end Kokos.TransitionRuns

import Mathlib.Order.Interval.Finset.Nat

/-! Loops that go from state to state until their body leaves with a value. Some fuel
makes a loop return exactly if it ends; there is a rule for what holds when it ends, and
one for loops that never do. After them, iterators: a call is made again and again from
its own last result. -/
namespace Kokos.WhileLoops

variable {σ α : Type}

def loop (body : σ → σ ⊕ α) : Nat → σ → Option α
  | 0, _ => none
  | fuel+1, s => match body s with
    | .inl s' => loop body fuel s'
    | .inr a => some a

inductive Ends (body : σ → σ ⊕ α) : σ → α → Prop where
  | leave {s a} (here : body s = .inr a) : Ends body s a
  | goOn {s s' a} (here : body s = .inl s') (rest : Ends body s' a) : Ends body s a

variable {body : σ → σ ⊕ α} {s : σ} {a : α}

theorem endsOfLoop {fuel : Nat} (done : loop body fuel s = some a) : Ends body s a := by
  induction fuel generalizing s with
  | zero => cases done
  | succ fuel ih =>
    unfold loop at done
    cases here : body s with
    | inl s' =>
      rw [here] at done
      exact .goOn here (ih done)
    | inr b =>
      rw [here] at done
      exact .leave (here.trans (congrArg _ (Option.some.inj done)))

theorem loopOfEnds (ends : Ends body s a) : ∃ least, ∀ fuel, least ≤ fuel → loop body fuel s = some a := by
  induction ends with
  | leave here =>
    refine ⟨1,fun fuel enough => ?_⟩
    obtain ⟨fuel,rfl⟩ : ∃ n, fuel = n+1 := ⟨fuel-1,by omega⟩
    rw [loop,here]
  | goOn here _ ih =>
    obtain ⟨least,rest⟩ := ih
    refine ⟨least+1,fun fuel enough => ?_⟩
    obtain ⟨fuel,rfl⟩ : ∃ n, fuel = n+1 := ⟨fuel-1,by omega⟩
    rw [loop,here]
    exact rest fuel (by omega)

theorem loopEnds : (∃ fuel, loop body fuel s = some a) ↔ Ends body s a := by
  constructor
  · rintro ⟨fuel,done⟩
    exact endsOfLoop done
  · intro ends
    obtain ⟨least,done⟩ := loopOfEnds ends
    exact ⟨least,done least (Nat.le_refl _)⟩

theorem endsKept {I : σ → Prop} (keeps : ∀ s s', I s → body s = .inl s' → I s') (first : I s) (ends : Ends body s a) :
    ∃ s', I s' ∧ body s' = .inr a := by
  induction ends with
  | leave here => exact ⟨_,first,here⟩
  | goOn here _ ih => exact ih (keeps _ _ first here)

theorem neverEnds {I : σ → Prop} (moves : ∀ s, I s → ∃ s', body s = .inl s' ∧ I s') (first : I s) : ¬ Ends body s a := by
  intro ends
  induction ends with
  | leave here =>
    obtain ⟨s',there,_⟩ := moves _ first
    rw [here] at there
    cases there
  | goOn here _ ih =>
    obtain ⟨s',there,kept⟩ := moves _ first
    rw [here] at there
    cases there
    exact ih kept

/-! The results of an iterator's calls, up to the first result that is `stop`. -/

inductive Gathers (R : σ → σ → Prop) (stop : σ) : σ → List σ → Prop where
  | last {previous} (here : R previous stop) : Gathers R stop previous []
  | more {previous next rest} (here : R previous next) (goesOn : next ≠ stop) (later : Gathers R stop next rest) :
      Gathers R stop previous (next::rest)

variable {R : σ → σ → Prop} {stop : σ} {results : List σ}

section Iterators
variable [DecidableEq σ] {call : Nat → σ → Option σ}

def gather (call : Nat → σ → Option σ) (stop : σ) : Nat → σ → Option (List σ)
  | 0, _ => none
  | fuel+1, s => match call fuel s with
    | none => none
    | some next => if next = stop then some [] else (gather call stop fuel next).map (next :: ·)

theorem gathersOfGather (sound : ∀ fuel s r, call fuel s = some r → R s r) {fuel : Nat}
    (done : gather call stop fuel s = some results) : Gathers R stop s results := by
  induction fuel generalizing s results with
  | zero => cases done
  | succ fuel ih =>
    unfold gather at done
    cases here : call fuel s with
    | none =>
      rw [here] at done
      cases done
    | some next =>
      rw [here] at done
      simp only at done
      split at done
      · rename_i atStop
        rw [← Option.some.inj done]
        exact .last (atStop ▸ sound _ _ _ here)
      · rename_i goesOn
        obtain ⟨rest,later,same⟩ := Option.map_eq_some_iff.mp done
        exact same ▸ .more (sound _ _ _ here) goesOn (ih later)

theorem gatherOfGathers (complete : ∀ s r, R s r → ∃ least, ∀ fuel, least ≤ fuel → call fuel s = some r)
    (gathers : Gathers R stop s results) : ∃ least, ∀ fuel, least ≤ fuel → gather call stop fuel s = some results := by
  induction gathers with
  | last here =>
    obtain ⟨least,returns⟩ := complete _ _ here
    refine ⟨least+1,fun fuel enough => ?_⟩
    obtain ⟨fuel,rfl⟩ : ∃ n, fuel = n+1 := ⟨fuel-1,by omega⟩
    simp only [gather,returns fuel (by omega),if_true]
  | more here goesOn _ ih =>
    obtain ⟨least,returns⟩ := complete _ _ here
    obtain ⟨least',later⟩ := ih
    refine ⟨max least least' + 1,fun fuel enough => ?_⟩
    obtain ⟨fuel,rfl⟩ : ∃ n, fuel = n+1 := ⟨fuel-1,by omega⟩
    simp only [gather,returns fuel (by omega),goesOn,if_false,later fuel (by omega),Option.map_some]

end Iterators

end Kokos.WhileLoops

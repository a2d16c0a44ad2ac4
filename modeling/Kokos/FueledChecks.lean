import Kokos.CountedLoops
import Kokos.WhileLoops

/-! Calls that return once they have enough fuel, with what they return, and checks in a row
that accept with a value or reject with a reason. What does not return for any fuel neither
accepts nor rejects. -/
namespace Kokos.FueledChecks
open CountedLoops WhileLoops

variable {σ α β ε : Type}

structure Gives (call : Nat → Option α) (results : α → Prop) : Prop where
  complete : ∀ a, results a → ∃ least, ∀ fuel, least ≤ fuel → call fuel = some a
  sound : ∀ fuel a, call fuel = some a → results a

abbrev Checked (ε α : Type) := Except (Option ε) α

def returned (o : Option α) : Checked ε α := o.elim (.error none) .ok

def require (p : Prop) [Decidable p] (e : ε) : Checked ε Unit := if p then .ok () else .error (some e)

structure Settles (check : Nat → Checked ε α) (accepts : α → Prop) (rejects : ε → Prop) : Prop where
  accepted : ∀ a, accepts a → ∃ least, ∀ fuel, least ≤ fuel → check fuel = .ok a
  rejected : ∀ e, rejects e → ∃ least, ∀ fuel, least ≤ fuel → check fuel = .error (some e)
  acceptedOnly : ∀ fuel a, check fuel = .ok a → accepts a
  rejectedOnly : ∀ fuel e, check fuel = .error (some e) → rejects e

section
variable {call : Nat → Option α} {results : α → Prop}

theorem endsSame {body : σ → σ ⊕ α} {s : σ} {a b : α} (ends : Ends body s a) (ends' : Ends body s b) : a = b := by
  induction ends with
  | leave here =>
    cases ends' with
    | leave there => exact Sum.inr.inj (here.symm.trans there)
    | goOn there _ => cases here.symm.trans there
  | goOn here _ ih =>
    cases ends' with
    | leave there => cases here.symm.trans there
    | goOn there rest => exact ih (Sum.inl.inj (here.symm.trans there) ▸ rest)

theorem givesEnd {body : σ → σ ⊕ α} {s : σ} {a : α} (ends : Ends body s a) : Gives (fun fuel => loop body fuel s) fun b => b = a :=
  ⟨fun _ same => same ▸ loopOfEnds ends,fun _ _ done => endsSame (endsOfLoop done) ends⟩

theorem givesLoop (body : σ → σ ⊕ α) (s : σ) : Gives (fun fuel => loop body fuel s) (Ends body s) :=
  ⟨fun _ ends => loopOfEnds ends,fun _ _ done => endsOfLoop done⟩

theorem givesSome (o : Option α) : Gives (fun _ => o) fun a => o = some a :=
  ⟨fun _ here => ⟨0,fun _ _ => here⟩,fun _ _ here => here⟩

theorem givesCongr {results' : α → Prop} (gives : Gives call results) (same : ∀ a, results a ↔ results' a) : Gives call results' :=
  ⟨fun a result => gives.complete a ((same a).mpr result),fun fuel a here => (same a).mp (gives.sound fuel a here)⟩

theorem givesBind {next : α → Nat → Option β} {results' : α → β → Prop} (gives : Gives call results)
    (gives' : ∀ a, results a → Gives (next a) (results' a)) :
    Gives (fun fuel => (call fuel).bind fun a => next a fuel) fun b => ∃ a, results a ∧ results' a b := by
  refine ⟨?_,fun fuel b done => ?_⟩
  · rintro b ⟨a,first,second⟩
    obtain ⟨least,here⟩ := gives.complete a first
    obtain ⟨least',there⟩ := (gives' a first).complete b second
    refine ⟨max least least',fun fuel enough => ?_⟩
    rw [here fuel (by omega),Option.bind_some,there fuel (by omega)]
  · obtain ⟨a,here,there⟩ := Option.bind_eq_some_iff.mp done
    exact ⟨a,gives.sound fuel a here,(gives' a (gives.sound fuel a here)).sound fuel b there⟩

theorem givesMap (f : α → β) (gives : Gives call results) : Gives (fun fuel => (call fuel).map f) fun b => ∃ a, results a ∧ f a = b := by
  refine ⟨?_,fun fuel b done => ?_⟩
  · rintro b ⟨a,result,rfl⟩
    obtain ⟨least,here⟩ := gives.complete a result
    exact ⟨least,fun fuel enough => by rw [here fuel enough]; rfl⟩
  · obtain ⟨a,here,same⟩ := Option.map_eq_some_iff.mp done
    exact ⟨a,gives.sound fuel a here,same⟩

theorem givesUp {n : Nat} {pass : Nat → Nat → Option (List α)} {results : Nat → List α → Prop}
    (each : ∀ i < n, Gives (pass i) (results i)) :
    Gives (fun fuel => tryUp n (fun i all => (pass i fuel).map (all ++ ·)) []) fun all =>
      ∃ parts : Nat → List α, (∀ i < n, results i (parts i)) ∧ all = (List.range n).flatMap parts := by
  induction n with
  | zero =>
    refine ⟨?_,fun fuel all done => ⟨fun _ => [],fun i none => absurd none (Nat.not_lt_zero i),(Option.some.inj done).symm⟩⟩
    rintro _ ⟨_,_,rfl⟩
    exact ⟨0,fun _ _ => rfl⟩
  | succ n ih =>
    have earlier := ih fun i inside => each i (Nat.lt_succ_of_lt inside)
    have last := fun all : List α => givesMap (all ++ ·) (each n (Nat.lt_succ_self n))
    refine givesCongr (givesBind earlier fun all _ => last all) fun all => ?_
    constructor
    · rintro ⟨_,⟨parts,before,rfl⟩,part,here,rfl⟩
      refine ⟨Function.update parts n part,fun i inside => ?_,?_⟩
      · by_cases this : i = n
        · subst this
          rw [Function.update_self]
          exact here
        · rw [Function.update_of_ne this]
          exact before i (by omega)
      · rw [List.range_succ,List.flatMap_append,List.flatMap_singleton,Function.update_self]
        refine congrArg (· ++ part) (List.flatMap_congr fun i member => ?_)
        rw [Function.update_of_ne (List.mem_range.mp member).ne]
    · rintro ⟨parts,each,rfl⟩
      refine ⟨_,⟨parts,fun i inside => each i (by omega),rfl⟩,parts n,each n (Nat.lt_succ_self n),?_⟩
      rw [List.range_succ,List.flatMap_append,List.flatMap_singleton]

theorem settlesReturned (gives : Gives call results) :
    Settles (ε := ε) (fun fuel => returned (call fuel)) results fun _ => False := by
  refine ⟨fun a result => ?_,fun _ => False.elim,fun fuel a done => ?_,fun fuel e done => ?_⟩
  · obtain ⟨least,here⟩ := gives.complete a result
    exact ⟨least,fun fuel enough => by rw [here fuel enough]; rfl⟩
  · cases here : call fuel with
    | none =>
      rw [here] at done
      cases done
    | some b =>
      rw [here] at done
      exact Except.ok.inj done ▸ gives.sound fuel b here
  · cases here : call fuel with
    | none =>
      rw [here] at done
      cases done
    | some b =>
      rw [here] at done
      cases done

theorem settlesRequire (p : Prop) [Decidable p] (e : ε) :
    Settles (fun _ => require p e) (fun _ => p) fun e' => ¬ p ∧ e' = e := by
  unfold require
  by_cases holds : p
  · simp only [if_pos holds]
    exact ⟨fun _ _ => ⟨0,fun _ _ => rfl⟩,fun _ fails => absurd holds fails.1,fun _ _ _ => holds,fun _ _ done => (by cases done)⟩
  · simp only [if_neg holds]
    refine ⟨fun _ held => absurd held holds,?_,fun _ _ done => (by cases done),fun _ e' done => ?_⟩
    · rintro _ ⟨_,rfl⟩
      exact ⟨0,fun _ _ => rfl⟩
    · cases done
      exact ⟨holds,rfl⟩

theorem settlesOk (a : α) : Settles (ε := ε) (fun _ => .ok a) (fun b => b = a) fun _ => False :=
  ⟨fun _ same => ⟨0,fun _ _ => same ▸ rfl⟩,fun _ => False.elim,fun _ _ done => (Except.ok.inj done).symm,fun _ _ done => (by cases done)⟩

variable {check : Nat → Checked ε α} {accepts accepts' : α → Prop} {rejects rejects' : ε → Prop}

theorem settlesCongr (settles : Settles check accepts rejects) (same : ∀ a, accepts a ↔ accepts' a)
    (same' : ∀ e, rejects e ↔ rejects' e) : Settles check accepts' rejects' where
  accepted a yes := settles.accepted a ((same a).mpr yes)
  rejected e no := settles.rejected e ((same' e).mpr no)
  acceptedOnly fuel a done := (same a).mp (settles.acceptedOnly fuel a done)
  rejectedOnly fuel e done := (same' e).mp (settles.rejectedOnly fuel e done)

theorem settlesBind {next : α → Nat → Checked ε β} {accepts' : α → β → Prop} {rejects' : α → ε → Prop}
    (settles : Settles check accepts rejects) (settles' : ∀ a, accepts a → Settles (next a) (accepts' a) (rejects' a)) :
    Settles (fun fuel => check fuel >>= fun a => next a fuel) (fun b => ∃ a, accepts a ∧ accepts' a b)
      fun e => rejects e ∨ ∃ a, accepts a ∧ rejects' a e := by
  refine ⟨?_,?_,fun fuel b done => ?_,fun fuel e done => ?_⟩
  · rintro b ⟨a,yes,yes'⟩
    obtain ⟨least,here⟩ := settles.accepted a yes
    obtain ⟨least',there⟩ := (settles' a yes).accepted b yes'
    refine ⟨max least least',fun fuel enough => ?_⟩
    rw [here fuel (by omega)]
    exact there fuel (by omega)
  · rintro e (no | ⟨a,yes,no⟩)
    · obtain ⟨least,here⟩ := settles.rejected e no
      exact ⟨least,fun fuel enough => by rw [here fuel enough]; rfl⟩
    · obtain ⟨least,here⟩ := settles.accepted a yes
      obtain ⟨least',there⟩ := (settles' a yes).rejected e no
      refine ⟨max least least',fun fuel enough => ?_⟩
      rw [here fuel (by omega)]
      exact there fuel (by omega)
  · cases here : check fuel with
    | error stop =>
      rw [here] at done
      cases done
    | ok a =>
      rw [here] at done
      have yes := settles.acceptedOnly fuel a here
      exact ⟨a,yes,(settles' a yes).acceptedOnly fuel b done⟩
  · cases here : check fuel with
    | error stop =>
      rw [here] at done
      cases done
      exact Or.inl (settles.rejectedOnly fuel e here)
    | ok a =>
      rw [here] at done
      have yes := settles.acceptedOnly fuel a here
      exact Or.inr ⟨a,yes,(settles' a yes).rejectedOnly fuel e done⟩

end

end Kokos.FueledChecks

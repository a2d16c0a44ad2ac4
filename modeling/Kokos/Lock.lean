import Kokos.TransitionRuns

/-! The spin lock of lock.c, taken by any number of CPUs. A step is one atomic access
to the lock word, or a CPU's decision to call one of the three functions. -/
namespace Kokos.Lock
open TransitionRuns

/-- Where a CPU is: outside, before the compare-exchange of lock_acquire, in its inner
loop, before the one of lock_try_acquire, after a successful acquire, and in
lock_release before the store. -/
inductive Phase where | idle | acquiring | spinning | trying | holding | releasing
  deriving DecidableEq, Repr

/-- `lock cmpxchg`: eax and the operand afterwards. -/
def lockCmpxchg (operand eax source : BitVec 32) : BitVec 32 × BitVec 32 :=
  if operand = eax then (eax,source) else (operand,operand)

inductive Action where | callAcquire | callTryAcquire | callRelease | access
  deriving DecidableEq, Repr

def advance (word : BitVec 32) : Phase → Action → Option (Phase × BitVec 32)
  | .idle, .callAcquire => some (.acquiring,word)
  | .idle, .callTryAcquire => some (.trying,word)
  | .holding, .callRelease => some (.releasing,word)
  | .acquiring, .access =>
    let (compareValue,word) := lockCmpxchg word 0 1
    some (if compareValue = 0 then .holding else .spinning,word)
  | .spinning, .access => some (if word = 0 then .acquiring else .spinning,word)
  | .trying, .access =>
    let (compareValue,word) := lockCmpxchg word 0 1
    some (if compareValue = 0 then .holding else .idle,word)
  | .releasing, .access => some (.idle,0)
  | _, _ => none

structure State (ι : Type) where
  word : BitVec 32
  phase : ι → Phase

variable {ι : Type} [DecidableEq ι]

def next (s : State ι) (event : ι × Action) : Option (State ι) := do
  let (phase,word) ← advance s.word (s.phase event.1) event.2
  some ⟨word,Function.update s.phase event.1 phase⟩

def system (ι : Type) [DecidableEq ι] : System (State ι) (ι × Action) := .ofNext ⟨0,fun _ => .idle⟩ next

def Phase.inside (p : Phase) : Bool := p = .holding ∨ p = .releasing

/-! The abstract lock: it has an owner or none. -/

inductive Transfer (ι : Type) : Option ι → ι → Option ι → Prop where
  | take {c} : Transfer ι none c (some c)
  | give {c} : Transfer ι (some c) c none

def owners (ι : Type) : System (Option ι) ι := ⟨fun o => o = none,Transfer ι⟩

structure Owned (s : State ι) (owner : Option ι) : Prop where
  word : s.word = if owner.isSome then 1 else 0
  inside : ∀ c, (s.phase c).inside = true ↔ owner = some c

theorem advanceCases {word word' : BitVec 32} {p p' : Phase} {a : Action} (go : advance word p a = some (p',word')) :
    (word' = word ∧ p'.inside = p.inside) ∨
    (word = 0 ∧ word' = 1 ∧ p.inside = false ∧ p'.inside = true) ∨
    (word' = 0 ∧ p.inside = true ∧ p'.inside = false) := by
  cases p <;> cases a <;> simp only [advance,reduceCtorEq,Option.some.injEq,Prod.mk.injEq] at go
  case idle.callAcquire | idle.callTryAcquire | holding.callRelease =>
    obtain ⟨rfl,rfl⟩ := go
    exact Or.inl ⟨rfl,rfl⟩
  case spinning.access =>
    obtain ⟨rfl,rfl⟩ := go
    refine Or.inl ⟨rfl,?_⟩
    split <;> rfl
  case releasing.access =>
    obtain ⟨rfl,rfl⟩ := go
    exact Or.inr (Or.inr ⟨rfl,rfl,rfl⟩)
  case acquiring.access | trying.access =>
    unfold lockCmpxchg at go
    by_cases free : word = 0
    · rw [if_pos free] at go
      obtain ⟨rfl,rfl⟩ := go
      exact Or.inr (Or.inl ⟨free,rfl,rfl,rfl⟩)
    · rw [if_neg free] at go
      obtain ⟨rfl,rfl⟩ := go
      rw [if_neg free]
      exact Or.inl ⟨rfl,rfl⟩

theorem ownedStep {s s' : State ι} {owner : Option ι} {e : ι × Action} (owned : Owned s owner) (move : next s e = some s') :
    Owned s' owner ∨ ∃ owner', Transfer ι owner e.1 owner' ∧ Owned s' owner' := by
  obtain ⟨c,a⟩ := e
  obtain ⟨⟨p',word'⟩,go,made⟩ := Option.bind_eq_some_iff.mp move
  cases Option.some.inj made
  have other : ∀ d, d ≠ c → Function.update s.phase c p' d = s.phase d :=
    fun d different => Function.update_of_ne different _ _
  rcases advanceCases go with ⟨rfl,same⟩ | ⟨free,rfl,outside,inside⟩ | ⟨rfl,inside,outside⟩
  · refine Or.inl ⟨owned.word,fun d => ?_⟩
    by_cases this : d = c
    · subst this
      rw [← owned.inside d]
      simp only [Function.update_self,same]
    · simp only [other d this]
      exact owned.inside d
  · -- The word was 0, so nobody owned the lock.
    have none : owner = none := by
      have word := owned.word
      rw [free] at word
      cases owner with
      | none => rfl
      | some d => exact absurd word (by simp)
    subst none
    refine Or.inr ⟨some c,.take,rfl,fun d => ?_⟩
    by_cases this : d = c
    · subst this
      simp [inside]
    · have empty := (owned.inside d).mp
      simp only [other d this,Option.some.injEq]
      exact ⟨fun h => absurd (empty h) (by simp),fun h => absurd h.symm this⟩
  · have own : owner = some c := (owned.inside c).mp inside
    subst own
    refine Or.inr ⟨none,.give,rfl,fun d => ?_⟩
    by_cases this : d = c
    · subst this
      simp [outside]
    · have held := (owned.inside d).mp
      simp only [other d this]
      exact ⟨fun h => absurd (Option.some.inj (held h)).symm this,fun h => nomatch h⟩

theorem ownedRun {es : List (ι × Action)} {s : State ι} (run : (system ι).Run es s) :
    ∃ ds owner, (owners ι).Run ds owner ∧ Owned s owner := by
  refine simulation (R := Owned) ?_ ?_ run
  · rintro s rfl
    exact ⟨none,rfl,rfl,fun c => by simp [Phase.inside]⟩
  · intro s owner e s' owned move
    rcases ownedStep owned move with same | ⟨owner',transfer,owned'⟩
    · exact Or.inl same
    · exact Or.inr ⟨e.1,owner',transfer,owned'⟩

theorem lockExclusive {es : List (ι × Action)} {s : State ι} (run : (system ι).Run es s) :
    (∀ c d, (s.phase c).inside = true → (s.phase d).inside = true → c = d) ∧
    (s.word = 1 ↔ ∃ c, (s.phase c).inside = true) ∧ (s.word = 0 ↔ ¬ ∃ c, (s.phase c).inside = true) := by
  obtain ⟨_,owner,_,owned⟩ := ownedRun run
  have word := owned.word
  have inside : (∃ c, (s.phase c).inside = true) ↔ owner.isSome = true := by
    rw [Option.isSome_iff_exists]
    exact exists_congr owned.inside
  refine ⟨fun c d hc hd => ?_,?_,?_⟩
  · exact Option.some.inj (((owned.inside c).mp hc).symm.trans ((owned.inside d).mp hd))
  · rw [inside,word]
    cases owner.isSome <;> decide
  · rw [inside,word]
    cases owner.isSome <;> decide

theorem lockExclusiveTwoCpus : ∃ es s, (system (Fin 2)).Run es s ∧ s.phase 1 = .holding ∧ s.word = 1 ∧
    ∀ c, (s.phase c).inside = true → c = 1 := by
  have ends : (follow (next (ι := Fin 2)) ⟨0,fun _ => .idle⟩ [(0,.callAcquire),(1,.callAcquire),(0,.access),(1,.access),
      (1,.access),(0,.callRelease),(0,.access),(1,.access),(1,.access)]).any
      (fun s => decide (s.phase 1 = .holding)) = true := by decide
  obtain ⟨s,_,run,holds⟩ := followEnds (S := system (Fin 2)) (fun _ _ _ move => move) (.start rfl) ends
  have holds : s.phase 1 = .holding := of_decide_eq_true holds
  have inside : (s.phase 1).inside = true := by rw [holds]; rfl
  obtain ⟨alone,word,_⟩ := lockExclusive run
  exact ⟨_,s,run,holds,word.mpr ⟨1,inside⟩,fun c hc => alone c 1 hc inside⟩

end Kokos.Lock

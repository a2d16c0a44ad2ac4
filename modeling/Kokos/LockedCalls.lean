import Kokos.Lock
import Kokos.LockedSections

/-! CPUs that call functions which take one lock on entry and give it back at the end. A
step is one access to the lock word or to the shared memory; `finished` lists the calls
whose lock_release has stored, last first. -/
namespace Kokos.LockedCalls
open TransitionRuns LockedSections

variable {ι σ κ α ρ : Type}

inductive Activity (σ κ α : Type) where
  | outside
  | calling (call : κ) (position : α)
  | storing (write : σ → σ)

structure Cpus (ι σ κ α ρ : Type) where
  lock : Lock.State ι
  memory : σ
  activity : ι → Activity σ κ α
  finished : List (ι × κ × ρ)

inductive Action (κ : Type) where
  | call (call : κ)
  | lockAccess
  | access
  | release
  | store
  deriving DecidableEq, Repr

def afterwards (B : Sections σ κ α ρ) (k : κ) (r : ρ) : Activity σ κ α :=
  match B.after k r with
  | none => .outside
  | some write => .storing write

def started (first : σ) : Cpus ι σ κ α ρ := ⟨⟨0,fun _ => .idle⟩,first,fun _ => .outside,[]⟩

def Placed (B : Sections σ κ α ρ) (finished : List (ι × κ × ρ)) : Lock.Phase → Activity σ κ α → Prop
  | .idle, .outside => True
  | .idle, .storing write => B.Late finished write
  | .acquiring, .calling k p | .spinning, .calling k p => p = B.enter k
  | .holding, .calling _ _ => True
  | .releasing, .calling _ p => (B.result p).isSome = true
  | _, _ => False

variable {B : Sections σ κ α ρ} {first : σ} {h : List (ι × κ × ρ)} {phase : Lock.Phase}

theorem placedCons {activity : Activity σ κ α} (placed : Placed B h phase activity) (e : ι × κ × ρ) :
    Placed B (e::h) phase activity := by
  cases phase <;> cases activity <;> simp only [Placed] at placed ⊢
  case idle.storing => exact lateCons placed e
  all_goals exact placed

theorem placedAfterwards {c : ι} {k : κ} {r : ρ} : Placed B ((c,k,r)::h) .idle (afterwards B k r) := by
  unfold afterwards
  cases written : B.after k r with
  | none => exact trivial
  | some write => exact ⟨c,k,r,List.mem_cons_self ..,written⟩

structure Follows (B : Sections σ κ α ρ) (s : Cpus ι σ κ α ρ) (t : State ι σ κ α ρ) : Prop where
  owned : Lock.Owned s.lock (t.inside.map Prod.fst)
  memory : t.memory = s.memory
  finished : t.finished = s.finished
  placed : ∀ c, Placed B s.finished (s.lock.phase c) (s.activity c)
  calling : ∀ c k p, t.inside = some (c,k,p) → s.activity c = .calling k p

theorem followsStarted (first : σ) : Follows B (started first : Cpus ι σ κ α ρ) ⟨none,first,[]⟩ where
  owned := ⟨rfl,fun c => by simp [started,Lock.Phase.inside]⟩
  memory := rfl
  finished := rfl
  placed := fun _ => trivial
  calling := fun _ _ _ inside => by cases inside

theorem followsInside {s : Cpus ι σ κ α ρ} {t : State ι σ κ α ρ} (follows : Follows B s t) {c : ι} {k : κ} {p : α}
    (calling : s.activity c = .calling k p) (own : t.inside.map Prod.fst = some c) : t.inside = some (c,k,p) := by
  obtain ⟨⟨d,k',p'⟩,there,rfl⟩ := Option.map_eq_some_iff.mp own
  have same := follows.calling _ _ _ there
  rw [calling] at same
  cases same
  exact there

variable [DecidableEq ι]

def next (B : Sections σ κ α ρ) (s : Cpus ι σ κ α ρ) (event : ι × Action κ) : Option (Cpus ι σ κ α ρ) :=
  let c := event.1
  match event.2, s.activity c with
  | .call k, .outside => do
    let lock ← Lock.next s.lock (c,.callAcquire)
    some { s with lock, activity := Function.update s.activity c (.calling k (B.enter k)) }
  | .lockAccess, .calling k p => do
    let lock ← Lock.next s.lock (c,.access)
    match lock.phase c, B.result p with
    | .idle, some r =>
      some ⟨lock,s.memory,Function.update s.activity c (afterwards B k r),(c,k,r)::s.finished⟩
    | _, _ => some { s with lock }
  | .access, .calling k p =>
    if s.lock.phase c = .holding then do
      let (p,memory) ← B.access p s.memory
      some { s with memory, activity := Function.update s.activity c (.calling k p) }
    else none
  | .release, .calling _ p =>
    if (B.result p).isSome then do
      let lock ← Lock.next s.lock (c,.callRelease)
      some { s with lock }
    else none
  | .store, .storing write => some { s with memory := write s.memory, activity := Function.update s.activity c .outside }
  | _, _ => none

def system (B : Sections σ κ α ρ) (first : σ) : System (Cpus ι σ κ α ρ) (ι × Action κ) := .ofNext (started first) (next B)

inductive Move (B : Sections σ κ α ρ) (s : Cpus ι σ κ α ρ) : ι × Action κ → Cpus ι σ κ α ρ → Prop where
  | call {c k lock} (outside : s.activity c = .outside) (moved : Lock.next s.lock (c,.callAcquire) = some lock) :
      Move B s (c,.call k) { s with lock, activity := Function.update s.activity c (.calling k (B.enter k)) }
  | lockAccess {c k p lock} (calling : s.activity c = .calling k p) (moved : Lock.next s.lock (c,.access) = some lock)
      (goesOn : lock.phase c ≠ .idle ∨ B.result p = none) : Move B s (c,.lockAccess) { s with lock }
  | released {c k p r lock} (calling : s.activity c = .calling k p) (moved : Lock.next s.lock (c,.access) = some lock)
      (free : lock.phase c = .idle) (done : B.result p = some r) :
      Move B s (c,.lockAccess) ⟨lock,s.memory,Function.update s.activity c (afterwards B k r),(c,k,r)::s.finished⟩
  | access {c k p p' memory} (calling : s.activity c = .calling k p) (holding : s.lock.phase c = .holding)
      (accessed : B.access p s.memory = some (p',memory)) :
      Move B s (c,.access) { s with memory, activity := Function.update s.activity c (.calling k p') }
  | release {c k p lock} (calling : s.activity c = .calling k p) (done : (B.result p).isSome = true)
      (moved : Lock.next s.lock (c,.callRelease) = some lock) : Move B s (c,.release) { s with lock }
  | store {c write} (storing : s.activity c = .storing write) :
      Move B s (c,.store) { s with memory := write s.memory, activity := Function.update s.activity c .outside }

theorem nextMove {s s' : Cpus ι σ κ α ρ} {e : ι × Action κ} (step : next B s e = some s') : Move B s e s' := by
  obtain ⟨c,a⟩ := e
  unfold next at step
  cases a <;> cases at_ : s.activity c <;> simp only [at_,reduceCtorEq] at step
  case call.outside k =>
    obtain ⟨lock,moved,made⟩ := Option.bind_eq_some_iff.mp step
    cases Option.some.inj made
    exact .call at_ moved
  case lockAccess.calling k p =>
    obtain ⟨lock,moved,made⟩ := Option.bind_eq_some_iff.mp step
    cases phase : lock.phase c <;> cases done : B.result p <;> simp only [phase,done,Option.some.injEq] at made <;> subst made
    case idle.some r => exact .released at_ moved phase done
    case idle.none => exact .lockAccess at_ moved (Or.inr done)
    all_goals exact .lockAccess at_ moved (Or.inl (by rw [phase]; decide))
  case access.calling k p =>
    split at step
    · rename_i holding
      obtain ⟨⟨p',memory⟩,accessed,made⟩ := Option.bind_eq_some_iff.mp step
      cases Option.some.inj made
      exact .access at_ holding accessed
    · cases step
  case release.calling k p =>
    split at step
    · rename_i done
      obtain ⟨lock,moved,made⟩ := Option.bind_eq_some_iff.mp step
      cases Option.some.inj made
      exact .release at_ done moved
    · cases step
  case store.storing write =>
    cases Option.some.inj step
    exact .store at_

/-! The lock's owner over one of its accesses, and the CPU that made it. -/

variable {l l' : Lock.State ι} {owner : Option ι} {e : ι × Lock.Action}

theorem ownerStays (owned : Lock.Owned l owner) (move : Lock.next l e = some l')
    (same : (l'.phase e.1).inside = (l.phase e.1).inside) : Lock.Owned l' owner := by
  rcases Lock.ownedStep owned move with stays | ⟨owner',transfer,owned'⟩
  · exact stays
  · have before := owned.inside e.1
    have after := owned'.inside e.1
    rw [same,before] at after
    cases transfer <;> simp at after

theorem ownerTakes (owned : Lock.Owned l owner) (move : Lock.next l e = some l') (before : (l.phase e.1).inside = false)
    (after : (l'.phase e.1).inside = true) : owner = none ∧ Lock.Owned l' (some e.1) := by
  have not : owner ≠ some e.1 := fun own => by
    have := (owned.inside e.1).mpr own
    rw [before] at this
    cases this
  rcases Lock.ownedStep owned move with stays | ⟨owner',transfer,owned'⟩
  · exact absurd ((stays.inside e.1).mp after) not
  · cases transfer with
    | take => exact ⟨rfl,owned'⟩
    | give => exact absurd rfl not

theorem ownerGives (owned : Lock.Owned l owner) (move : Lock.next l e = some l') (before : (l.phase e.1).inside = true)
    (after : (l'.phase e.1).inside = false) : owner = some e.1 ∧ Lock.Owned l' none := by
  have own : owner = some e.1 := (owned.inside e.1).mp before
  rcases Lock.ownedStep owned move with stays | ⟨owner',transfer,owned'⟩
  · have := (stays.inside e.1).mpr own
    rw [after] at this
    cases this
  · subst own
    cases transfer
    exact ⟨rfl,owned'⟩

theorem lockMoved (move : Lock.next l e = some l') :
    ∃ p w, Lock.advance l.word (l.phase e.1) e.2 = some (p,w) ∧ l'.phase e.1 = p ∧ ∀ d, d ≠ e.1 → l'.phase d = l.phase d := by
  obtain ⟨⟨p,w⟩,go,made⟩ := Option.bind_eq_some_iff.mp move
  cases Option.some.inj made
  exact ⟨p,w,go,Function.update_self ..,fun d other => Function.update_of_ne other _ _⟩

theorem placedUpdate {activity : ι → Activity σ κ α} {c : ι} {activity' : Activity σ κ α}
    (placed : ∀ d, Placed B h (l.phase d) (activity d)) (other : ∀ d, d ≠ c → l'.phase d = l.phase d)
    (own : Placed B h (l'.phase c) activity') (d : ι) : Placed B h (l'.phase d) (Function.update activity c activity' d) := by
  by_cases same : d = c
  · subst same
    rwa [Function.update_self]
  · rw [Function.update_of_ne same,other d same]
    exact placed d

theorem callingUpdate {activity : ι → Activity σ κ α} {inside : Option (ι × κ × α)} {c : ι} {activity' : Activity σ κ α}
    (calling : ∀ d k p, inside = some (d,k,p) → activity d = .calling k p) (away : inside.map Prod.fst ≠ some c)
    (d : ι) (k : κ) (p : α) (there : inside = some (d,k,p)) : Function.update activity c activity' d = .calling k p := by
  have other : d ≠ c := fun same => away (by rw [there,same]; rfl)
  rw [Function.update_of_ne other]
  exact calling d k p there

theorem accessMoved {c : ι} {k : κ} {p : α} (placed : Placed B h (l.phase c) (.calling k p))
    (move : Lock.next l (c,.access) = some l') :
    (p = B.enter k ∧ (l.phase c).inside = false ∧ (l'.phase c = .acquiring ∨ l'.phase c = .spinning)) ∨
    (p = B.enter k ∧ (l.phase c).inside = false ∧ l'.phase c = .holding) ∨
    ((B.result p).isSome = true ∧ (l.phase c).inside = true ∧ l'.phase c = .idle) := by
  obtain ⟨q,w,go,phase',_⟩ := lockMoved move
  dsimp only at go phase'
  rw [phase']
  cases phase : l.phase c <;> simp only [phase,Placed,Lock.advance,reduceCtorEq,Option.some.injEq,Prod.mk.injEq] at placed go
  case acquiring =>
    obtain ⟨rfl,_⟩ := go
    split
    · exact Or.inr (Or.inl ⟨placed,rfl,rfl⟩)
    · exact Or.inl ⟨placed,rfl,Or.inr rfl⟩
  case spinning =>
    obtain ⟨rfl,_⟩ := go
    split
    · exact Or.inl ⟨placed,rfl,Or.inl rfl⟩
    · exact Or.inl ⟨placed,rfl,Or.inr rfl⟩
  case releasing =>
    obtain ⟨rfl,_⟩ := go
    exact Or.inr (Or.inr ⟨placed,rfl,rfl⟩)

theorem followsOutside {s : Cpus ι σ κ α ρ} {t : State ι σ κ α ρ} {c : ι} {a : Lock.Action} {lock : Lock.State ι}
    {w : Activity σ κ α} (follows : Follows B s t) (moved : Lock.next s.lock (c,a) = some lock)
    (same : (lock.phase c).inside = (s.lock.phase c).inside) (own : Placed B s.finished (lock.phase c) w)
    (unmoved : w = s.activity c ∨ (s.lock.phase c).inside = false) :
    Follows B { s with lock, activity := Function.update s.activity c w } t := by
  obtain ⟨_,_,_,_,other⟩ := lockMoved moved
  refine ⟨ownerStays follows.owned moved same,follows.memory,follows.finished,placedUpdate follows.placed other own,?_⟩
  rcases unmoved with rfl | outside
  · rw [Function.update_eq_self]
    exact follows.calling
  · refine callingUpdate follows.calling fun own => ?_
    rw [(follows.owned.inside c).mpr own] at outside
    cases outside

theorem followsTakes {s : Cpus ι σ κ α ρ} {t : State ι σ κ α ρ} {c : ι} {k : κ} {lock : Lock.State ι} (follows : Follows B s t)
    (calling : s.activity c = .calling k (B.enter k)) (moved : Lock.next s.lock (c,.access) = some lock)
    (before : (s.lock.phase c).inside = false) (after : lock.phase c = .holding) :
    ∃ t', Step B t c t' ∧ Follows B { s with lock } t' := by
  obtain ⟨_,_,_,_,other⟩ := lockMoved moved
  obtain ⟨free,owned⟩ := ownerTakes follows.owned moved before (by rw [after]; rfl)
  obtain ⟨inside,memory,finished⟩ := t
  cases Option.map_eq_none_iff.mp free
  refine ⟨⟨some (c,k,B.enter k),memory,finished⟩,.enter,owned,follows.memory,follows.finished,?_,?_⟩
  · have own : Placed B s.finished (lock.phase c) (s.activity c) := by
      rw [after,calling]
      exact trivial
    have placed := placedUpdate follows.placed other own
    rwa [Function.update_eq_self] at placed
  · rintro d k' p' there
    cases there
    exact calling

theorem followsGives {s : Cpus ι σ κ α ρ} {t : State ι σ κ α ρ} {c : ι} {k : κ} {p : α} {r : ρ} {lock : Lock.State ι}
    (follows : Follows B s t) (calling : s.activity c = .calling k p) (moved : Lock.next s.lock (c,.access) = some lock)
    (before : (s.lock.phase c).inside = true) (after : lock.phase c = .idle) (done : B.result p = some r) :
    ∃ t', Step B t c t' ∧
      Follows B ⟨lock,s.memory,Function.update s.activity c (afterwards B k r),(c,k,r)::s.finished⟩ t' := by
  obtain ⟨_,_,_,_,other⟩ := lockMoved moved
  obtain ⟨own,owned⟩ := ownerGives follows.owned moved before (by rw [after]; rfl)
  have there := followsInside follows calling own
  obtain ⟨inside,memory,finished⟩ := t
  cases there
  cases follows.finished
  refine ⟨⟨none,memory,(c,k,r)::s.finished⟩,.leave done,owned,follows.memory,rfl,?_,fun _ _ _ there => by cases there⟩
  refine placedUpdate (fun d => placedCons (follows.placed d) _) other ?_
  rw [after]
  exact placedAfterwards

theorem followsStep {s s' : Cpus ι σ κ α ρ} {t : State ι σ κ α ρ} {e : ι × Action κ} (follows : Follows B s t)
    (step : next B s e = some s') : Follows B s' t ∨ ∃ t', Step B t e.1 t' ∧ Follows B s' t' := by
  obtain ⟨c,a⟩ := e
  have placed := follows.placed c
  cases nextMove step with
  | call outside moved =>
    obtain ⟨q,w,go,phase',_⟩ := lockMoved moved
    rw [outside] at placed
    dsimp only at outside moved go phase' placed ⊢
    cases phase : s.lock.phase c <;> simp only [phase,Placed] at placed
    simp only [phase,Lock.advance,Option.some.injEq,Prod.mk.injEq] at go
    obtain ⟨rfl,_⟩ := go
    refine Or.inl (followsOutside follows moved ?_ ?_ (Or.inr ?_))
    · rw [phase',phase]; rfl
    · rw [phase']; rfl
    · rw [phase]; rfl
  | @lockAccess _ k p lock calling moved goesOn =>
    dsimp only at calling moved goesOn placed ⊢
    rw [calling] at placed
    rcases accessMoved placed moved with ⟨rfl,before,after⟩ | ⟨rfl,before,after⟩ | ⟨done,_,after⟩
    · refine Or.inl ?_
      have stays := followsOutside (w := s.activity c) follows moved ?_ ?_ (Or.inl rfl)
      · rwa [Function.update_eq_self] at stays
      · rw [before]
        rcases after with after | after <;> rw [after] <;> rfl
      · rw [calling]
        rcases after with after | after <;> rw [after] <;> rfl
    · exact Or.inr (followsTakes follows calling moved before after)
    · rcases goesOn with other | unfinished
      · exact absurd after other
      · rw [unfinished] at done
        cases done
  | @released _ k p r lock calling moved free done =>
    dsimp only at calling moved free placed ⊢
    rw [calling] at placed
    rcases accessMoved placed moved with ⟨_,_,after⟩ | ⟨_,_,after⟩ | ⟨_,before,_⟩
    · rw [free] at after
      rcases after with after | after <;> cases after
    · rw [free] at after
      cases after
    · exact Or.inr (followsGives follows calling moved before free done)
  | @access _ k p p' memory calling holding accessed =>
    dsimp only at calling holding placed ⊢
    have own := (follows.owned.inside c).mp (by rw [holding]; rfl)
    have there := followsInside follows calling own
    obtain ⟨inside,memory₀,finished⟩ := t
    cases there
    cases follows.memory
    refine Or.inr ⟨⟨some (c,k,p'),memory,finished⟩,.work accessed,follows.owned,rfl,follows.finished,?_,?_⟩
    · refine placedUpdate follows.placed (fun _ _ => rfl) ?_
      rw [holding]
      exact trivial
    · rintro d k₁ p₁ same
      cases same
      exact Function.update_self ..
  | @release _ k p lock calling done moved =>
    obtain ⟨q,w,go,phase',_⟩ := lockMoved moved
    dsimp only at calling moved go phase' placed ⊢
    cases phase : s.lock.phase c <;> simp only [phase,Lock.advance,reduceCtorEq,Option.some.injEq,Prod.mk.injEq] at go
    obtain ⟨rfl,_⟩ := go
    have stays := followsOutside (w := s.activity c) follows moved ?_ ?_ (Or.inl rfl)
    · rw [Function.update_eq_self] at stays
      exact Or.inl stays
    · rw [phase',phase]; rfl
    · rw [phase',calling]
      exact done
  | @store _ write storing =>
    dsimp only at storing placed ⊢
    rw [storing] at placed
    cases phase : s.lock.phase c <;> simp only [phase,Placed] at placed
    obtain ⟨inside,memory,finished⟩ := t
    cases follows.memory
    cases follows.finished
    refine Or.inr ⟨⟨inside,write s.memory,s.finished⟩,.write placed,follows.owned,rfl,rfl,?_,?_⟩
    · refine placedUpdate follows.placed (fun _ _ => rfl) ?_
      rw [phase]
      exact trivial
    · refine callingUpdate follows.calling fun own => ?_
      have inside := (follows.owned.inside c).mpr own
      rw [phase] at inside
      cases inside

theorem followsRun {es : List (ι × Action κ)} {s : Cpus ι σ κ α ρ} (run : (system B first).Run es s) :
    ∃ ds t, (LockedSections.system B first).Run ds t ∧ Follows B s t := by
  refine simulation (R := Follows B) ?_ ?_ run
  · rintro s rfl
    exact ⟨⟨none,first,[]⟩,rfl,followsStarted first⟩
  · intro s t e s' follows step
    rcases followsStep follows step with same | ⟨t',move,follows'⟩
    · exact Or.inl same
    · exact Or.inr ⟨e.1,t',move,follows'⟩

theorem callsSerial {meaning : κ → σ → ρ → σ → Prop} {path : κ → α → σ → σ → Prop} (means : Means B meaning path)
    {es : List (ι × Action κ)} {s : Cpus ι σ κ α ρ} (run : (system B first).Run es s) :
    ∃ m₀, Serial B meaning first s.finished m₀ ∧ (s.lock.word = 0 → s.memory = m₀) := by
  obtain ⟨ds,⟨inside,memory,finished⟩,run',follows⟩ := followsRun run
  obtain ⟨⟨word,_⟩,memory',finished',_,_⟩ := follows
  dsimp only at memory' finished' word
  cases accountedRun means run' with
  | free serial => exact ⟨memory,finished' ▸ serial,fun _ => memory'.symm⟩
  | busy serial there | disturbed serial there late =>
    refine ⟨_,finished' ▸ serial,fun free => ?_⟩
    rw [free] at word
    cases word

end Kokos.LockedCalls

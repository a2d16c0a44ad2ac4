import Kokos.TransitionRuns

/-! Threads that work on shared memory inside one exclusive section, an access at a time,
and may make one more write after they left it. The calls that finished are a serial
execution in the order in which they left. -/
namespace Kokos.LockedSections
open TransitionRuns

/-- Memory `σ`, calls `κ`, positions `α` inside the section, results `ρ`. -/
structure Sections (σ κ α ρ : Type) where
  enter : κ → α
  access : α → σ → Option (α × σ)
  result : α → Option ρ
  after : κ → ρ → Option (σ → σ)

variable {ι σ κ α ρ : Type}

structure State (ι σ κ α ρ : Type) where
  inside : Option (ι × κ × α)
  memory : σ
  finished : List (ι × κ × ρ)

def Sections.Late (B : Sections σ κ α ρ) (finished : List (ι × κ × ρ)) (write : σ → σ) : Prop :=
  ∃ c k r, (c,k,r) ∈ finished ∧ B.after k r = some write

inductive Step (B : Sections σ κ α ρ) : State ι σ κ α ρ → ι → State ι σ κ α ρ → Prop where
  | enter {c k m h} : Step B ⟨none,m,h⟩ c ⟨some (c,k,B.enter k),m,h⟩
  | work {c k p p' m m' h} (access : B.access p m = some (p',m')) : Step B ⟨some (c,k,p),m,h⟩ c ⟨some (c,k,p'),m',h⟩
  | leave {c k p m h r} (done : B.result p = some r) : Step B ⟨some (c,k,p),m,h⟩ c ⟨none,m,(c,k,r)::h⟩
  | write {c i m h write} (late : B.Late h write) : Step B ⟨i,m,h⟩ c ⟨i,write m,h⟩

def system (B : Sections σ κ α ρ) (first : σ) : System (State ι σ κ α ρ) ι := ⟨fun s => s = ⟨none,first,[]⟩,Step B⟩

inductive Serial (B : Sections σ κ α ρ) (meaning : κ → σ → ρ → σ → Prop) (first : σ) : List (ι × κ × ρ) → σ → Prop where
  | start : Serial B meaning first [] first
  | call {h m m' c k r} (before : Serial B meaning first h m) (runs : meaning k m r m') :
      Serial B meaning first ((c,k,r)::h) m'
  | write {h m write} (before : Serial B meaning first h m) (late : B.Late h write) : Serial B meaning first h (write m)

/-- `path k p m₀ m`: a call that entered with memory `m₀` is at `p` with memory `m`, where no
other thread wrote. A late write in the middle is seen by nobody inside, or is undone, or
might as well have been made before the call. -/
structure Means (B : Sections σ κ α ρ) (meaning : κ → σ → ρ → σ → Prop) (path : κ → α → σ → σ → Prop) : Prop where
  enter : ∀ k m, path k (B.enter k) m m
  work : ∀ {k p m₀ m p' m'}, path k p m₀ m → B.access p m = some (p',m') → path k p' m₀ m'
  leave : ∀ {k p m₀ m r}, path k p m₀ m → B.result p = some r → meaning k m₀ r m
  late : ∀ {k p m₀ m k' r' write}, path k p m₀ m → B.after k' r' = some write →
    B.access p (write m) = (B.access p m).map (Prod.map id write) ∨
    B.access p (write m) = B.access p m ∨
    path k p (write m₀) (write m)
  last : ∀ {k r k' r' before after}, B.after k r = some before → B.after k' r' = some after →
    ∀ m, after (before m) = after m

variable {B : Sections σ κ α ρ} {meaning : κ → σ → ρ → σ → Prop} {path : κ → α → σ → σ → Prop} {first : σ}

inductive Accounted (B : Sections σ κ α ρ) (meaning : κ → σ → ρ → σ → Prop) (path : κ → α → σ → σ → Prop) (first : σ) :
    State ι σ κ α ρ → Prop where
  | free {m h} (serial : Serial B meaning first h m) : Accounted B meaning path first ⟨none,m,h⟩
  | busy {c k p m₀ m h} (serial : Serial B meaning first h m₀) (there : path k p m₀ m) :
      Accounted B meaning path first ⟨some (c,k,p),m,h⟩
  | disturbed {c k p m₀ m h write} (serial : Serial B meaning first h m₀) (there : path k p m₀ m) (late : B.Late h write) :
      Accounted B meaning path first ⟨some (c,k,p),write m,h⟩

theorem lateMember {h : List (ι × κ × ρ)} {write : σ → σ} (late : B.Late h write) : ∃ k r, B.after k r = some write := by
  obtain ⟨_,k,r,_,written⟩ := late
  exact ⟨k,r,written⟩

theorem lateCons {h : List (ι × κ × ρ)} {write : σ → σ} (late : B.Late h write) (e : ι × κ × ρ) : B.Late (e::h) write := by
  obtain ⟨c,k,r,member,written⟩ := late
  exact ⟨c,k,r,List.mem_cons_of_mem _ member,written⟩

theorem accountedDisturbed {c : ι} {k p m₀ m h write p' m'} (means : Means B meaning path)
    (serial : Serial B meaning first h m₀) (there : path k p m₀ m) (late : B.Late h write)
    (access : B.access p (write m) = some (p',m')) : Accounted B meaning path first ⟨some (c,k,p'),m',h⟩ := by
  obtain ⟨_,_,written⟩ := lateMember late
  rcases means.late there written with unseen | undone | rebased
  · rw [unseen] at access
    obtain ⟨⟨q,n⟩,plain,moved⟩ := Option.map_eq_some_iff.mp access
    cases moved
    exact .disturbed serial (means.work there plain) late
  · rw [undone] at access
    exact .busy serial (means.work there access)
  · exact .busy (.write serial late) (means.work rebased access)

theorem accountedStep (means : Means B meaning path) {s s' : State ι σ κ α ρ} {c : ι}
    (accounted : Accounted B meaning path first s) (step : Step B s c s') : Accounted B meaning path first s' := by
  cases step with
  | enter =>
    cases accounted with
    | free serial => exact .busy serial (means.enter _ _)
  | work access =>
    cases accounted with
    | busy serial there => exact .busy serial (means.work there access)
    | disturbed serial there late => exact accountedDisturbed means serial there late access
  | leave done =>
    cases accounted with
    | busy serial there => exact .free (.call serial (means.leave there done))
    | disturbed serial there late =>
      exact .free (.write (.call serial (means.leave there done)) (lateCons late _))
  | write late =>
    cases accounted with
    | free serial => exact .free (.write serial late)
    | busy serial there => exact .disturbed serial there late
    | disturbed serial there before =>
      obtain ⟨_,_,written⟩ := lateMember late
      obtain ⟨_,_,overwritten⟩ := lateMember before
      rw [means.last overwritten written]
      exact .disturbed serial there late

theorem accountedRun (means : Means B meaning path) {es : List ι} {s : State ι σ κ α ρ} (run : (system B first).Run es s) :
    Accounted B meaning path first s := by
  refine invariant ?_ ?_ run
  · rintro s rfl
    exact .free .start
  · exact fun s c s' accounted step => accountedStep means accounted step

theorem serialKeeps {I : σ → Prop} (start : I first) (late : ∀ {k r write}, B.after k r = some write → ∀ m, I m → I (write m))
    {h : List (ι × κ × ρ)} {m : σ} (serial : Serial B (fun k m r m' => I m → meaning k m r m' ∧ I m') first h m) :
    Serial B meaning first h m ∧ I m := by
  induction serial with
  | start => exact ⟨.start,start⟩
  | call _ runs ih =>
    obtain ⟨before,well⟩ := ih
    obtain ⟨means,well'⟩ := runs well
    exact ⟨.call before means,well'⟩
  | write _ written ih =>
    obtain ⟨before,well⟩ := ih
    obtain ⟨_,_,written'⟩ := lateMember written
    exact ⟨.write before written,late written' _ well⟩

/-! A call's meaning from its section run alone. -/

inductive Alone (B : Sections σ κ α ρ) : α → σ → ρ → σ → Prop where
  | done {p m r} (result : B.result p = some r) : Alone B p m r m
  | step {p m p' m' r m''} (access : B.access p m = some (p',m')) (rest : Alone B p' m' r m'') : Alone B p m r m''

theorem aloneStep {p p' : α} {m m' m'' : σ} {r : ρ} (alone : Alone B p m r m'') (goesOn : B.result p = none)
    (access : B.access p m = some (p',m')) : Alone B p' m' r m'' := by
  cases alone with
  | done result =>
    rw [goesOn] at result
    cases result
  | step accessed rest =>
    rw [access] at accessed
    cases accessed
    exact rest

theorem aloneDone {p : α} {m m' : σ} {r r' : ρ} (alone : Alone B p m r' m') (result : B.result p = some r)
    (stops : B.access p m = none) : r' = r ∧ m' = m := by
  cases alone with
  | done result' =>
    rw [result] at result'
    exact ⟨(Option.some.inj result').symm,rfl⟩
  | step access _ =>
    rw [stops] at access
    cases access

structure Correct (B : Sections σ κ α ρ) (meaning : κ → σ → ρ → σ → Prop) (reads : α → Prop) : Prop where
  alone : ∀ {k m r m'}, Alone B (B.enter k) m r m' → meaning k m r m'
  onward : ∀ {p m p' m'}, B.access p m = some (p',m') → ¬ reads p'
  late : ∀ {p k r write}, B.after k r = some write → reads p ∨
    (∀ m, B.access p (write m) = (B.access p m).map (Prod.map id write)) ∨ ∀ m, B.access p (write m) = B.access p m
  last : ∀ {k r k' r' before after}, B.after k r = some before → B.after k' r' = some after →
    ∀ m, after (before m) = after m

def Path (B : Sections σ κ α ρ) (meaning : κ → σ → ρ → σ → Prop) (reads : α → Prop) (k : κ) (p : α) (m₀ m : σ) : Prop :=
  (reads p → p = B.enter k ∧ m = m₀) ∧ ∀ r m', Alone B p m r m' → meaning k m₀ r m'

theorem meansOfCorrect {reads : α → Prop} (correct : Correct B meaning reads) : Means B meaning (Path B meaning reads) where
  enter _ _ := ⟨fun _ => ⟨rfl,rfl⟩,fun _ _ alone => correct.alone alone⟩
  work there access := ⟨fun reads => absurd reads (correct.onward access),fun r m' rest => there.2 r m' (.step access rest)⟩
  leave there done := there.2 _ _ (.done done)
  late there written := by
    rcases correct.late written with reads | unseen | undone
    · obtain ⟨rfl,rfl⟩ := there.1 reads
      exact Or.inr (Or.inr ⟨fun _ => ⟨rfl,rfl⟩,fun _ _ alone => correct.alone alone⟩)
    · exact Or.inl (unseen _)
    · exact Or.inr (Or.inl (undone _))
  last := correct.last

end Kokos.LockedSections

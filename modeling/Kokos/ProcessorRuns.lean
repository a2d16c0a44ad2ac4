import Kokos.ProcessorStartup

/-! Runs of the startup protocol: each other processor is started once at a time, on the
address of cpu_startup16, and halted when kernel_main goes on. -/
namespace Kokos.ProcessorStartup
open TransitionRuns ByteMemory Acpi

variable {kernel : Kernel} {processors : List Processor} {visited : List (Fin 256)} {s s' : State}

theorem delivered {a : Fin 256} (step : next kernel s (.deliver a) = some s') : ∃ i later, s.flying a = i::later ∧
    s' = { s with
      flying := Function.update s.flying a later
      others := Function.update s.others a (receive (s.others a) i) } := by
  simp only [next] at step
  split at step
  · cases step
  · rename_i i later queue
    exact ⟨i,later,queue,(Option.some.inj step).symm⟩

theorem ran {a : Fin 256} (step : next kernel s (.run a) = some s') : s.others a = .starting kernel.startup16 ∧
    s' = { s with startupIncrement := 1, others := Function.update s.others a .halted } := by
  simp only [next] at step
  split at step
  · rename_i starting
    exact ⟨starting,(Option.some.inj step).symm⟩
  · cases step

theorem settledNotAsked {a : Fin 256} {k : Nat} : settledRole visited a ≠ .asked k := by
  unfold settledRole
  split <;> exact fun h => by cases h

theorem roleAsked {boot : Boot} {a : Fin 256} {k : Nat} (asked : role visited boot a = .asked k) :
    ∃ stage p rest, boot = .starting stage p rest ∧ stage.sent = some k ∧ a = p.apicId := by
  cases boot with
  | loop | finished => exact absurd asked settledNotAsked
  | starting stage p rest =>
    simp only [role] at asked
    cases sent : stage.sent with
    | none =>
      rw [sent] at asked
      exact absurd asked settledNotAsked
    | some n =>
      simp only [sent] at asked
      by_cases same : a = p.apicId
      · rw [if_pos same] at asked
        cases asked
        exact ⟨stage,p,rest,rfl,sent,same⟩
      · rw [if_neg same] at asked
        exact absurd asked settledNotAsked

theorem roleHere {stage : Stage} {p : Processor} {rest : List Processor} {k : Nat} (sent : stage.sent = some k) :
    role visited (.starting stage p rest) p.apicId = .asked k := by
  simp [role,sent]

theorem roleElsewhere {stage : Stage} {p : Processor} {rest : List Processor} {a : Fin 256} (other : a ≠ p.apicId) :
    role visited (.starting stage p rest) a = settledRole visited a := by
  simp only [role]
  cases stage.sent with
  | none => rfl
  | some k => exact if_neg other

theorem roleBefore {stage : Stage} {p : Processor} {rest : List Processor} {a : Fin 256} (unsent : stage.sent = none) :
    role visited (.starting stage p rest) a = settledRole visited a := by
  simp [role,unsent]

theorem soundDeliver {a : Fin 256} (sound : Sound kernel processors visited s) (step : next kernel s (.deliver a) = some s') :
    Sound kernel processors visited s' := by
  obtain ⟨i,later,queue,rfl⟩ := delivered step
  refine ⟨sound.order,sound.ready,fun b => ?_⟩
  have fits := sound.fits b
  by_cases same : b = a
  · subst same
    rw [queue] at fits
    simp only [Function.update_self]
    exact fitsReceive fits
  · simp only [Function.update_of_ne same]
    exact fits

theorem soundRun {a : Fin 256} (sound : Sound kernel processors visited s) (step : next kernel s (.run a) = some s') :
    Sound kernel processors visited s' := by
  obtain ⟨starting,rfl⟩ := ran step
  have fits := sound.fits a
  rw [starting] at fits
  obtain ⟨_,k,asked,through⟩ := fitsRun fits
  obtain ⟨stage,p,rest,boot,sent,rfl⟩ := roleAsked asked
  refine ⟨sound.order,?_,fun b => ?_⟩
  · -- the increment is set after INIT was sent, so no earlier stage relies on it
    have ready := sound.ready
    unfold Ready at ready ⊢
    simp only [boot] at ready ⊢
    refine ⟨ready.1,fun early => ?_,ready.2.2⟩
    rcases early with rfl | rfl <;> cases sent
  · by_cases same : b = p.apicId
    · subst same
      simp only [Function.update_self,asked]
      exact through
    · have fits := sound.fits b
      simp only [Function.update_of_ne same]
      rw [boot,roleElsewhere same] at fits ⊢
      exact settledFits 1 fits

theorem soundStage {stage stage' : Stage} {p : Processor} {rest : List Processor} {command1 : BitVec 32} {increment : Nat}
    (sound : Sound kernel processors visited s) (boot : s.boot = .starting stage p rest) (sent : stage'.sent = stage.sent)
    (unread : stage.sent = none ∨ increment = s.startupIncrement)
    (ready : Ready { s with boot := .starting stage' p rest, command1, startupIncrement := increment }) :
    Sound kernel processors visited { s with boot := .starting stage' p rest, command1, startupIncrement := increment } := by
  have order := sound.order
  rw [boot] at order
  refine ⟨order,ready,fun b => ?_⟩
  have fits := sound.fits b
  rw [boot] at fits
  have same : role visited (.starting stage' p rest) b = role visited (.starting stage p rest) b := by
    simp only [role,sent]
  dsimp only
  rw [same]
  rcases unread with none | rfl
  · rw [roleBefore none] at fits ⊢
    exact settledFits increment fits
  · exact fits

theorem writeSends {a : Fin 256} {command0 : BitVec 32} {ipi : Ipi} (sends : sentIpi command0 = some ipi)
    (toward : s.command1 = destination a) :
    writeCommand s command0 = { s with flying := Function.update s.flying a (s.flying a ++ [ipi]) } := by
  unfold writeCommand
  rw [sends,toward,destinationSent]

theorem soundSend {stage stage' : Stage} {p : Processor} {rest : List Processor} {command0 : BitVec 32} {ipi : Ipi} {k : Nat}
    (sound : Sound kernel processors visited s) (boot : s.boot = .starting stage p rest) (sends : sentIpi command0 = some ipi)
    (toward : s.command1 = destination p.apicId) (sent : stage'.sent = some k)
    (fits : Fits kernel.vector (.asked k) s.startupIncrement (s.flying p.apicId ++ [ipi]) (s.others p.apicId))
    (quiet : stage' ≠ .initDestination ∧ stage' ≠ .initCommand ∧ stage' ≠ .startupCommand ∧ stage' ≠ .repeatCommand) :
    Sound kernel processors visited (writeCommand { s with boot := .starting stage' p rest } command0) := by
  have order := sound.order
  have ready := sound.ready
  unfold Ready at ready
  rw [boot] at order ready
  have written := writeSends (s := { s with boot := .starting stage' p rest }) sends toward
  rw [written]
  refine ⟨order,⟨ready.1,fun early => ?_,fun _ => toward⟩,fun b => ?_⟩
  · rcases early with same | same
    · exact absurd same quiet.1
    · exact absurd same quiet.2.1
  · by_cases same : b = p.apicId
    · subst same
      simp only [Function.update_self]
      rw [roleHere sent]
      exact fits
    · simp only [Function.update_of_ne same]
      have others := sound.fits b
      rw [boot,roleElsewhere same] at others
      rw [roleElsewhere same]
      exact others

theorem targetsCons (own : Fin 256) (p : Processor) (rest : List Processor) :
    targets own (p::rest) = if Started own p then p.apicId::targets own rest else targets own rest := by
  unfold targets
  rw [List.filter_cons]
  by_cases started : Started own p <;> simp [started]

theorem soundHead {p : Processor} {rest : List Processor} (sound : Sound kernel processors visited s)
    (boot : s.boot = .loop (p::rest)) :
    Sound kernel processors visited
      { s with boot := if Started kernel.own p then .starting .resetIncrement p rest else .loop rest } := by
  have order := sound.order
  have ready := sound.ready
  unfold Ready at ready
  rw [boot] at order ready
  rw [Boot.rest,targetsCons] at order
  by_cases started : Started kernel.own p
  · rw [if_pos started] at order ⊢
    refine ⟨order,⟨ready,fun early => ?_,fun command => ?_⟩,fun b => ?_⟩
    · rcases early with same | same <;> cases same
    · rcases command with same | same | same <;> cases same
    · have fits := sound.fits b
      rwa [boot] at fits
  · rw [if_neg started] at order ⊢
    refine ⟨order,ready,fun b => ?_⟩
    have fits := sound.fits b
    rwa [boot] at fits

theorem soundThrough {p : Processor} {rest : List Processor} (sound : Sound kernel processors visited s)
    (boot : s.boot = .starting .waiting p rest) (set : s.startupIncrement ≠ 0) :
    Sound kernel processors (visited ++ [p.apicId]) { s with boot := .loop rest } := by
  have order := sound.order
  have ready := sound.ready
  unfold Ready at ready
  rw [boot] at order ready
  refine ⟨?_,ready.1,fun b => ?_⟩
  · rw [List.append_assoc]
    exact order
  · have fits := sound.fits b
    rw [boot] at fits
    change Fits _ (settledRole _ _) _ _ _
    by_cases same : b = p.apicId
    · subst same
      rw [roleHere rfl] at fits
      rw [settledLast]
      exact askedThrough fits set
    · rw [roleElsewhere same] at fits
      rw [settledCons same]
      exact fits

theorem soundBoot (bound : kernel.vector ≤ 255) (sound : Sound kernel processors visited s)
    (step : next kernel s .boot = some s') : ∃ visited', Sound kernel processors visited' s' := by
  obtain ⟨boot,command1,increment,done,flying,others⟩ := s
  have ready := sound.ready
  cases boot with
  | finished => cases step
  | loop rest =>
    cases rest with
    | nil =>
      cases Option.some.inj step
      exact ⟨visited,sound.order,rfl,sound.fits⟩
    | cons p rest =>
      cases Option.some.inj step
      exact ⟨visited,soundHead sound rfl⟩
  | starting stage p rest =>
    have own := sound.fits p.apicId
    cases stage with
    | resetIncrement =>
      cases Option.some.inj step
      refine ⟨visited,soundStage sound rfl rfl (Or.inl rfl) ⟨ready.1,fun _ => rfl,fun command => ?_⟩⟩
      rcases command with same | same | same <;> cases same
    | initDestination =>
      cases Option.some.inj step
      exact ⟨visited,soundStage sound rfl rfl (Or.inl rfl) ⟨ready.1,fun _ => ready.2.1 (Or.inl rfl),fun _ => rfl⟩⟩
    | initCommand =>
      cases Option.some.inj step
      have zero : increment = 0 := ready.2.1 (Or.inr rfl)
      rw [roleBefore rfl] at own
      refine ⟨visited,soundSend sound rfl initSent (ready.2.2 (Or.inl rfl)) rfl ?_ (by decide)⟩
      rw [show _ = 0 from zero]
      exact askedInit own
    | startupDestination =>
      cases Option.some.inj step
      refine ⟨visited,soundStage sound rfl rfl (Or.inr rfl) ⟨ready.1,fun early => ?_,fun _ => rfl⟩⟩
      rcases early with same | same <;> cases same
    | startupCommand =>
      cases Option.some.inj step
      rw [roleHere rfl] at own
      exact ⟨visited,soundSend sound rfl (startupSent bound) (ready.2.2 (Or.inr (Or.inl rfl))) rfl (askedStartup own) (by decide)⟩
    | repeatDestination =>
      cases Option.some.inj step
      refine ⟨visited,soundStage sound rfl rfl (Or.inr rfl) ⟨ready.1,fun early => ?_,fun _ => rfl⟩⟩
      rcases early with same | same <;> cases same
    | repeatCommand =>
      cases Option.some.inj step
      rw [roleHere rfl] at own
      exact ⟨visited,soundSend sound rfl (startupSent bound) (ready.2.2 (Or.inr (Or.inr rfl))) rfl (askedStartup own) (by decide)⟩
    | waiting =>
      simp only [next,bootStep] at step
      split at step
      · cases Option.some.inj step
        exact ⟨visited,sound⟩
      · rename_i set
        cases Option.some.inj step
        exact ⟨_,soundThrough sound rfl set⟩

theorem soundSystem (bound : kernel.vector ≤ 255) {es : List Event} (run : (system kernel processors).Run es s) :
    ∃ visited, Sound kernel processors visited s := by
  refine invariant (I := fun s => ∃ visited, Sound kernel processors visited s) ?_ ?_ run
  · rintro s rfl
    exact ⟨[],rfl,rfl,fun a => ⟨rfl,rfl⟩⟩
  · rintro s e s' ⟨visited,sound⟩ step
    cases e with
    | boot => exact soundBoot bound sound step
    | deliver a => exact ⟨visited,soundDeliver sound step⟩
    | run a => exact ⟨visited,soundRun sound step⟩

theorem vectorLow (low : kernel.startup16 < 2^20) : kernel.vector ≤ 255 := by
  unfold Kernel.vector
  rw [Nat.shiftRight_eq_div_pow]
  omega

theorem vectorStarts (aligned : kernel.startup16 % 4096 = 0) (low : kernel.startup16 < 2^20) :
    kernel.vector <<< 12 = kernel.startup16 := by
  unfold Kernel.vector
  rw [Nat.shiftRight_eq_div_pow,Nat.shiftLeft_eq]
  omega

theorem soundStarting {a : Fin 256} {address : Nat} (sound : Sound kernel processors visited s)
    (starting : s.others a = .starting address) : address = kernel.vector <<< 12 ∧
    a ∈ targets kernel.own processors ∧ ∃ stage p rest, s.boot = .starting stage p rest ∧ a = p.apicId := by
  have fits := sound.fits a
  rw [starting] at fits
  obtain ⟨value,k,asked,_⟩ := fitsRun fits
  obtain ⟨stage,p,rest,boot,_,rfl⟩ := roleAsked asked
  have order := sound.order
  rw [boot] at order
  refine ⟨value,?_,stage,p,rest,boot,rfl⟩
  rw [← order]
  exact List.mem_append_right _ (List.mem_cons_self ..)

theorem soundOff {a : Fin 256} (sound : Sound kernel processors visited s) (no : a ∉ targets kernel.own processors) :
    s.others a = .off ∧ s.flying a = [] := by
  have order := sound.order
  have unseen : a ∉ visited := fun seen => no (order ▸ List.mem_append_left _ seen)
  have fits := sound.fits a
  have settled : role visited s.boot a = settledRole visited a := by
    cases boot : s.boot with
    | loop | finished => rfl
    | starting stage p rest =>
      refine roleElsewhere fun same => no ?_
      rw [boot] at order
      rw [← order,same]
      exact List.mem_append_right _ (List.mem_cons_self ..)
  rw [settled,settledRole,if_neg unseen] at fits
  exact ⟨fits.2,fits.1⟩

theorem soundFinished {a : Fin 256} (sound : Sound kernel processors visited s) (done : s.startupDone = 1)
    (target : a ∈ targets kernel.own processors) : s.others a = .halted := by
  have order := sound.order
  have ready := sound.ready
  have fits := sound.fits a
  unfold Ready at ready
  cases boot : s.boot with
  | loop rest =>
    rw [boot,done] at ready
    cases ready
  | starting stage p rest =>
    rw [boot,done] at ready
    cases ready.1
  | finished =>
    rw [boot,Boot.rest,List.append_nil] at order
    rw [boot] at fits
    change Fits _ (settledRole visited a) _ _ _ at fits
    rw [settledRole,if_pos (order ▸ target)] at fits
    exact fits.2

/-- At every moment at most one processor is between its STARTUP and the store of the increment,
on the one stack of cpu.asm; no processor is started that is disabled or the boot processor;
and once kernel_main has set cpu_startup_done all the others have halted in cpu_entrypoint. -/
theorem startupSafe (aligned : kernel.startup16 % 4096 = 0) (low : kernel.startup16 < 2^20) {es : List Event}
    (run : (system kernel processors).Run es s) :
    (∀ a address, s.others a = .starting address → address = kernel.startup16 ∧ a ∈ targets kernel.own processors ∧
      ∀ b address', s.others b = .starting address' → b = a) ∧
    (∀ a, a ∉ targets kernel.own processors → s.others a = .off ∧ s.flying a = []) ∧
    (s.startupDone = 1 → ∀ a ∈ targets kernel.own processors, s.others a = .halted) := by
  obtain ⟨visited,sound⟩ := soundSystem (vectorLow low) run
  refine ⟨fun a address starting => ?_,fun a no => soundOff sound no,fun done a target => soundFinished sound done target⟩
  obtain ⟨value,target,stage,p,rest,boot,rfl⟩ := soundStarting sound starting
  refine ⟨value.trans (vectorStarts aligned low),target,fun b address' other => ?_⟩
  obtain ⟨_,_,stage',p',rest',boot',rfl⟩ := soundStarting sound other
  rw [boot] at boot'
  cases boot'
  rfl

theorem startupSafeOne : ∃ es s, (system ⟨0x8000,0⟩ [⟨0,1⟩,⟨1,1⟩,⟨2,0⟩]).Run es s ∧ s.startupDone = 1 ∧ s.others 1 = .halted ∧
    s.others 2 = .off := by
  have ends : (follow (next ⟨0x8000,0⟩) ⟨.loop [⟨0,1⟩,⟨1,1⟩,⟨2,0⟩],0,0,0,fun _ => [],fun _ => .off⟩ [.boot,.boot,.boot,.boot,.boot,
      .boot,.boot,.deliver 1,.deliver 1,.boot,.run 1,.boot,.boot,.boot,.boot]).any (fun s => decide (s.startupDone = 1)) = true := by decide
  obtain ⟨s,_,run,done⟩ := followEnds (S := system ⟨0x8000,0⟩ [⟨0,1⟩,⟨1,1⟩,⟨2,0⟩]) (fun _ _ _ move => move) (.start rfl) ends
  have done : s.startupDone = 1 := of_decide_eq_true done
  obtain ⟨_,off,halted⟩ := startupSafe (by decide) (by decide) run
  exact ⟨_,s,run,done,halted done 1 (by decide),(off 2 (by decide)).1⟩

/-! The processors of a MADT. -/

def Listed (own : Fin 256) (m : Memory) (entries : List Nat) (a : Fin 256) : Prop :=
  ∃ entry ∈ entries, entryType m entry = 0 ∧ (m (entry+3)).toFin = a ∧ readUnsigned m (entry+4) &&& 1 ≠ 0 ∧ a ≠ own

theorem memTargets {own : Fin 256} {m : Memory} {entries : List Nat} {a : Fin 256} :
    a ∈ targets own ((entries.filter (entryType m · = 0)).map (localApic m)) ↔ Listed own m entries a := by
  simp only [targets,Listed,List.mem_map,List.mem_filter,decide_eq_true_eq]
  constructor
  · rintro ⟨_,⟨⟨entry,⟨member,type⟩,rfl⟩,enabled,other⟩,rfl⟩
    exact ⟨entry,member,type,rfl,enabled,other⟩
  · rintro ⟨entry,member,type,rfl,enabled,other⟩
    exact ⟨_,⟨⟨entry,⟨member,type⟩,rfl⟩,enabled,other⟩,rfl⟩

theorem madtStarted {m : Memory} {madt : Nat} {entries : List Nat} (tiles : Tiles m madt sizeofAcpiMadt entries)
    (nonempty : entries ≠ []) (low : kernel.startup16 < 2^20) :
    ∃ least, ∀ fuel, least ≤ fuel → ∃ found, iterateTypeAll fuel m madt 0 = some found ∧
      ∀ es s, (system kernel (found.map (localApic m))).Run es s → s.startupDone = 1 →
        ∀ a, (Listed kernel.own m entries a → s.others a = .halted) ∧ (¬ Listed kernel.own m entries a → s.others a = .off) := by
  have iterates : ∃ least, ∀ fuel, least ≤ fuel → iterateTypeAll fuel m madt 0 = some (entries.filter (entryType m · = 0)) := by
    cases walkedTiles tiles with
    | past _ => exact absurd rfl nonempty
    | entry _ later => exact enumerates (iteratesFromNull later) 0
  obtain ⟨least,all⟩ := iterates
  refine ⟨least,fun fuel enough => ⟨_,all fuel enough,fun es s run done a => ?_⟩⟩
  obtain ⟨visited,sound⟩ := soundSystem (vectorLow low) run
  rw [← memTargets]
  exact ⟨fun target => soundFinished sound done target,fun no => (soundOff sound no).1⟩

theorem madtStartedThree : ∃ least, ∀ fuel, least ≤ fuel → ∃ found, iterateTypeAll fuel threeEntries 0x1000 0 = some found ∧
    ∀ es s, (system ⟨0x8000,1⟩ (found.map (localApic threeEntries))).Run es s → s.startupDone = 1 → s.others 0 = .halted := by
  obtain ⟨least,all⟩ := @madtStarted ⟨0x8000,1⟩ threeEntries 0x1000 _ threeEntriesTiled (by decide) (by decide)
  refine ⟨least,fun fuel enough => ?_⟩
  obtain ⟨found,call,runs⟩ := all fuel enough
  refine ⟨found,call,fun es s run done => ?_⟩
  exact (runs es s run done 0).1 ⟨0x1034,by decide,by decide,by decide,by decide,by decide⟩

end Kokos.ProcessorStartup

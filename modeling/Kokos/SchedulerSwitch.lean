import Kokos.Scheduler

/-! What one timer interrupt does to the registers and to the process structures. -/
namespace Kokos.Scheduler
open ByteMemory

theorem pushAllSpec {m : Memory} {rsp : Nat} {vs : List (BitVec 64)} (room : 8*vs.length ≤ rsp) :
    (pushAll m rsp vs).2 = rsp - 8*vs.length ∧
    loadWords (pushAll m rsp vs).1 (rsp - 8*vs.length) vs.length = vs.reverse ∧
    ∀ b size, b+size ≤ rsp - 8*vs.length ∨ rsp ≤ b → SameBytes m (pushAll m rsp vs).1 b size := by
  induction vs generalizing m rsp with
  | nil => exact ⟨rfl,rfl,fun _ _ _ _ _ _ => rfl⟩
  | cons v vs ih =>
    rw [List.length_cons] at room ⊢
    obtain ⟨pointer,words,rest⟩ := @ih (storeWord m (rsp-8) v) (rsp-8) (by omega)
    simp only [pushAll]
    rw [show rsp - 8*(vs.length+1) = rsp-8-8*vs.length by omega]
    refine ⟨pointer,?_,fun b size away => ?_⟩
    · have last := loadCongr (rest (rsp-8) 8 (by omega)) ⟨Nat.le_refl _,Nat.le_refl _⟩
      rw [loadStoreSame] at last
      rw [loadWordsAppend,words,show rsp-8-8*vs.length+8*vs.length = rsp-8 by omega,List.reverse_cons]
      simp only [loadWords,last]
    · exact sameTrans (storeWordOther m v (by omega)) (rest b size (by omega))

theorem popAllSpec {m : Memory} {rsp : Nat} {order : List Register} {f registers : Register → BitVec 64}
    (distinct : order.Nodup) (words : loadWords m rsp order.length = order.map f) (r : Register) :
    popAll m rsp order registers r = if r ∈ order then f r else registers r := by
  induction order generalizing rsp registers with
  | nil => rfl
  | cons q order ih =>
    obtain ⟨fresh,distinct⟩ := List.nodup_cons.mp distinct
    simp only [List.length_cons,loadWords,List.map_cons,List.cons.injEq] at words
    simp only [popAll,words.1]
    rw [ih distinct words.2]
    by_cases deeper : r ∈ order
    · rw [if_pos deeper,if_pos (List.mem_cons_of_mem _ deeper)]
    · rw [if_neg deeper]
      by_cases this : r = q
      · subst this
        rw [if_pos List.mem_cons_self,Function.update_self]
      · have outside : r ∉ q::order := by
          rw [List.mem_cons,not_or]
          exact ⟨this,deeper⟩
        rw [if_neg outside,Function.update_of_ne this]

structure Framed (m : Memory) (stack : Nat) (c : Cpu) : Prop where
  registers : loadWords m (stack + frameRegisters) savedRegisters.length = savedRegisters.map c.registers
  rip : loadWord m (stack + frameInstructionPointer) = c.rip
  cs : loadWord m (stack + frameCodeSegment) = c.cs
  rflags : loadWord m (stack + frameRflags) = c.rflags
  rsp : loadWord m (stack + frameStackPointer) = c.rsp
  ss : loadWord m (stack + frameStackSegment) = c.ss

structure Stored (m : Memory) (p : Nat) (c : Cpu) : Prop where
  rflags : loadWord m (p + processSavedRflags) = c.rflags
  rip : loadWord m (p + processSavedInstructionPointer) = c.rip
  rsp : loadWord m (p + processSavedStackPointer) = c.rsp
  registers : loadWords m (p + processSavedRegisters) savedRegisters.length = savedRegisters.map c.registers

theorem storedSame {m m' : Memory} {p : Nat} {c : Cpu} (same : SameBytes m m' (p+72) 112) (stored : Stored m p c) : Stored m' p c where
  rflags := by
    rw [loadCongr same (by unfold processSavedRflags; omega)]
    exact stored.rflags
  rip := by
    rw [loadCongr same (by unfold processSavedInstructionPointer; omega)]
    exact stored.rip
  rsp := by
    rw [loadCongr same (by unfold processSavedStackPointer; omega)]
    exact stored.rsp
  registers := by
    rw [loadWordsCongr same (by simp only [processSavedRegisters,savedRegisters,List.length_cons,List.length_nil]; omega)]
    exact stored.registers

def Disjoint (a size b size' : Nat) : Prop := a+size ≤ b ∨ b+size' ≤ a

theorem pushesFrame {m : Memory} {top : Nat} (c : Cpu) (room : 128 ≤ top) :
    let entry := pushAll m top [c.ss,c.rsp,c.rflags,c.cs,c.rip]
    let all := pushAll entry.1 entry.2 (pushed.map c.registers)
    all.2 = top-128 ∧ Framed all.1 (top-128) c ∧
      ∀ b size, Disjoint b size (top-128) 128 → SameBytes m all.1 b size := by
  intro entry all
  obtain ⟨pointer,words,rest⟩ := @pushAllSpec m top [c.ss,c.rsp,c.rflags,c.cs,c.rip] (by simp; omega)
  change entry.2 = top-40 at pointer
  obtain ⟨pointer',words',rest'⟩ := @pushAllSpec entry.1 entry.2 (pushed.map c.registers) (by simp [pushed]; omega)
  change all.2 = entry.2-88 at pointer'
  have base : entry.2-88 = top-128 := by omega
  change loadWords entry.1 (top-40) 5 = [c.rip,c.cs,c.rflags,c.rsp,c.ss] at words
  change loadWords all.1 (entry.2-88) 11 = (pushed.map c.registers).reverse at words'
  have same := rest' (top-40) 40 (Or.inr (by omega))
  rw [← loadWordsCongr same ⟨Nat.le_refl _,Nat.le_refl _⟩] at words
  simp only [loadWords,List.cons.injEq] at words
  rw [base] at words' pointer'
  have start : top-40 = top-128+88 := by omega
  rw [start] at words
  obtain ⟨rip,cs,rflags,rsp,ss,_⟩ := words
  rw [← List.map_reverse] at words'
  refine ⟨pointer',?_,fun b size away => ?_⟩
  · generalize top-128 = stack at *
    exact ⟨words',rip,cs,rflags,rsp,ss⟩
  · unfold Disjoint at away
    have first := rest b size (by simp; omega)
    have second := rest' b size (by simp [pushed]; omega)
    exact sameTrans first second

theorem savedLength : savedRegisters.length = 11 := rfl

section
variable {m : Memory} {current next stack : Nat} {c d : Cpu}

theorem saveWords (framed : Framed m stack c) (apart : Disjoint current 184 stack 128) :
    let m1 := copyWord m (stack + frameRflags) (current + processSavedRflags)
    let m2 := copyWord m1 (stack + frameInstructionPointer) (current + processSavedInstructionPointer)
    let m3 := copyWord m2 (stack + frameStackPointer) (current + processSavedStackPointer)
    copyWords m3 (stack + frameRegisters) (current + processSavedRegisters) savedRegisters.length =
      storeWords m (current+72) (c.rflags::c.rip::c.rsp::savedRegisters.map c.registers) := by
  intro m1 m2 m3
  unfold Disjoint at apart
  have first : m1 = storeWord m (current+72) c.rflags := by
    rw [← framed.rflags]
    rfl
  have same1 : SameBytes m m1 stack 128 := by
    rw [first]
    exact storeWordOther m _ (by omega)
  have second : m2 = storeWord m1 (current+80) c.rip := by
    rw [← framed.rip,← loadCongr same1 (by unfold frameInstructionPointer; omega)]
    rfl
  have same2 : SameBytes m m2 stack 128 := by
    rw [second]
    exact sameTrans same1 (storeWordOther m1 _ (by omega))
  have third : m3 = storeWord m2 (current+88) c.rsp := by
    rw [← framed.rsp,← loadCongr same2 (by unfold frameStackPointer; omega)]
    rfl
  have same3 : SameBytes m m3 stack 128 := by
    rw [third]
    exact sameTrans same2 (storeWordOther m2 _ (by omega))
  rw [← framed.registers,← loadWordsCongr same3 (by rw [savedLength]; unfold frameRegisters; omega)]
  simp only [storeWords]
  rw [← first,show current+72+8 = current+80 from rfl,← second,show current+80+8 = current+88 from rfl,← third]
  rfl

theorem savedStored (m : Memory) (current : Nat) (c : Cpu) :
    Stored (storeWords m (current+72) (c.rflags::c.rip::c.rsp::savedRegisters.map c.registers)) current c := by
  have words := loadStoreWords m (current+72) (c.rflags::c.rip::c.rsp::savedRegisters.map c.registers)
  simp only [List.length_cons,List.length_map,loadWords,List.cons.injEq] at words
  exact ⟨words.1,words.2.1,words.2.2.1,words.2.2.2⟩

theorem restoreFrame (framed : Framed m stack c) (stored : Stored m next d) (apart : Disjoint next 184 stack 128) :
    let m1 := copyWord m (next + processSavedInstructionPointer) (stack + frameInstructionPointer)
    let m2 := copyWord m1 (next + processSavedStackPointer) (stack + frameStackPointer)
    let m3 := copyWord m2 (next + processSavedRflags) (stack + frameRflags)
    let m4 := copyWords m3 (next + processSavedRegisters) (stack + frameRegisters) savedRegisters.length
    Framed m4 stack { d with cs := c.cs, ss := c.ss } ∧ ∀ b size, Disjoint b size stack 128 → SameBytes m m4 b size := by
  intro m1 m2 m3 m4
  unfold Disjoint at apart
  have first : m1 = storeWord m (stack+88) d.rip := by
    rw [← stored.rip]
    rfl
  have beside1 : ∀ b size, Disjoint b size (stack+88) 8 → SameBytes m m1 b size := fun b size away => by
    rw [first]
    exact storeWordOther m _ away
  have same1 : SameBytes m m1 next 184 := beside1 next 184 (by unfold Disjoint; omega)
  have second : m2 = storeWord m1 (stack+112) d.rsp := by
    rw [← stored.rsp,← loadCongr same1 (by unfold processSavedStackPointer; omega)]
    rfl
  have beside2 : ∀ b size, Disjoint b size (stack+112) 8 → SameBytes m1 m2 b size := fun b size away => by
    rw [second]
    exact storeWordOther m1 _ away
  have same2 : SameBytes m m2 next 184 := sameTrans same1 (beside2 next 184 (by unfold Disjoint; omega))
  have third : m3 = storeWord m2 (stack+104) d.rflags := by
    rw [← stored.rflags,← loadCongr same2 (by unfold processSavedRflags; omega)]
    rfl
  have beside3 : ∀ b size, Disjoint b size (stack+104) 8 → SameBytes m2 m3 b size := fun b size away => by
    rw [third]
    exact storeWordOther m2 _ away
  have same3 : SameBytes m m3 next 184 := sameTrans same2 (beside3 next 184 (by unfold Disjoint; omega))
  have last : m4 = storeWords m3 stack (savedRegisters.map d.registers) := by
    rw [← stored.registers,← loadWordsCongr same3 (by rw [savedLength]; unfold processSavedRegisters; omega)]
    rfl
  have words : (savedRegisters.map d.registers).length = 11 := rfl
  have beside4 : ∀ b size, Disjoint b size stack 88 → SameBytes m3 m4 b size := by
    intro b size away
    rw [last]
    exact storeWordsOther m3 _ (by rw [words]; exact away)
  -- A word of the frame above the registers keeps what the stores before left there.
  have upper : ∀ o, 88 ≤ o → loadWord m4 (stack+o) = loadWord m3 (stack+o) := fun o high =>
    loadCongr (beside4 (stack+o) 8 (by unfold Disjoint; omega)) ⟨Nat.le_refl _,Nat.le_refl _⟩
  refine ⟨⟨?_,?_,?_,?_,?_,?_⟩,fun b size away => ?_⟩
  · rw [last]
    exact loadStoreWords m3 stack _
  · show loadWord m4 (stack+88) = d.rip
    rw [upper 88 (by omega),third,loadStoreOther _ _ (by omega),second,loadStoreOther _ _ (by omega),first,loadStoreSame]
  · show loadWord m4 (stack+96) = c.cs
    rw [upper 96 (by omega),third,loadStoreOther _ _ (by omega),second,loadStoreOther _ _ (by omega),first,
      loadStoreOther _ _ (by omega)]
    exact framed.cs
  · show loadWord m4 (stack+104) = d.rflags
    rw [upper 104 (by omega),third,loadStoreSame]
  · show loadWord m4 (stack+112) = d.rsp
    rw [upper 112 (by omega),third,loadStoreOther _ _ (by omega),second,loadStoreSame]
  · show loadWord m4 (stack+120) = c.ss
    rw [upper 120 (by omega),third,loadStoreOther _ _ (by omega),second,loadStoreOther _ _ (by omega),first,
      loadStoreOther _ _ (by omega)]
    exact framed.ss
  · unfold Disjoint at away
    have lower := sameTrans (beside1 b size (by unfold Disjoint; omega)) (beside2 b size (by unfold Disjoint; omega))
    have higher := sameTrans (beside3 b size (by unfold Disjoint; omega)) (beside4 b size (by unfold Disjoint; omega))
    exact sameTrans lower higher

theorem framedSame {m' : Memory} (same : SameBytes m m' stack 128) (framed : Framed m stack c) : Framed m' stack c where
  registers := by
    rw [loadWordsCongr same (by rw [savedLength]; unfold frameRegisters; omega)]
    exact framed.registers
  rip := by
    rw [loadCongr same (by unfold frameInstructionPointer; omega)]
    exact framed.rip
  cs := by
    rw [loadCongr same (by unfold frameCodeSegment; omega)]
    exact framed.cs
  rflags := by
    rw [loadCongr same (by unfold frameRflags; omega)]
    exact framed.rflags
  rsp := by
    rw [loadCongr same (by unfold frameStackPointer; omega)]
    exact framed.rsp
  ss := by
    rw [loadCongr same (by unfold frameStackSegment; omega)]
    exact framed.ss

theorem switchSpec (framed : Framed m stack c) (stored : Stored m next d) (apart : Disjoint current 184 stack 128)
    (apart' : Disjoint next 184 stack 128) (different : Disjoint current 184 next 184) :
    Stored (switchFrames m current next stack) current c ∧
    Framed (switchFrames m current next stack) stack { d with cs := c.cs, ss := c.ss } ∧
    ∀ b size, Disjoint b size stack 128 → Disjoint b size (current+72) 112 →
      SameBytes m (switchFrames m current next stack) b size := by
  have saved := saveWords framed apart
  have words : (c.rflags::c.rip::c.rsp::savedRegisters.map c.registers).length = 14 := rfl
  simp only [switchFrames,saved]
  have keeps : ∀ b size, Disjoint b size (current+72) 112 →
      SameBytes m (storeWords m (current+72) (c.rflags::c.rip::c.rsp::savedRegisters.map c.registers)) b size := by
    intro b size away
    unfold Disjoint at away
    exact storeWordsOther m _ (by rw [words]; omega)
  unfold Disjoint at apart different
  have framed' := framedSame (keeps stack 128 (by unfold Disjoint; omega)) framed
  have stored' := storedSame (keeps (next+72) 112 (by unfold Disjoint; omega)) stored
  obtain ⟨filled,rest⟩ := restoreFrame framed' stored' apart'
  refine ⟨?_,filled,fun b size away away' => sameTrans (keeps b size away') (rest b size away)⟩
  exact storedSame (rest (current+72) 112 (by unfold Disjoint; omega)) (savedStored m current c)

end

structure Resumes (c c' : Cpu) : Prop where
  rip : c'.rip = c.rip
  rsp : c'.rsp = c.rsp
  rflags : c'.rflags = c.rflags
  registers : ∀ r ∈ savedRegisters, c'.registers r = c.registers r

def upperRegisters : List Register := [.r12,.r13,.r14,.r15]

section
variable {s : Machine} {scratch : Register → BitVec 64} {d : Cpu}

theorem interruptReturn {m : Memory} {stack : Nat} {c : Cpu} {before : Register → BitVec 64} (framed : Framed m stack c)
    (r : Register) : popAll m stack popped before r = if r ∈ savedRegisters then c.registers r else before r :=
  popAllSpec (by decide) framed.registers r

theorem upperKept {before : Register → BitVec 64} {r : Register} (upper : r ∈ upperRegisters) :
    r ∉ savedRegisters ∧ (if r ∈ callerSaved then scratch r else before r) = before r := by
  have outside : ∀ r ∈ upperRegisters, r ∉ savedRegisters ∧ r ∉ callerSaved := by decide
  exact ⟨(outside r upper).1,if_neg (outside r upper).2⟩

theorem schedulerInterruptEq (room : 128 ≤ s.interruptStack) : ∃ memory, Framed memory (s.interruptStack-128) s.cpu ∧
    (∀ b size, Disjoint b size (s.interruptStack-128) 128 → SameBytes s.memory memory b size) ∧
    ∀ s', s' = schedulerHandleInterrupt { s with memory := memory } (s.interruptStack-128) →
      schedulerInterrupt scratch s = { s' with cpu :=
        { registers := popAll s'.memory (s.interruptStack-128) popped fun r => if r ∈ callerSaved then scratch r else s.cpu.registers r
          rip := loadWord s'.memory (s.interruptStack-128 + frameInstructionPointer)
          cs := loadWord s'.memory (s.interruptStack-128 + frameCodeSegment)
          rflags := loadWord s'.memory (s.interruptStack-128 + frameRflags)
          rsp := loadWord s'.memory (s.interruptStack-128 + frameStackPointer)
          ss := loadWord s'.memory (s.interruptStack-128 + frameStackSegment) } } := by
  obtain ⟨pointer,framed,rest⟩ := pushesFrame (m := s.memory) s.cpu room
  refine ⟨_,framed,rest,?_⟩
  rintro s' rfl
  simp only [schedulerInterrupt]
  rw [pointer]

theorem interruptStays (room : 128 ≤ s.interruptStack) (alone : nextOf s.memory s.currentProcess = s.currentProcess)
    (apart : Disjoint s.currentProcess 184 (s.interruptStack-128) 128) :
    let s' := schedulerInterrupt scratch s
    Resumes s.cpu s'.cpu ∧ (∀ r ∈ upperRegisters, s'.cpu.registers r = s.cpu.registers r) ∧
    s'.currentProcess = s.currentProcess ∧ s'.cr3 = s.cr3 ∧ s'.interruptStack = s.interruptStack ∧
    s'.currentProcessId = s.currentProcessId ∧
    ∀ b size, Disjoint b size (s.interruptStack-128) 128 → SameBytes s.memory s'.memory b size := by
  obtain ⟨memory,framed,rest,eq⟩ := @schedulerInterruptEq s scratch room
  have next : nextOf memory s.currentProcess = s.currentProcess := by
    unfold nextOf
    rw [readWordCongr fun x low high => rest s.currentProcess 184 apart x (by unfold processNext at low; omega)
      (by unfold processNext at high; omega)]
    exact alone
  have handled : schedulerHandleInterrupt { s with memory := memory } (s.interruptStack-128) = { s with memory := memory } := by
    unfold schedulerHandleInterrupt
    exact if_neg fun h => h next.symm
  rw [eq _ handled.symm]
  refine ⟨⟨framed.rip,framed.rsp,framed.rflags,fun r saved => ?_⟩,fun r upper => ?_,rfl,rfl,rfl,rfl,rest⟩
  · exact (interruptReturn framed r).trans (if_pos saved)
  · obtain ⟨outside,kept⟩ := @upperKept scratch s.cpu.registers r upper
    exact (interruptReturn framed r).trans ((if_neg outside).trans kept)

theorem interruptSwitches {next : Nat} (room : 128 ≤ s.interruptStack) (leads : nextOf s.memory s.currentProcess = next)
    (other : s.currentProcess ≠ next) (stored : Stored s.memory next d)
    (apart : Disjoint s.currentProcess 184 (s.interruptStack-128) 128) (apart' : Disjoint next 184 (s.interruptStack-128) 128)
    (different : Disjoint s.currentProcess 184 next 184) :
    let s' := schedulerInterrupt scratch s
    Resumes d s'.cpu ∧ (∀ r ∈ upperRegisters, s'.cpu.registers r = s.cpu.registers r) ∧
    s'.currentProcess = next ∧ s'.cr3 = loadWord s.memory (next + processLevel4Table) ∧
    s'.interruptStack = s.interruptStack ∧ s'.currentProcessId = s.currentProcessId ∧
    Stored s'.memory s.currentProcess s.cpu ∧
    ∀ b size, Disjoint b size (s.interruptStack-128) 128 → Disjoint b size (s.currentProcess+72) 112 →
      SameBytes s.memory s'.memory b size := by
  obtain ⟨memory,framed,rest,eq⟩ := @schedulerInterruptEq s scratch room
  have leads' : nextOf memory s.currentProcess = next := by
    unfold nextOf
    rw [readWordCongr fun x low high => rest s.currentProcess 184 apart x (by unfold processNext at low; omega)
      (by unfold processNext at high; omega)]
    exact leads
  obtain ⟨saved,filled,kept⟩ := switchSpec framed
    (storedSame (sameInside (rest next 184 apart') (by omega)) stored) apart apart' different
  have handled : schedulerHandleInterrupt { s with memory := memory } (s.interruptStack-128) =
      { s with
        memory := switchFrames memory s.currentProcess next (s.interruptStack-128)
        cr3 := loadWord (switchFrames memory s.currentProcess next (s.interruptStack-128)) (next + processLevel4Table)
        currentProcess := next } := by
    simp only [schedulerHandleInterrupt,leads']
    rw [if_pos other]
  have all : ∀ b size, Disjoint b size (s.interruptStack-128) 128 → Disjoint b size (s.currentProcess+72) 112 →
      SameBytes s.memory (switchFrames memory s.currentProcess next (s.interruptStack-128)) b size :=
    fun b size away away' => sameTrans (rest b size away) (kept b size away away')
  unfold Disjoint at different
  have table : SameBytes s.memory (switchFrames memory s.currentProcess next (s.interruptStack-128)) next 184 :=
    all next 184 apart' (by unfold Disjoint; omega)
  rw [eq _ handled.symm]
  refine ⟨⟨filled.rip,filled.rsp,filled.rflags,fun r member => ?_⟩,fun r upper => ?_,rfl,?_,rfl,rfl,saved,all⟩
  · exact (interruptReturn filled r).trans (if_pos member)
  · obtain ⟨outside,same⟩ := @upperKept scratch s.cpu.registers r upper
    exact (interruptReturn filled r).trans ((if_neg outside).trans same)
  · exact loadCongr table (by unfold processLevel4Table; omega)

end

end Kokos.Scheduler

import Kokos.Formatting

/-! What string_format_args leaves in the destination, by a step for each piece of the
format. -/
namespace Kokos.Formatting
open ByteMemory ByteStrings Strings WhileLoops

section
variable {m : Memory} {l : Nat → BitVec 64} {fuel n base : Nat} {s s' s'' : Progress} {unsign : Bool} {radix : Option Radix} {c : UInt8}
  {text : List UInt8}

structure Forward (s s' : Progress) (n : Nat) : Prop where
  same : s' = { s with c := s.c+n, reads := s'.reads }
  reads : ∀ a ∈ s'.reads, a ∈ s.reads ∨ s.c < a ∧ a ≤ s.c+n

theorem forwardNothing (s : Progress) : Forward s s 0 := ⟨rfl,fun _ => Or.inl⟩

theorem forwardNext (forward : Forward s s' n) : Forward s s'.next (n+1) := by
  obtain ⟨same,reads⟩ := forward
  rw [same] at reads ⊢
  refine ⟨rfl,fun a member => ?_⟩
  rcases List.mem_cons.mp member with here | member
  · exact Or.inr (by dsimp only at here; omega)
  · rcases reads a member with before | passed
    · exact Or.inl before
    · exact Or.inr (by omega)

theorem forwardTrans {k : Nat} (first : Forward s s' n) (second : Forward s' s'' k) : Forward s s'' (n+k) := by
  obtain ⟨same,reads⟩ := first
  obtain ⟨same',reads'⟩ := second
  rw [same] at same' reads'
  refine ⟨same'.trans (by rw [Nat.add_assoc]),fun a member => ?_⟩
  rcases reads' a member with between | passed
  · rcases reads a between with before | passed
    · exact Or.inl before
    · exact Or.inr (by omega)
  · exact Or.inr (by dsimp only at passed; omega)

theorem percentNonzero : char '%' ≠ 0 := by decide

theorem unsignRead (here : loadBytes m s.c (unsignLetters unsign ++ (radixLetters radix ++ [c])).length =
      unsignLetters unsign ++ (radixLetters radix ++ [c])) (decides : Decides unsign radix c) :
    ∃ s', readUnsign m s = (unsign,s') ∧ Forward s s' (unsignLetters unsign).length := by
  unfold readUnsign
  cases unsign with
  | true =>
    have letter : m s.c = char 'u' := (List.cons.inj here).1
    exact ⟨_,if_pos letter,forwardNext (forwardNothing s)⟩
  | false =>
    have other : m s.c ≠ char 'u' := by
      cases radix with
      | none =>
        have letter : m s.c = c := (List.cons.inj here).1
        rw [letter]
        exact (decides rfl).2 rfl
      | some r =>
        have letter : m s.c = r.letter := (List.cons.inj here).1
        rw [letter]
        cases r <;> decide
    exact ⟨s,if_neg other,forwardNothing s⟩

theorem baseRead (here : loadBytes m s.c (radixLetters radix ++ [c]).length = radixLetters radix ++ [c])
    (decides : Decides unsign radix c) :
    ∃ s', readBase m s = (radixBase radix,s') ∧ Forward s s' (radixLetters radix).length := by
  unfold readBase
  cases radix with
  | none =>
    have letter : m s.c = c := (List.cons.inj here).1
    have plain := (decides rfl).1
    simp only [List.mem_cons,List.not_mem_nil,or_false,not_or] at plain
    rw [letter,if_neg plain.1,if_neg plain.2.1,if_neg plain.2.2]
    exact ⟨s,rfl,forwardNothing s⟩
  | some r =>
    have letter : m s.c = r.letter := (List.cons.inj here).1
    refine ⟨s.next,?_,forwardNext (forwardNothing s)⟩
    rw [letter]
    cases r
    · rfl
    · rfl
    · rfl

theorem bodyDirective (here : loadBytes m s.c (stub unsign radix ++ [c]).length = stub unsign radix ++ [c])
    (decides : Decides unsign radix c) :
    ∃ s', Forward s s' (stub unsign radix).length ∧
      formatBody fuel m l s = afterSwitch (convert fuel c unsign (radixBase radix) (l s.l) s') := by
  have percent : m s.c = char '%' := (List.cons.inj here).1
  have after : loadBytes m s.next.c (unsignLetters unsign ++ (radixLetters radix ++ [c])).length =
      unsignLetters unsign ++ (radixLetters radix ++ [c]) := by
    rw [← List.append_assoc]
    exact (List.cons.inj here).2
  obtain ⟨s1,unsigned,forward1⟩ := unsignRead after decides
  have rest := (loadBytesSplit after).2
  rw [show s.next.c + (unsignLetters unsign).length = s1.c by rw [forward1.same]] at rest
  obtain ⟨s2,radixed,forward2⟩ := baseRead rest decides
  have last := (loadBytesSplit rest).2
  rw [show s1.c + (radixLetters radix).length = s2.c by rw [forward2.same]] at last
  have letter : m s2.c = c := (List.cons.inj last).1
  have forward := forwardTrans (forwardTrans (forwardNext (forwardNothing s)) forward1) forward2
  have size : (stub unsign radix).length = 0+1 + (unsignLetters unsign).length + (radixLetters radix).length := by
    simp only [stub,List.length_cons,List.length_append]
    omega
  have args : s2.l = s.l := by rw [forward.same]
  refine ⟨s2,by rwa [size],?_⟩
  unfold formatBody
  simp only [percent,if_neg percentNonzero,if_true,unsigned,radixed,letter,args]

/-! The switch. -/

structure Converted (s s' : Progress) (text : List UInt8) (number : Bool) : Prop where
  pointer : s'.c = s.c
  reads : s'.reads = s.reads
  args : s'.l = s.l + number.toNat
  target : s'.destination = s.destination + text.length
  left : Left s.store s'.store s.destination (text ++ closing number)

theorem convertedNumber {r : Option (Store × Nat)}
    (leaves : ∃ store, r = some (store,text.length) ∧ Left s.store store s.destination (text ++ [0])) :
    ∃ s', s.converted r = some s' ∧ Converted s s' text true := by
  obtain ⟨store,rfl,left⟩ := leaves
  exact ⟨_,rfl,rfl,rfl,rfl,rfl,left⟩

theorem convertLeaves (two : 2 ≤ base) (enough : 64 ≤ fuel) (c : UInt8) (unsign : Bool) (arg : BitVec 64) (s : Progress) :
    ∃ s', convert fuel c unsign base arg s = some s' ∧ Converted s s' (directiveText unsign base c arg) (takesNumber c) := by
  have less : 32 ≤ fuel := by omega
  unfold convert directiveText
  by_cases i : c = char 'i'
  · rw [if_pos i,if_pos i,show takesNumber c = true by simp [takesNumber,i]]
    cases unsign
    · exact convertedNumber (signedLeaves _ two (by decide) less)
    · exact convertedNumber (unsignedLeaves _ two (by decide) less)
  by_cases long : c = char 'l'
  · rw [if_neg i,if_neg i,if_pos long,if_pos long,show takesNumber c = true by simp [takesNumber,long]]
    cases unsign
    · exact convertedNumber (signedLeaves _ two (by decide) enough)
    · exact convertedNumber (unsignedLeaves _ two (by decide) enough)
  by_cases p : c = char 'p'
  · rw [if_neg i,if_neg i,if_neg long,if_neg long,if_pos p,if_pos p,show takesNumber c = true by simp [takesNumber,p]]
    exact convertedNumber (unsignedLeaves _ (by decide) (by decide) enough)
  have none : takesNumber c = false := by simp [takesNumber,i,long,p]
  rw [if_neg i,if_neg i,if_neg long,if_neg long,if_neg p,if_neg p,none]
  by_cases percent : c = char '%'
  · rw [if_pos percent,if_pos percent]
    exact ⟨_,rfl,rfl,rfl,rfl,rfl,leftPut _ _ _⟩
  · rw [if_neg percent,if_neg percent]
    exact ⟨_,rfl,rfl,rfl,rfl,rfl,leftNothing _ _⟩

/-! The run. -/

structure Formatted (l : Nat → BitVec 64) (first : Progress) (done : List Piece) (s : Progress) : Prop where
  pointer : s.c = first.c + (render done).length
  args : s.l = first.l + taken done
  target : s.destination = first.destination + (expansion l first.l done).length
  left : Left first.store s.store first.destination (expansion l first.l done ++ ending done)
  inside : ∀ a ∈ s.reads, a ∈ first.reads ∨ first.c ≤ a ∧ a ≤ s.c

variable {first : Progress} {done ps : List Piece} {p : Piece}

theorem formattedNothing (l : Nat → BitVec 64) (s : Progress) : Formatted l s [] s :=
  ⟨rfl,rfl,rfl,leftNothing _ _,fun _ => Or.inl⟩

structure Passed (l : Nat → BitVec 64) (s s' : Progress) (p : Piece) : Prop where
  pointer : s'.c = s.c + p.render.length
  args : s'.l = s.l + p.isNumber.toNat
  target : s'.destination = s.destination + (p.text (l s.l)).length
  left : Left s.store s'.store s.destination (p.output (l s.l))
  inside : ∀ a ∈ s'.reads, a ∈ s.reads ∨ s.c ≤ a ∧ a ≤ s'.c

theorem formattedNext (formatted : Formatted l first done s) (passed : Passed l s s' p) : Formatted l first (done ++ [p]) s' where
  pointer := by rw [passed.pointer,formatted.pointer,renderAppend,renderOne,List.length_append,Nat.add_assoc]
  args := by rw [passed.args,formatted.args,takenAppend,takenOne,Nat.add_assoc]
  target := by rw [passed.target,formatted.target,formatted.args,expansionNext,List.length_append,Nat.add_assoc]
  left := by
    have left := passed.left
    rw [formatted.target,formatted.args] at left
    have covered := leftOver formatted.left left
    rw [expansionNext,endingNext]
    have writes := writtenIff p (l (first.l + taken done))
    generalize l (first.l + taken done) = arg at *
    -- A piece hides the zero byte of a number before it if it writes anything.
    by_cases written : p.isWritten = true
    · have some := List.length_pos_iff.mpr (writes.mp written)
      have short := endingShort done
      rw [List.drop_eq_nil_of_le (by omega),List.append_nil] at covered
      rwa [if_pos written,List.append_assoc]
    · have nothing : p.output arg = [] := by
        by_contra some
        exact written (writes.mpr some)
      have silent : p.text arg = [] := (List.append_eq_nil_iff.mp nothing).1
      rw [nothing,List.append_nil] at covered
      rwa [if_neg written,silent,List.append_nil]
  inside a member := by
    have pointer := formatted.pointer
    have further := passed.pointer
    rcases passed.inside a member with before | here
    · rcases formatted.inside a before with before | inside
      · exact Or.inl before
      · exact Or.inr (by omega)
    · exact Or.inr (by omega)

theorem bodyPasses (enough : 64 ≤ fuel) (proper : p.Proper) (here : loadBytes m s.c p.render.length = p.render) :
    ∃ s', formatBody fuel m l s = .inl s' ∧ Passed l s s' p := by
  cases p with
  | literal c =>
    have letter : m s.c = c := (List.cons.inj here).1
    refine ⟨(s.putChar c).next,?_,rfl,rfl,rfl,leftPut _ _ _,fun a member => ?_⟩
    · unfold formatBody
      rw [letter,if_neg proper.1,if_neg proper.2]
    · rcases List.mem_cons.mp member with rfl | before
      · exact Or.inr ⟨Nat.le_succ _,Nat.le_refl _⟩
      · exact Or.inl before
  | directive unsign radix c =>
    obtain ⟨s1,forward,body⟩ := bodyDirective here proper.2
    obtain ⟨s2,converts,converted⟩ := convertLeaves (radixTwo radix).1 enough c unsign (l s.l) s1
    have next := forwardNext forward
    have args : s1.l = s.l := by rw [forward.same]
    have target : s1.destination = s.destination := by rw [forward.same]
    have step : s2.next.c = s2.c+1 := rfl
    have pointer : s2.next.c = s.c + ((stub unsign radix).length + 1) := by
      rw [step,converted.pointer,forward.same]
      rfl
    have left := converted.left
    rw [forward.same] at left
    refine ⟨s2.next,by rw [body,converts]; rfl,?_,?_,?_,left,fun a member => ?_⟩
    · rw [pointer,Piece.render,List.length_append]
      rfl
    · rw [← args]
      exact converted.args
    · rw [← target]
      exact converted.target
    · rcases List.mem_cons.mp member with here | before
      · exact Or.inr (by omega)
      · rw [converted.reads] at before
        rcases forward.reads a before with before | inside
        · exact Or.inl before
        · exact Or.inr (by omega)

theorem loopPasses (enough : 64 ≤ fuel) (proper : Proper ps) (here : loadBytes m s.c (render ps).length = render ps)
    (formatted : Formatted l first done s) :
    ∃ s', (∀ n, loop (formatBody fuel m l) (n + ps.length) s = loop (formatBody fuel m l) n s') ∧ Formatted l first (done ++ ps) s' := by
  induction ps generalizing done s with
  | nil => exact ⟨s,fun _ => rfl,by rwa [List.append_nil]⟩
  | cons p ps ih =>
    obtain ⟨properHead,properRest⟩ := properNext proper
    have split : loadBytes m s.c (p.render ++ render ps).length = p.render ++ render ps := here
    obtain ⟨front,rest⟩ := loadBytesSplit split
    obtain ⟨s1,body,passed⟩ := bodyPasses enough properHead front
    rw [← passed.pointer] at rest
    obtain ⟨s2,later,formatted2⟩ := ih properRest rest (formattedNext formatted passed)
    refine ⟨s2,fun n => ?_,?_⟩
    · rw [List.length_cons,← Nat.add_assoc,loop,body]
      exact later n
    · rwa [List.append_assoc] at formatted2

theorem formatLeaves {format : Nat} (destination : Nat) (store : Store) (proper : Proper ps) (str : Terminated m format (render ps))
    (enough : 64 ≤ fuel) (more : ps.length < fuel) :
    ∃ s', stringFormatArgs fuel destination m format l store = some s' ∧
      Left store s'.store destination (expansion l 0 ps ++ ending ps) ∧
      ∀ a ∈ s'.reads, format ≤ a ∧ a ≤ format + (render ps).length := by
  obtain ⟨n,rfl⟩ : ∃ n, fuel = n+1+ps.length := ⟨fuel-1-ps.length,by omega⟩
  obtain ⟨s',run,formatted⟩ := loopPasses (s := ⟨format,[format],0,destination,store⟩) enough proper str.contents (formattedNothing l _)
  have last : formatBody (n+1+ps.length) m l s' = .inr (some s') := by
    unfold formatBody
    rw [formatted.pointer]
    exact if_pos str.stop
  refine ⟨s',?_,formatted.left,fun a member => ?_⟩
  · unfold stringFormatArgs
    rw [run,loop,last]
    rfl
  · have pointer : s'.c = format + (render ps).length := formatted.pointer
    rcases formatted.inside a member with first | inside
    · rw [List.mem_singleton.mp first]
      omega
    · have low : format ≤ a := inside.1
      omega

/-! A format that is cut off. -/

theorem convertReads {arg : BitVec 64} (converts : convert fuel c unsign base arg s = some s') : s'.reads = s.reads := by
  have number : ∀ r, s.converted r = some s' → s'.reads = s.reads := by
    intro r converted
    obtain ⟨_,_,rfl⟩ := Option.map_eq_some_iff.mp converted
    rfl
  unfold convert at converts
  split at converts
  · split at converts <;> exact number _ converts
  split at converts
  · split at converts <;> exact number _ converts
  split at converts
  · exact number _ converts
  split at converts
  · rw [← Option.some.inj converts]
    rfl
  · rw [Option.some.inj converts]

theorem bodyKeeps {a : Nat} (read : a ∈ s.reads) :
    (∀ s', formatBody fuel m l s = .inl s' → a ∈ s'.reads) ∧ ∀ s', formatBody fuel m l s = .inr (some s') → a ∈ s'.reads := by
  have next : ∀ s : Progress, a ∈ s.reads → a ∈ s.next.reads := fun _ => List.mem_cons_of_mem _
  have unsigned : ∀ s : Progress, a ∈ s.reads → a ∈ (readUnsign m s).2.reads := by
    intro s read
    unfold readUnsign
    split
    · exact next s read
    · exact read
  have radixed : ∀ s : Progress, a ∈ s.reads → a ∈ (readBase m s).2.reads := by
    intro s read
    unfold readBase
    split
    · exact next s read
    split
    · exact next s read
    split
    · exact next s read
    · exact read
  have switched := radixed _ (unsigned _ (next s read))
  unfold formatBody
  split
  · exact ⟨by simp,fun s' same => by rwa [← Option.some.inj (Sum.inr.inj same)]⟩
  split
  · dsimp only
    generalize readBase m (readUnsign m s.next).2 = r at *
    cases converts : convert fuel (m r.2.c) (readUnsign m s.next).1 r.1 (l r.2.l) r.2 with
    | none => exact ⟨by simp [afterSwitch],by simp [afterSwitch]⟩
    | some s1 =>
      refine ⟨fun s' same => ?_,by simp [afterSwitch]⟩
      rw [← Sum.inl.inj same]
      refine next s1 ?_
      rwa [convertReads converts]
  · refine ⟨fun s' same => ?_,by simp⟩
    rw [← Sum.inl.inj same]
    exact next _ read

theorem loopKeeps {a : Nat} (read : a ∈ s.reads) (done : loop (formatBody fuel m l) n s = some (some s')) : a ∈ s'.reads := by
  induction n generalizing s with
  | zero => cases done
  | succ n ih =>
    obtain ⟨onward,leaves⟩ := @bodyKeeps m l fuel s a read
    unfold loop at done
    cases body : formatBody fuel m l s with
    | inl s1 =>
      rw [body] at done
      exact ih (onward s1 body) done
    | inr r =>
      rw [body] at done
      exact leaves s' (body.trans (congrArg _ (Option.some.inj done)))

/-- The pass for the rest of a directive takes the zero byte for the character that decides,
and the loop goes on behind it. -/
theorem cutOffReads {destination format : Nat} {store : Store} (proper : Proper ps)
    (str : Terminated m format (render ps ++ stub unsign radix)) (enough : 64 ≤ fuel) (more : ps.length < fuel)
    (returns : stringFormatArgs fuel destination m format l store = some s') :
    format + (render ps ++ stub unsign radix).length + 1 ∈ s'.reads := by
  obtain ⟨n,rfl⟩ : ∃ n, fuel = n+1+ps.length := ⟨fuel-1-ps.length,by omega⟩
  obtain ⟨front,_⟩ := loadBytesSplit str.contents
  obtain ⟨s1,run,formatted⟩ := loopPasses (s := ⟨format,[format],0,destination,store⟩) enough proper front (formattedNothing l _)
  have pointer : s1.c = format + (render ps).length := formatted.pointer
  have rest := terminatedRest str
  rw [← pointer] at rest
  have here : loadBytes m s1.c (stub unsign radix ++ [0]).length = stub unsign radix ++ [0] := by
    rw [List.length_append,loadBytesAppend,rest.contents]
    exact congrArg (stub unsign radix ++ [·]) rest.stop
  have decides : Decides unsign radix 0 := fun _ => ⟨by decide,fun _ => by decide⟩
  obtain ⟨s2,forward,body⟩ := bodyDirective here decides
  have pass : formatBody (n+1+ps.length) m l s1 = .inl s2.next := body
  have behind : format + (render ps ++ stub unsign radix).length + 1 ∈ s2.next.reads := by
    rw [List.length_append,← Nat.add_assoc,← pointer]
    have last : s2.c = s1.c + (stub unsign radix).length := by rw [forward.same]
    rw [← last]
    exact List.mem_cons_self
  unfold stringFormatArgs at returns
  rw [run,loop,pass] at returns
  exact loopKeeps behind (Option.join_eq_some_iff.mp returns)

end

end Kokos.Formatting

import Kokos.Strings

/-! What the text of a number says: the canonical digits of a base, and the number that
they are read back as. -/
namespace Kokos.Strings
open ByteMemory ByteStrings WhileLoops

def digitValue (c : UInt8) : Nat := if c.toNat ≤ 57 then c.toNat - 48 else c.toNat - 55

def readDigits (base : Nat) (text : List UInt8) : Nat := text.foldl (fun n c => n*base + digitValue c) 0

def readSigned (base : Nat) : List UInt8 → Int
  | [] => 0
  | c::text => if c = minusSign then -readDigits base text else readDigits base (c::text)

structure Numeral (base num : Nat) (text : List UInt8) : Prop where
  digits : ∀ c ∈ text, ∃ d < base, c = digitChar d
  leads : ∃ c rest, text = c::rest ∧ (c = digitChar 0 → rest = [])
  value : readDigits base text = num

def Writes (call : Nat → Nat → Store → Option (Store × Nat)) (text : List UInt8) : Prop :=
  ∃ least, ∀ fuel, least ≤ fuel → ∀ destination s, ∃ s',
    call fuel destination s = some (s',text.length) ∧ Left s s' destination (text ++ [0])

theorem digitTable : ∀ d : Fin 36, digitValue (digitChar (d : Nat)) = d.val ∧ 48 ≤ (digitChar (d : Nat)).toNat := by decide

theorem negativeTable : ∀ d : Fin 36, d ≠ 0 → (digitChar (-(d : Nat))).toNat < 48 := by decide

section
variable {base num : Nat}

theorem digitRead {d : Nat} (high : base ≤ 36) (less : d < base) : digitValue (digitChar d) = d :=
  (digitTable ⟨d,by omega⟩).1

theorem readReverse (base : Nat) (text : List UInt8) : readDigits base text.reverse = Nat.ofDigits base (text.map digitValue) := by
  unfold readDigits
  rw [List.foldl_reverse]
  induction text with
  | nil => rfl
  | cons c text ih =>
    rw [List.foldr_cons,List.map_cons,Nat.ofDigits_cons,ih,Nat.mul_comm,Nat.add_comm]

theorem numeralDigits {digits : List Nat} (high : base ≤ 36) (less : ∀ d ∈ digits, d < base) :
    (digits.map fun d : Nat => digitChar d).map digitValue = digits := by
  rw [List.map_map]
  refine (List.map_congr_left fun d member => ?_).trans (List.map_id digits)
  exact digitRead high (less d member)

theorem lowFirstZero (base : Nat) : lowFirst base 0 = [digitChar 0] := if_pos rfl

theorem lowFirstDigits (some : num ≠ 0) : lowFirst base num = (Nat.digits base num).map fun d : Nat => digitChar d := by
  have positive : (num : Int).sign = 1 := Int.sign_eq_one_of_pos (by omega)
  unfold lowFirst
  rw [if_neg (by omega),positive,Int.natAbs_natCast]
  simp only [Int.one_mul]

theorem numeralText (two : 2 ≤ base) (high : base ≤ 36) (num : Nat) : Numeral base num (magnitudeText base num) := by
  unfold magnitudeText
  by_cases zero : num = 0
  · rw [zero,show ((0 : Nat) : Int) = 0 from rfl,lowFirstZero]
    exact ⟨fun c member => ⟨0,by omega,List.mem_singleton.mp member⟩,⟨_,_,rfl,fun _ => rfl⟩,by simp [readDigits,digitValue,digitChar]⟩
  · have less : ∀ d ∈ Nat.digits base num, d < base := fun d member => Nat.digits_lt_base (by omega) member
    rw [lowFirstDigits zero]
    refine ⟨fun c member => ?_,?_,?_⟩
    · obtain ⟨d,there,rfl⟩ := List.mem_map.mp (List.mem_reverse.mp member)
      exact ⟨d,less d there,rfl⟩
    · have filled : Nat.digits base num ≠ [] := Nat.digits_ne_nil_iff_ne_zero.mpr zero
      have top := Nat.getLast_digit_ne_zero base zero
      rcases List.eq_nil_or_concat (Nat.digits base num) with none | ⟨lower,d,split⟩
      · exact absurd none filled
      · simp only [split,List.concat_eq_append,List.getLast_append_singleton] at top less ⊢
        refine ⟨digitChar d,(lower.map fun d : Nat => digitChar d).reverse,by simp,fun same => absurd ?_ top⟩
        rw [← digitRead high (less d (by simp)),same]
        rfl
    · rw [readReverse,numeralDigits high less,Nat.ofDigits_digits]

theorem numeralUnique {text : List UInt8} (two : 2 ≤ base) (high : base ≤ 36) (numeral : Numeral base num text) :
    text = magnitudeText base num := by
  have proper : ∀ c ∈ text, digitValue c < base ∧ digitChar (digitValue c) = c := by
    intro c member
    obtain ⟨d,less,rfl⟩ := numeral.digits c member
    rw [digitRead high less]
    exact ⟨less,rfl⟩
  obtain ⟨c,rest,rfl,leads⟩ := numeral.leads
  have value := numeral.value
  rw [← List.reverse_reverse (c::rest),readReverse] at value
  have again : (((c::rest).reverse.map digitValue).map fun d : Nat => digitChar d) = (c::rest).reverse := by
    rw [List.map_map]
    refine (List.map_congr_left fun d member => ?_).trans (List.map_id _)
    exact (proper d (List.mem_reverse.mp member)).2
  unfold magnitudeText
  by_cases zero : c = digitChar 0
  · have none : num = 0 := by
      rw [← value,leads zero,zero]
      rfl
    rw [none,leads zero,zero,show ((0 : Nat) : Int) = 0 from rfl,lowFirstZero]
    rfl
  · have top : ∀ h : (c::rest).reverse.map digitValue ≠ [], ((c::rest).reverse.map digitValue).getLast h ≠ 0 := by
      intro h
      rw [List.getLast_map,List.getLast_reverse]
      intro low
      exact zero (by rw [← (proper c List.mem_cons_self).2]; exact congrArg _ (congrArg _ low))
    have digits := Nat.digits_ofDigits base (by omega) _ (fun d member => ?_) top
    · rw [value] at digits
      have some : num ≠ 0 := by
        rintro rfl
        simp at digits
      rw [lowFirstDigits some,digits,again,List.reverse_reverse]
    · obtain ⟨b,there,rfl⟩ := List.mem_map.mp member
      exact (proper b (List.mem_reverse.mp there)).1

/-! No text holds a zero byte, and none is long. -/

theorem properTable : ∀ d : Fin 36, digitChar (d : Nat) ≠ 0 ∧ digitChar (-(d : Nat)) ≠ 0 := by decide

theorem magnitudeProper (two : 2 ≤ base) (high : base ≤ 36) (v : Int) : ∀ c ∈ magnitudeText base v, c ≠ 0 := by
  intro c member
  unfold magnitudeText lowFirst at member
  rw [List.mem_reverse] at member
  by_cases zero : v = 0
  · rw [if_pos zero] at member
    rw [List.mem_singleton.mp member]
    decide
  · rw [if_neg zero] at member
    obtain ⟨d,there,rfl⟩ := List.mem_map.mp member
    have less := Nat.digits_lt_base (by omega : 1 < base) there
    obtain ⟨plain,negative⟩ := properTable ⟨d,by omega⟩
    rcases lt_trichotomy v 0 with below | none | above
    · rwa [Int.sign_eq_neg_one_of_neg below,Int.neg_one_mul]
    · exact absurd none zero
    · rwa [Int.sign_eq_one_of_pos above,Int.one_mul]

theorem unsignedProper {w : Nat} (two : 2 ≤ base) (high : base ≤ 36) (num : BitVec w) : ∀ c ∈ unsignedText base num, c ≠ 0 :=
  magnitudeProper two high _

theorem signedProper {w : Nat} (two : 2 ≤ base) (high : base ≤ 36) (num : BitVec w) : ∀ c ∈ signedText base num, c ≠ 0 := by
  intro c member
  unfold signedText at member
  split at member
  · rcases List.mem_cons.mp member with rfl | member
    · decide
    · exact magnitudeProper two high _ c member
  · exact magnitudeProper two high _ c member

theorem magnitudeLength {k : Nat} (two : 2 ≤ base) (positive : 0 < k) (v : Int) :
    (magnitudeText base v).length ≤ k ↔ v.natAbs < base^k := by
  unfold magnitudeText lowFirst
  rw [List.length_reverse]
  by_cases zero : v = 0
  · have power : 0 < base^k := Nat.pow_pos (by omega)
    rw [if_pos zero,zero]
    exact iff_of_true positive power
  · rw [if_neg zero,List.length_map]
    exact Nat.digits_length_le_iff (by omega) _

theorem unsignedLength {w : Nat} (two : 2 ≤ base) (wide : 0 < w) (num : BitVec w) : (unsignedText base num).length ≤ w :=
  (magnitudeLength two wide _).mpr (Nat.lt_of_lt_of_le num.isLt (Nat.pow_le_pow_left two w))

theorem signedLengthIff {w : Nat} (two : 2 ≤ base) (wide : 1 < w) (num : BitVec w) :
    (signedText base num).length ≤ w ↔ ¬ (num = BitVec.intMin w ∧ base = 2) := by
  obtain ⟨k,rfl⟩ : ∃ k, w = k+1 := ⟨w-1,by omega⟩
  have powers : 2^k ≤ base^k := Nat.pow_le_pow_left two k
  have double : 2^(k+1) = 2^k*2 := Nat.pow_succ 2 k
  have below : (2 : Int)^(k+1) = (2^(k+1) : Nat) := by push_cast; rfl
  have low := num.le_two_mul_toInt
  have high := num.two_mul_toInt_lt
  have lowest : (BitVec.intMin (k+1)).toInt = -((2^k : Nat) : Int) := by
    rw [BitVec.toInt_intMin_of_pos (by omega)]
    push_cast
    rfl
  unfold signedText
  by_cases negative : num.toInt < 0
  · rw [if_pos negative,List.length_cons,Nat.succ_le_succ_iff,magnitudeLength two (by omega)]
    by_cases last : num = BitVec.intMin (k+1)
    · rw [last,BitVec.neg_intMin,lowest,Int.natAbs_neg,Int.natAbs_natCast,and_iff_right rfl]
      constructor
      · rintro less rfl
        exact Nat.lt_irrefl _ less
      · intro other
        exact Nat.pow_lt_pow_left (by omega) (by omega)
    · have inner : num.toInt ≠ (BitVec.intMin (k+1)).toInt := fun same => last (BitVec.eq_of_toInt_eq same)
      rw [BitVec.toInt_neg_of_ne_intMin last]
      refine iff_of_true ?_ fun both => last both.1
      omega
  · rw [if_neg negative]
    have first : num ≠ BitVec.intMin (k+1) := by
      rintro rfl
      have power : 0 < 2^k := Nat.two_pow_pos k
      omega
    refine iff_of_true ?_ fun both => first both.1
    have short := (magnitudeLength (k := k) two (by omega) num.toInt).mpr (by omega)
    omega

/-! The calls. -/

theorem writesUnique {call : Nat → Nat → Store → Option (Store × Nat)} {text text' : List UInt8} (first : Writes call text)
    (second : Writes call text') : text = text' := by
  obtain ⟨least,first⟩ := first
  obtain ⟨least',second⟩ := second
  obtain ⟨s,here,left⟩ := first (max least least') (by omega) 0 ⟨fun _ => 0,[]⟩
  obtain ⟨s',there,left'⟩ := second (max least least') (by omega) 0 ⟨fun _ => 0,[]⟩
  obtain ⟨rfl,length⟩ := Prod.mk.inj (Option.some.inj (here.symm.trans there))
  have same := left.contents
  rw [List.length_append,length,← List.length_append,left'.contents] at same
  exact (List.append_inj_left' same rfl).symm

theorem unsignedWrites {w : Nat} (num : BitVec w) (two : 2 ≤ base) (wide : 0 < w) :
    Writes (fun fuel destination s => stringFromUnsigned fuel destination num base s) (unsignedText base num) :=
  ⟨w,fun _ enough _ _ => unsignedLeaves num two wide enough⟩

theorem signedWrites {w : Nat} (num : BitVec w) (two : 2 ≤ base) (wide : 0 < w) :
    Writes (fun fuel destination s => stringFromSigned fuel destination num base s) (signedText base num) :=
  ⟨w,fun _ enough _ _ => signedLeaves num two wide enough⟩

structure UnsignedRight {w : Nat} (base : Nat) (call : BitVec w → Nat → Nat → Store → Option (Store × Nat)) : Prop where
  canonical : ∀ num : BitVec w, ∃ text, Writes (call num) text ∧ ∀ t, Numeral base num.toNat t ↔ t = text
  distinct : ∀ num num' : BitVec w, ∀ text, Writes (call num) text → Writes (call num') text → num = num'

theorem unsignedRight {w : Nat} (two : 2 ≤ base) (high : base ≤ 36) (wide : 0 < w) :
    UnsignedRight base fun (num : BitVec w) fuel destination s => stringFromUnsigned fuel destination num base s where
  canonical num := by
    refine ⟨_,unsignedWrites num two wide,fun t => ⟨numeralUnique two high,?_⟩⟩
    rintro rfl
    exact numeralText two high _
  distinct num num' text here there := by
    have same := (writesUnique (unsignedWrites num two wide) here).trans (writesUnique there (unsignedWrites num' two wide))
    apply BitVec.eq_of_toNat_eq
    rw [← (numeralText two high num.toNat).value,← (numeralText two high num'.toNat).value]
    exact congrArg _ same

theorem unsignedNumerals (two : 2 ≤ base) (high : base ≤ 36) :
    (UnsignedRight base fun num fuel destination s => stringFromU32 fuel destination num base s) ∧
    UnsignedRight base fun num fuel destination s => stringFromU64 fuel destination num base s :=
  ⟨unsignedRight two high (by decide),unsignedRight two high (by decide)⟩

theorem unsignedNumeralsHex : (UnsignedRight 16 fun num fuel destination s => stringFromU32 fuel destination num 16 s) ∧
    UnsignedRight 16 fun num fuel destination s => stringFromU64 fuel destination num 16 s :=
  unsignedNumerals (by decide) (by decide)

def signText (v : Int) : List UInt8 := if v < 0 then [minusSign] else []

def SignedRight {w : Nat} (base : Nat) (num : BitVec w) (call : Nat → Nat → Store → Option (Store × Nat)) : Prop :=
  ∃ digits, Numeral base num.toInt.natAbs digits ∧ Writes call (signText num.toInt ++ digits) ∧
    readSigned base (signText num.toInt ++ digits) = num.toInt

theorem readNumeral {text : List UInt8} (high : base ≤ 36) (numeral : Numeral base num text) : readSigned base text = num := by
  obtain ⟨c,rest,rfl,_⟩ := numeral.leads
  obtain ⟨d,less,same⟩ := numeral.digits c List.mem_cons_self
  have digit := (digitTable ⟨d,by omega⟩).2
  have other : c ≠ minusSign := by
    rintro rfl
    change 48 ≤ (digitChar d).toNat at digit
    rw [← same] at digit
    exact absurd digit (by decide)
  change (if c = minusSign then -(readDigits base rest : Int) else readDigits base (c::rest)) = num
  rw [if_neg other,numeral.value]

theorem signedTextPlain {w : Nat} {num : BitVec w} (inner : num ≠ BitVec.intMin w) :
    signedText base num = signText num.toInt ++ magnitudeText base num.toInt.natAbs := by
  unfold signedText signText
  by_cases negative : num.toInt < 0
  · rw [if_pos negative,if_pos negative,BitVec.toInt_neg_of_ne_intMin inner,show -num.toInt = num.toInt.natAbs by omega]
    rfl
  · rw [if_neg negative,if_neg negative,List.nil_append,← show num.toInt = num.toInt.natAbs by omega]

theorem negativeText (two : 2 ≤ base) (high : base ≤ 36) (some : num ≠ 0) :
    ∃ c ∈ magnitudeText base (-(num : Int)), c.toNat < 48 := by
  have nonzero : -(num : Int) ≠ 0 := by omega
  have sign : (-(num : Int)).sign = -1 := Int.sign_eq_neg_one_of_neg (by omega)
  have top := Nat.getLast_digit_ne_zero base some
  have there := List.getLast_mem (Nat.digits_ne_nil_iff_ne_zero.mpr some : Nat.digits base num ≠ [])
  have less := Nat.digits_lt_base (by omega : 1 < base) there
  generalize (Nat.digits base num).getLast _ = d at *
  refine ⟨digitChar (-d),?_,negativeTable ⟨d,by omega⟩ fun same => top (congrArg Fin.val same)⟩
  unfold magnitudeText lowFirst
  rw [if_neg nonzero,sign,Int.natAbs_neg,Int.natAbs_natCast,List.mem_reverse]
  exact List.mem_map.mpr ⟨d,there,by rw [Int.neg_one_mul]⟩

theorem signedRightIff {w : Nat} (num : BitVec w) (two : 2 ≤ base) (high : base ≤ 36) (wide : 0 < w) :
    SignedRight base num (fun fuel destination s => stringFromSigned fuel destination num base s) ↔ num ≠ BitVec.intMin w := by
  constructor
  · rintro ⟨digits,numeral,writes,_⟩ rfl
    have text := writesUnique writes (signedWrites _ two wide)
    have low : (BitVec.intMin w).toInt = -((2^(w-1) : Nat) : Int) := by
      rw [BitVec.toInt_intMin_of_pos wide]
      push_cast
      rfl
    have positive : 0 < 2^(w-1) := Nat.two_pow_pos _
    obtain ⟨c,member,below⟩ := negativeText two high (Nat.ne_of_gt positive)
    unfold signedText signText at text
    rw [BitVec.neg_intMin,low,if_pos (by omega),if_pos (by omega)] at text
    rw [← (List.cons.inj text).2] at member
    obtain ⟨d,less,rfl⟩ := numeral.digits c member
    have digit := (digitTable ⟨d,by omega⟩).2
    exact absurd below (Nat.not_lt.mpr digit)
  · intro inner
    have numeral := numeralText two high num.toInt.natAbs
    refine ⟨_,numeral,signedTextPlain inner ▸ signedWrites num two wide,?_⟩
    unfold signText
    by_cases negative : num.toInt < 0
    · rw [if_pos negative]
      simp only [List.cons_append,List.nil_append,readSigned,if_true]
      rw [numeral.value]
      omega
    · rw [if_neg negative,List.nil_append,readNumeral high numeral]
      omega

theorem signedNumeralsIff (two : 2 ≤ base) (high : base ≤ 36) :
    (∀ num : BitVec 32, SignedRight base num (fun fuel destination s => stringFromI32 fuel destination num base s) ↔
      num ≠ BitVec.intMin 32) ∧
    ∀ num : BitVec 64, SignedRight base num (fun fuel destination s => stringFromI64 fuel destination num base s) ↔
      num ≠ BitVec.intMin 64 :=
  ⟨fun num => signedRightIff num two high (by decide),fun num => signedRightIff num two high (by decide)⟩

theorem signedNumeralsDecimal :
    (∀ num : BitVec 32, SignedRight 10 num (fun fuel destination s => stringFromI32 fuel destination num 10 s) ↔
      num ≠ BitVec.intMin 32) ∧
    ∀ num : BitVec 64, SignedRight 10 num (fun fuel destination s => stringFromI64 fuel destination num 10 s) ↔
      num ≠ BitVec.intMin 64 :=
  signedNumeralsIff (by decide) (by decide)

theorem lowestNumberWrong :
    ¬ SignedRight 10 (BitVec.intMin 32) (fun fuel destination s => stringFromI32 fuel destination (BitVec.intMin 32) 10 s) := by
  intro right
  exact (signedRightIff _ (by decide) (by decide) (by decide)).mp right rfl

end

end Kokos.Strings

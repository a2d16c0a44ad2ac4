import Kokos.ByteStrings
import Kokos.WhileLoops
import Mathlib.Data.Nat.Digits.Lemmas

/-! Numbers as text: string_from_i32, string_from_i64, string_from_u32 and string_from_u64,
and the reversal that they end with. The base is not negative, and the trap of a division by
zero is left out. -/
namespace Kokos.Strings
open ByteMemory ByteStrings CountedLoops WhileLoops

def stringReverse (buffer size : Nat) (s : Store) : Store :=
  countUp (size/2) (fun j s =>
    let t := s.memory (buffer+j)
    let s := s.put (buffer+j) (s.memory (buffer + (size-j-1)))
    s.put (buffer + (size-j-1)) t) s

def digitChar (digit : Int) : UInt8 := UInt8.ofNat ((if 9 < digit then 65 + digit - 10 else 48 + digit) % 256).toNat

def minusSign : UInt8 := 45

structure Converting where
  num : Int
  i : Nat
  store : Store

def digitBody (destination base : Nat) (s : Converting) : Converting ⊕ Converting :=
  let digit := s.num.tmod base
  let num := s.num.tdiv base
  let s := ⟨num,s.i+1,s.store.put (destination + s.i) (digitChar digit)⟩
  if num ≠ 0 then .inl s else .inr s

def stringFromSigned {w : Nat} (fuel destination : Nat) (num : BitVec w) (base : Nat) (s : Store) : Option (Store × Nat) := do
  let isSigned := num.toInt < 0
  let num := if isSigned then -num else num
  let r ← loop (digitBody destination base) fuel ⟨num.toInt,0,s⟩
  let (i,s) := if isSigned then (r.i+1,r.store.put (destination + r.i) minusSign) else (r.i,r.store)
  let s := stringReverse destination i s
  some (s.put (destination+i) 0,i)

def stringFromUnsigned {w : Nat} (fuel destination : Nat) (num : BitVec w) (base : Nat) (s : Store) : Option (Store × Nat) := do
  let r ← loop (digitBody destination base) fuel ⟨num.toNat,0,s⟩
  let s := stringReverse destination r.i r.store
  some (s.put (destination + r.i) 0,r.i)

def stringFromI32 (fuel destination : Nat) (num : BitVec 32) := stringFromSigned fuel destination num
def stringFromI64 (fuel destination : Nat) (num : BitVec 64) := stringFromSigned fuel destination num
def stringFromU32 (fuel destination : Nat) (num : BitVec 32) := stringFromUnsigned fuel destination num
def stringFromU64 (fuel destination : Nat) (num : BitVec 64) := stringFromUnsigned fuel destination num

/-! The reversal. -/

section
variable {s s' : Store} {a n : Nat} {bytes : List UInt8}

structure Swapped (s : Store) (a n j : Nat) (t : Store) : Prop where
  inside : ∀ x < n, t.memory (a+x) = s.memory (if x < j ∨ n ≤ x+j then a + (n-1-x) else a+x)
  others : ∀ x, x < a ∨ a+n ≤ x → t.memory x = s.memory x
  written : ∀ x ∈ t.writes, x ∈ s.writes ∨ a ≤ x ∧ x < a+n
  kept : ∀ x ∈ s.writes, x ∈ t.writes

theorem swappedNext {t : Store} {j : Nat} (half : j < n/2) (swapped : Swapped s a n j t) :
    Swapped s a n (j+1) ((t.put (a+j) (t.memory (a + (n-j-1)))).put (a + (n-j-1)) (t.memory (a+j))) where
  inside x less := by
    have low := swapped.inside j (by omega)
    have high := swapped.inside (n-j-1) (by omega)
    rw [if_neg (by omega)] at low high
    simp only [Store.put]
    by_cases last : x = n-j-1
    · rw [last,Function.update_self,low,if_pos (by omega),show n-1-(n-j-1) = j by omega]
    · rw [Function.update_of_ne (by omega)]
      by_cases first : x = j
      · rw [first,Function.update_self,high,if_pos (by omega),show n-1-j = n-j-1 by omega]
      · rw [Function.update_of_ne (by omega),swapped.inside x less]
        congr 1
        exact if_congr (by omega) rfl rfl
  others x away := by
    simp only [Store.put]
    rw [Function.update_of_ne (by omega),Function.update_of_ne (by omega)]
    exact swapped.others x away
  written x member := by
    rcases List.mem_cons.mp member with rfl | member
    · exact Or.inr (by omega)
    · rcases List.mem_cons.mp member with rfl | member
      · exact Or.inr (by omega)
      · exact swapped.written x member
  kept x member := List.mem_cons_of_mem _ (List.mem_cons_of_mem _ (swapped.kept x member))

theorem reverseSwaps (s : Store) (a n : Nat) : Swapped s a n (n/2) (stringReverse a n s) := by
  refine countRule ⟨fun x less => ?_,fun _ _ => rfl,fun _ => Or.inl,fun _ => id⟩ fun j t half swapped => swappedNext half swapped
  rw [if_neg (by omega)]

theorem reverseLeft (left : Left s s' a bytes) : Left s (stringReverse a bytes.length s') a bytes.reverse := by
  have swapped := reverseSwaps s' a bytes.length
  have before := loadBytesIff.mp left.contents
  generalize stringReverse a bytes.length s' = t at *
  refine ⟨loadBytesIff.mpr fun i less => ?_,fun x away => ?_,fun x => ?_⟩
  · rw [List.length_reverse] at less
    rw [List.getElem?_reverse less,before _ (by omega),swapped.inside i less]
    congr 2
    -- In the middle of an odd number of bytes both are the same.
    split <;> omega
  · rw [List.length_reverse] at away
    exact (swapped.others x away).trans (left.others x away)
  · rw [List.length_reverse,← left.writes x]
    refine ⟨fun member => ?_,swapped.kept x⟩
    rcases swapped.written x member with before | inside
    · exact before
    · exact (left.writes x).mpr (Or.inr inside)

end

/-! The digits. -/

def lowFirst (base : Nat) (v : Int) : List UInt8 :=
  if v = 0 then [digitChar 0] else (Nat.digits base v.natAbs).map fun d : Nat => digitChar (v.sign*d)

section
variable {base destination fuel n i : Nat} {sign : Int} {s : Store}

theorem signed (proper : sign = 1 ∨ sign = -1) (positive : 0 < n) : (sign*n).sign = sign ∧ (sign*n).natAbs = n ∧ sign*n ≠ 0 := by
  have one : (n : Int).sign = 1 := Int.sign_eq_one_of_pos (by omega)
  rcases proper with rfl | rfl
  · exact ⟨by rw [Int.one_mul,one],by omega,by omega⟩
  · exact ⟨by rw [Int.neg_one_mul,Int.sign_neg,one],by omega,by omega⟩

theorem lowFirstSmall (proper : sign = 1 ∨ sign = -1) (small : n < base) : lowFirst base (sign*n) = [digitChar (sign*n)] := by
  unfold lowFirst
  by_cases zero : n = 0
  · simp [zero]
  · obtain ⟨same,magnitude,nonzero⟩ := signed proper (Nat.pos_of_ne_zero zero)
    rw [if_neg nonzero,same,magnitude,Nat.digits_of_lt base n zero small,List.map_singleton]

theorem lowFirstStep (proper : sign = 1 ∨ sign = -1) (two : 2 ≤ base) (large : base ≤ n) :
    lowFirst base (sign*n) = digitChar (sign*(n % base : Nat)) :: lowFirst base (sign*(n/base : Nat)) := by
  obtain ⟨sign1,magnitude1,nonzero1⟩ := signed proper (n := n) (by omega)
  obtain ⟨sign2,magnitude2,nonzero2⟩ := signed proper (Nat.div_pos large (by omega))
  unfold lowFirst
  rw [if_neg nonzero1,if_neg nonzero2,sign1,sign2,magnitude1,magnitude2,Nat.digits_def' (by omega) (by omega),List.map_cons]

theorem divides (proper : sign = 1 ∨ sign = -1) (base n : Nat) :
    (sign*n).tmod base = sign*(n % base : Nat) ∧ (sign*n).tdiv base = sign*(n/base : Nat) := by
  rcases proper with rfl | rfl
  · rw [Int.one_mul,Int.one_mul,Int.one_mul]
    exact ⟨(Int.ofNat_tmod n base).symm,(Int.ofNat_tdiv n base).symm⟩
  · rw [Int.neg_one_mul,Int.neg_one_mul,Int.neg_one_mul,Int.neg_tmod,Int.neg_tdiv]
    exact ⟨congrArg _ (Int.ofNat_tmod n base).symm,congrArg _ (Int.ofNat_tdiv n base).symm⟩

theorem digitsLoop (proper : sign = 1 ∨ sign = -1) (two : 2 ≤ base) (positive : 0 < fuel) (enough : n < 2^fuel) :
    ∃ s', loop (digitBody destination base) fuel ⟨sign*n,i,s⟩ = some ⟨0,i + (lowFirst base (sign*n)).length,s'⟩ ∧
      Left s s' (destination+i) (lowFirst base (sign*n)) := by
  induction fuel generalizing n i s with
  | zero => omega
  | succ fuel ih =>
    obtain ⟨digit,quotient⟩ := divides proper base n
    have first := leftPut s (destination+i) (digitChar (sign*(n % base : Nat)))
    by_cases small : n < base
    · rw [lowFirstSmall proper small]
      rw [Nat.mod_eq_of_lt small] at digit first
      rw [Nat.div_eq_of_lt small] at quotient
      have leave : digitBody destination base ⟨sign*n,i,s⟩ = .inr ⟨0,i+1,s.put (destination+i) (digitChar (sign*n))⟩ := by
        simp [digitBody,digit,quotient]
      exact ⟨_,by rw [loop,leave]; rfl,first⟩
    · have rest : 0 < n/base := Nat.div_pos (by omega) (by omega)
      have less : n/base < 2^fuel := by
        have half : n/base ≤ n/2 := Nat.div_le_div_left two (by decide)
        have double : 2^(fuel+1) = 2^fuel*2 := Nat.pow_succ 2 fuel
        omega
      have nonzero := (signed proper rest).2.2
      have again : 0 < fuel := Nat.pos_of_ne_zero (by rintro rfl; omega)
      have pass : digitBody destination base ⟨sign*n,i,s⟩ =
          .inl ⟨sign*(n/base : Nat),i+1,s.put (destination+i) (digitChar (sign*(n % base : Nat)))⟩ := by
        simp only [digitBody,digit,quotient,if_pos nonzero]
      obtain ⟨s',ends,left⟩ := @ih (n/base) (i+1) (s.put (destination+i) (digitChar (sign*(n % base : Nat)))) again less
      rw [lowFirstStep proper two (by omega)]
      refine ⟨s',?_,leftAppend first (by rwa [List.length_singleton,Nat.add_assoc])⟩
      rw [loop,pass]
      simp only [ends,List.length_cons]
      rw [Nat.add_assoc,Nat.add_comm 1]

/-! What the calls write. -/

def magnitudeText (base : Nat) (v : Int) : List UInt8 := (lowFirst base v).reverse

def unsignedText {w : Nat} (base : Nat) (num : BitVec w) : List UInt8 := magnitudeText base num.toNat

def signedText {w : Nat} (base : Nat) (num : BitVec w) : List UInt8 :=
  if num.toInt < 0 then minusSign :: magnitudeText base (-num).toInt else magnitudeText base num.toInt

theorem magnitudeLoop {v : Int} (two : 2 ≤ base) (positive : 0 < fuel) (enough : v.natAbs < 2^fuel) :
    ∃ s', loop (digitBody destination base) fuel ⟨v,0,s⟩ = some ⟨0,(lowFirst base v).length,s'⟩ ∧
      Left s s' destination (lowFirst base v) := by
  have signs : ∃ sign : Int, (sign = 1 ∨ sign = -1) ∧ v = sign*v.natAbs := by
    by_cases negative : v < 0
    · exact ⟨-1,Or.inr rfl,by omega⟩
    · exact ⟨1,Or.inl rfl,by omega⟩
  obtain ⟨sign,proper,split⟩ := signs
  obtain ⟨s',ends,left⟩ := @digitsLoop base destination fuel v.natAbs 0 sign s proper two positive enough
  rw [← split,Nat.zero_add] at ends
  rw [← split] at left
  exact ⟨s',ends,left⟩

theorem finishLeaves {s' : Store} {bytes : List UInt8} (left : Left s s' destination bytes) :
    Left s ((stringReverse destination bytes.length s').put (destination + bytes.length) 0) destination (bytes.reverse ++ [0]) := by
  have finished := leftBehind (reverseLeft left) 0
  rwa [List.length_reverse] at finished

theorem unsignedLeaves {w : Nat} (num : BitVec w) (two : 2 ≤ base) (wide : 0 < w) (enough : w ≤ fuel) :
    ∃ s', stringFromUnsigned fuel destination num base s = some (s',(unsignedText base num).length) ∧
      Left s s' destination (unsignedText base num ++ [0]) := by
  have bound : ((num.toNat : Int)).natAbs < 2^fuel :=
    Nat.lt_of_lt_of_le num.isLt (Nat.pow_le_pow_right (by decide) enough)
  obtain ⟨r,ends,left⟩ := @magnitudeLoop base destination fuel s num.toNat two (by omega) bound
  unfold stringFromUnsigned unsignedText magnitudeText
  rw [ends,List.length_reverse]
  exact ⟨_,rfl,finishLeaves left⟩

theorem signedLeaves {w : Nat} (num : BitVec w) (two : 2 ≤ base) (wide : 0 < w) (enough : w ≤ fuel) :
    ∃ s', stringFromSigned fuel destination num base s = some (s',(signedText base num).length) ∧
      Left s s' destination (signedText base num ++ [0]) := by
  have bound : ∀ v : BitVec w, v.toInt.natAbs < 2^fuel := by
    intro v
    have low := v.le_two_mul_toInt
    have high := v.two_mul_toInt_lt
    have power : ((2^w : Nat) : Int) = 2^w := by push_cast; rfl
    have more : 2^w ≤ 2^fuel := Nat.pow_le_pow_right (by decide) enough
    have positive : 0 < 2^w := Nat.two_pow_pos w
    omega
  unfold stringFromSigned signedText
  by_cases negative : num.toInt < 0
  · obtain ⟨r,ends,left⟩ := @magnitudeLoop base destination fuel s (-num).toInt two (by omega) (bound _)
    have text : (lowFirst base (-num).toInt ++ [minusSign]).reverse = minusSign :: magnitudeText base (-num).toInt := by
      rw [List.reverse_append]
      rfl
    have finished := finishLeaves (leftBehind left minusSign)
    have length : (lowFirst base (-num).toInt ++ [minusSign]).length = (lowFirst base (-num).toInt).length + 1 := List.length_append
    rw [text,length] at finished
    simp only [negative,if_true,ends,Option.bind_eq_bind,Option.bind_some]
    refine ⟨_,?_,finished⟩
    rw [← text,List.length_reverse,length]
  · obtain ⟨r,ends,left⟩ := @magnitudeLoop base destination fuel s num.toInt two (by omega) (bound _)
    simp only [negative,if_false,ends,Option.bind_eq_bind,Option.bind_some]
    exact ⟨_,by rw [magnitudeText,List.length_reverse],finishLeaves left⟩

end

end Kokos.Strings

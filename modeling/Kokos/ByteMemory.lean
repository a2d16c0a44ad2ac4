import Mathlib.Order.Interval.Finset.Nat

/-! Byte-addressed memory with little-endian 64-bit words at any address, aligned
or not. A store changes its eight bytes and nothing else. -/
namespace Kokos.ByteMemory

abbrev Memory := Nat → UInt8

def readWord (m : Memory) (a : Nat) : Nat :=
  (m a).toNat + 256*(m (a+1)).toNat + 65536*(m (a+2)).toNat + 16777216*(m (a+3)).toNat +
  4294967296*(m (a+4)).toNat + 1099511627776*(m (a+5)).toNat + 281474976710656*(m (a+6)).toNat +
  72057594037927936*(m (a+7)).toNat

def writeWord (m : Memory) (a v : Nat) : Memory :=
  fun x => if a ≤ x ∧ x < a+8 then UInt8.ofNat (v / 256^(x-a)) else m x

def zeroBytes (m : Memory) (a size : Nat) : Memory :=
  fun x => if a ≤ x ∧ x < a+size then 0 else m x

theorem readWordBound (m : Memory) (a : Nat) : readWord m a < 2^64 := by
  have byte : ∀ x, (m x).toNat < 256 := fun x => (m x).toNat_lt
  have h0 := byte a; have h1 := byte (a+1); have h2 := byte (a+2); have h3 := byte (a+3)
  have h4 := byte (a+4); have h5 := byte (a+5); have h6 := byte (a+6); have h7 := byte (a+7)
  unfold readWord
  omega

theorem readWordCongr {m m' : Memory} {a : Nat} (same : ∀ x, a ≤ x → x < a+8 → m' x = m x) :
    readWord m' a = readWord m a := by
  unfold readWord
  rw [same a (by omega) (by omega),same (a+1) (by omega) (by omega),same (a+2) (by omega) (by omega),
    same (a+3) (by omega) (by omega),same (a+4) (by omega) (by omega),same (a+5) (by omega) (by omega),
    same (a+6) (by omega) (by omega),same (a+7) (by omega) (by omega)]

theorem readWordBytes {m : Memory} {a : Nat} {f : Nat → Nat} (byte : ∀ k, k < 8 → (m (a+k)).toNat = f k) :
    readWord m a = f 0 + 256*f 1 + 65536*f 2 + 16777216*f 3 + 4294967296*f 4 + 1099511627776*f 5 + 281474976710656*f 6 +
      72057594037927936*f 7 := by
  have h0 := byte 0 (by decide)
  rw [Nat.add_zero] at h0
  unfold readWord
  rw [h0,byte 1 (by decide),byte 2 (by decide),byte 3 (by decide),byte 4 (by decide),byte 5 (by decide),
    byte 6 (by decide),byte 7 (by decide)]

theorem readWriteSame (m : Memory) (a : Nat) {v : Nat} (bound : v < 2^64) : readWord (writeWord m a v) a = v := by
  have byte : ∀ k, k < 8 → (writeWord m a v (a+k)).toNat = v / 256^k % 256 := by
    intro k hk
    have here : a ≤ a+k ∧ a+k < a+8 := by omega
    simp [writeWord,here]
  rw [readWordBytes byte]
  simp only [Nat.reducePow]
  omega

theorem readWriteOther (m : Memory) {a b : Nat} (v : Nat) (apart : b+8 ≤ a ∨ a+8 ≤ b) :
    readWord (writeWord m a v) b = readWord m b := by
  apply readWordCongr
  intro x first last
  have outside : ¬ (a ≤ x ∧ x < a+8) := by omega
  simp only [writeWord,if_neg outside]

theorem readZeroSame (m : Memory) {a size b : Nat} (inside : a ≤ b ∧ b+8 ≤ a+size) :
    readWord (zeroBytes m a size) b = 0 := by
  have byte : ∀ k, k < 8 → (zeroBytes m a size (b+k)).toNat = 0 := by
    intro k hk
    have here : a ≤ b+k ∧ b+k < a+size := by omega
    simp [zeroBytes,here]
  exact readWordBytes byte

theorem readZeroOther (m : Memory) {a size b : Nat} (apart : b+8 ≤ a ∨ a+size ≤ b) :
    readWord (zeroBytes m a size) b = readWord m b := by
  apply readWordCongr
  intro x first last
  have outside : ¬ (a ≤ x ∧ x < a+size) := by omega
  simp only [zeroBytes,if_neg outside]

/-! Words as bit vectors, and runs of them. -/

def loadWord (m : Memory) (a : Nat) : BitVec 64 := BitVec.ofNat 64 (readWord m a)

def storeWord (m : Memory) (a : Nat) (v : BitVec 64) : Memory := writeWord m a v.toNat

def loadWords (m : Memory) : Nat → Nat → List (BitVec 64)
  | _, 0 => []
  | a, n+1 => loadWord m a :: loadWords m (a+8) n

def storeWords : Memory → Nat → List (BitVec 64) → Memory
  | m, _, [] => m
  | m, a, v::vs => storeWords (storeWord m a v) (a+8) vs

def SameBytes (m m' : Memory) (a size : Nat) : Prop := ∀ x, a ≤ x → x < a+size → m' x = m x

theorem loadStoreSame (m : Memory) (a : Nat) (v : BitVec 64) : loadWord (storeWord m a v) a = v := by
  unfold loadWord storeWord
  rw [readWriteSame m a v.isLt,BitVec.ofNat_toNat,BitVec.setWidth_eq]

theorem loadCongr {m m' : Memory} {a size b : Nat} (same : SameBytes m m' a size) (inside : a ≤ b ∧ b+8 ≤ a+size) :
    loadWord m' b = loadWord m b := by
  unfold loadWord
  rw [readWordCongr fun x low high => same x (by omega) (by omega)]

theorem loadWordsCongr {m m' : Memory} {a size b n : Nat} (same : SameBytes m m' a size)
    (inside : a ≤ b ∧ b+8*n ≤ a+size) : loadWords m' b n = loadWords m b n := by
  induction n generalizing b with
  | zero => rfl
  | succ n ih =>
    simp only [loadWords]
    rw [loadCongr same (by omega),ih (by omega)]

theorem storeWordOther (m : Memory) {a b size : Nat} (v : BitVec 64) (apart : b+size ≤ a ∨ a+8 ≤ b) :
    SameBytes m (storeWord m a v) b size := by
  intro x low high
  have outside : ¬ (a ≤ x ∧ x < a+8) := by omega
  simp only [storeWord,writeWord,if_neg outside]

theorem sameTrans {m m' m'' : Memory} {a size : Nat} (first : SameBytes m m' a size) (second : SameBytes m' m'' a size) :
    SameBytes m m'' a size := fun x low high => (second x low high).trans (first x low high)

theorem sameInside {m m' : Memory} {a size b size' : Nat} (same : SameBytes m m' a size) (inside : a ≤ b ∧ b+size' ≤ a+size) :
    SameBytes m m' b size' := fun x low high => same x (by omega) (by omega)

theorem loadStoreOther (m : Memory) {a b : Nat} (v : BitVec 64) (apart : b+8 ≤ a ∨ a+8 ≤ b) :
    loadWord (storeWord m a v) b = loadWord m b :=
  loadCongr (storeWordOther m v apart) ⟨Nat.le_refl _,Nat.le_refl _⟩

theorem storeWordsOther (m : Memory) {a b size : Nat} (vs : List (BitVec 64)) (apart : b+size ≤ a ∨ a+8*vs.length ≤ b) :
    SameBytes m (storeWords m a vs) b size := by
  induction vs generalizing m a with
  | nil => exact fun _ _ _ => rfl
  | cons v vs ih =>
    rw [List.length_cons] at apart
    exact sameTrans (storeWordOther m v (by omega)) (ih (storeWord m a v) (by omega))

theorem loadStoreWords (m : Memory) (a : Nat) (vs : List (BitVec 64)) : loadWords (storeWords m a vs) a vs.length = vs := by
  induction vs generalizing m a with
  | nil => rfl
  | cons v vs ih =>
    have first : SameBytes (storeWord m a v) (storeWords (storeWord m a v) (a+8) vs) a 8 :=
      storeWordsOther _ vs (Or.inl (Nat.le_refl _))
    simp only [List.length_cons,loadWords,storeWords]
    rw [loadCongr first ⟨Nat.le_refl _,Nat.le_refl _⟩,loadStoreSame,ih]

theorem loadWordsAppend (m : Memory) (a k n : Nat) : loadWords m a (k+n) = loadWords m a k ++ loadWords m (a+8*k) n := by
  induction k generalizing a with
  | zero => simp [loadWords]
  | succ k ih =>
    rw [Nat.succ_add]
    simp only [loadWords,ih,List.cons_append]
    rw [show a+8+8*k = a+8*(k+1) by omega]

theorem zeroBytesOther (m : Memory) {a size b size' : Nat} (apart : b+size' ≤ a ∨ a+size ≤ b) :
    SameBytes m (zeroBytes m a size) b size' := by
  intro x low high
  have outside : ¬ (a ≤ x ∧ x < a+size) := by omega
  simp only [zeroBytes,if_neg outside]

theorem loadWordsZero (m : Memory) {a size b n : Nat} (inside : a ≤ b ∧ b+8*n ≤ a+size) :
    loadWords (zeroBytes m a size) b n = List.replicate n 0 := by
  induction n generalizing b with
  | zero => rfl
  | succ n ih =>
    simp only [loadWords,loadWord,List.replicate_succ]
    rw [readZeroSame m (by omega),ih (by omega)]
    rfl

/-! Unsigned 32-bit values. -/

def readUnsigned (m : Memory) (a : Nat) : Nat :=
  (m a).toNat + 256*(m (a+1)).toNat + 65536*(m (a+2)).toNat + 16777216*(m (a+3)).toNat

theorem readUnsignedBound (m : Memory) (a : Nat) : readUnsigned m a < 2^32 := by
  have byte : ∀ x, (m x).toNat < 256 := fun x => (m x).toNat_lt
  have h0 := byte a; have h1 := byte (a+1); have h2 := byte (a+2); have h3 := byte (a+3)
  unfold readUnsigned
  omega

theorem readUnsignedCongr {m m' : Memory} {a size b : Nat} (same : SameBytes m m' a size) (inside : a ≤ b ∧ b+4 ≤ a+size) :
    readUnsigned m' b = readUnsigned m b := by
  unfold readUnsigned
  rw [same b (by omega) (by omega),same (b+1) (by omega) (by omega),same (b+2) (by omega) (by omega),
    same (b+3) (by omega) (by omega)]

/-! Signed 32-bit values. -/

def readInt (m : Memory) (a : Nat) : Int :=
  let u : Int := (m a).toNat + 256*(m (a+1)).toNat + 65536*(m (a+2)).toNat + 16777216*(m (a+3)).toNat
  if u < 2^31 then u else u - 2^32

def writeInt (m : Memory) (a : Nat) (v : Int) : Memory :=
  fun x => if a ≤ x ∧ x < a+4 then UInt8.ofNat ((v % 2^32).toNat / 256^(x-a)) else m x

theorem readIntUnsigned (m : Memory) (a : Nat) :
    readInt m a = if readUnsigned m a < 2^31 then (readUnsigned m a : Int) else readUnsigned m a - 2^32 := by
  unfold readInt readUnsigned
  dsimp only
  split <;> split <;> omega

theorem readIntCongr {m m' : Memory} {a size b : Nat} (same : SameBytes m m' a size) (inside : a ≤ b ∧ b+4 ≤ a+size) :
    readInt m' b = readInt m b := by
  rw [readIntUnsigned,readIntUnsigned,readUnsignedCongr same inside]

theorem writeIntBytes (m : Memory) (a : Nat) (v : Int) {k : Nat} (inside : k < 4) :
    (writeInt m a v (a+k)).toNat = (v % 2^32).toNat / 256^k % 256 := by
  have here : a ≤ a+k ∧ a+k < a+4 := by omega
  unfold writeInt
  rw [if_pos here]
  simp

theorem readUnsignedSame (m : Memory) (a : Nat) (v : Int) : readUnsigned (writeInt m a v) a = (v % 2^32).toNat := by
  have h0 := writeIntBytes m a v (k := 0) (by decide)
  rw [Nat.add_zero] at h0
  have bound : (v % 2^32).toNat < 2^32 := by omega
  unfold readUnsigned
  rw [h0,writeIntBytes m a v (by decide),writeIntBytes m a v (by decide),writeIntBytes m a v (by decide)]
  generalize (v % 2^32).toNat = u at bound
  simp only [Nat.reducePow] at bound ⊢
  omega

theorem readIntSame (m : Memory) (a : Nat) {v : Int} (low : -2^31 ≤ v) (high : v < 2^31) : readInt (writeInt m a v) a = v := by
  rw [readIntUnsigned,readUnsignedSame]
  split <;> omega

theorem writeIntOther (m : Memory) {a b size : Nat} (v : Int) (apart : b+size ≤ a ∨ a+4 ≤ b) :
    SameBytes m (writeInt m a v) b size := by
  intro x low high
  have outside : ¬ (a ≤ x ∧ x < a+4) := by omega
  simp only [writeInt,if_neg outside]

theorem writeWordOther (m : Memory) {a b size : Nat} (v : Nat) (apart : b+size ≤ a ∨ a+8 ≤ b) :
    SameBytes m (writeWord m a v) b size := by
  intro x low high
  have outside : ¬ (a ≤ x ∧ x < a+8) := by omega
  simp only [writeWord,if_neg outside]

end Kokos.ByteMemory

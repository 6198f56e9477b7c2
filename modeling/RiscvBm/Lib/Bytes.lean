import Mathlib.Data.Nat.Digits.Lemmas

/-!
# Little-endian fields of a block of bytes

A block is a function from positions to bytes. `getLE b off w` reads the `w`-byte
little-endian number at `off`, `setLE` overwrites it. The two laws are the usual
ones of a store: a field reads back what was written, and fields that do not
overlap do not disturb each other. `setWords` and `bit` are the two other layouts
that file systems use: arrays of words and bitmaps.
-/

namespace RiscvBm.Bytes

/-- A block of `n` bytes. -/
def Block (n : ℕ) : Type := Fin n → UInt8

variable {n : ℕ}

instance : Inhabited (Block n) := ⟨fun _ => 0⟩

instance : DecidableEq (Block n) := inferInstanceAs (DecidableEq (Fin n → UInt8))

/-- All bytes zero. -/
def zero : Block n := fun _ => 0

/-- The byte at `i`, as a number; positions outside the block read as 0. -/
def byteAt (b : Block n) (i : ℕ) : ℕ := if h : i < n then (b ⟨i, h⟩).toNat else 0

def getLE (b : Block n) (off : ℕ) : ℕ → ℕ
  | 0 => 0
  | w + 1 => byteAt b off + 256 * getLE b (off + 1) w

def setLE (b : Block n) (off w v : ℕ) : Block n := fun j =>
  if off ≤ j.val ∧ j.val < off + w then UInt8.ofNat (v / 256 ^ (j.val - off)) else b j

theorem byteAt_lt (b : Block n) (i : ℕ) : byteAt b i < 256 := by
  unfold byteAt
  split_ifs with h
  · exact UInt8.toNat_lt _
  · decide

theorem byteAt_setLE_of_lt (b : Block n) {off w v i : ℕ} (h₁ : off ≤ i) (h₂ : i < off + w)
    (hn : off + w ≤ n) : byteAt (setLE b off w v) i = v / 256 ^ (i - off) % 256 := by
  have hi : i < n := by omega
  unfold byteAt setLE
  rw [dif_pos hi]
  dsimp only
  rw [if_pos ⟨h₁, h₂⟩]
  exact UInt8.toNat_ofNat'

theorem byteAt_setLE_of_not (b : Block n) {off w v i : ℕ} (h : i < off ∨ off + w ≤ i) :
    byteAt (setLE b off w v) i = byteAt b i := by
  unfold byteAt setLE
  split_ifs with hi hin
  · dsimp only at hin
    omega
  · rfl
  · rfl

theorem getLE_congr {b c : Block n} {off w : ℕ}
    (h : ∀ i, off ≤ i → i < off + w → byteAt b i = byteAt c i) :
    getLE b off w = getLE c off w := by
  induction w generalizing off with
  | zero => rfl
  | succ w ih =>
    rw [getLE, getLE, h off le_rfl (by omega), ih fun i h₁ h₂ => h i (by omega) (by omega)]

/-- Fields that do not overlap do not disturb each other. -/
theorem getLE_setLE_of_disjoint (b : Block n) {off w v off' w' : ℕ}
    (h : off' + w' ≤ off ∨ off + w ≤ off') :
    getLE (setLE b off w v) off' w' = getLE b off' w' := by
  apply getLE_congr
  intro i h₁ h₂
  apply byteAt_setLE_of_not
  omega

/-- The bytes of a number, from the `k`-th on, make up the number again. -/
theorem getLE_of_digits {b : Block n} {off w v : ℕ}
    (h : ∀ i < w, byteAt b (off + i) = v / 256 ^ i % 256) :
    getLE b off w = v % 256 ^ w := by
  induction w generalizing off v with
  | zero => simp [getLE, Nat.mod_one]
  | succ w ih =>
    have h0 : byteAt b off = v % 256 := by
      have := h 0 (by omega)
      simpa using this
    have hrest : getLE b (off + 1) w = v / 256 % 256 ^ w := by
      apply ih
      intro i hi
      have := h (i + 1) (by omega)
      rw [Nat.div_div_eq_div_mul, ← pow_succ', add_assoc, add_comm 1 i]
      exact this
    rw [getLE, h0, hrest, pow_succ', Nat.mod_mul]

/-- A field reads back what was written, cut to its width. -/
theorem getLE_setLE_same (b : Block n) {off w v : ℕ} (hn : off + w ≤ n) :
    getLE (setLE b off w v) off w = v % 256 ^ w := by
  apply getLE_of_digits
  intro i hi
  rw [byteAt_setLE_of_lt b (by omega) (by omega) hn]
  congr 3
  omega

theorem byteAt_zero (i : ℕ) : byteAt (zero : Block n) i = 0 := by
  unfold byteAt zero
  split_ifs
  · rfl
  · rfl

theorem getLE_zero (off w : ℕ) : getLE (zero : Block n) off w = 0 := by
  induction w generalizing off with
  | zero => rfl
  | succ w ih => rw [getLE, byteAt_zero, ih]

/-! ### Runs of 32-bit words -/

/-- Overwrite `k` words from `off` on with `f 0, f 1, …`. -/
def setWords (b : Block n) (off : ℕ) (f : ℕ → ℕ) : ℕ → Block n
  | 0 => b
  | k + 1 => setLE (setWords b off f k) (off + 4 * k) 4 (f k)

theorem getLE_setWords_of_disjoint (b : Block n) {off off' w : ℕ} {f : ℕ → ℕ} {k : ℕ}
    (h : off' + w ≤ off ∨ off + 4 * k ≤ off') :
    getLE (setWords b off f k) off' w = getLE b off' w := by
  induction k with
  | zero => rfl
  | succ k ih =>
    rw [setWords, getLE_setLE_of_disjoint _ (by omega)]
    exact ih (by omega)

theorem getLE_setWords_same (b : Block n) {off : ℕ} {f : ℕ → ℕ} {k j : ℕ} (hj : j < k)
    (hn : off + 4 * k ≤ n) : getLE (setWords b off f k) (off + 4 * j) 4 = f j % 256 ^ 4 := by
  induction k with
  | zero => omega
  | succ k ih =>
    rw [setWords]
    by_cases hk : j = k
    · rw [hk]
      exact getLE_setLE_same _ (by omega)
    · rw [getLE_setLE_of_disjoint _ (by omega)]
      exact ih (by omega) (by omega)

/-! ### Bits -/

/-- Bit `i` of the block. -/
def bit (b : Block n) (i : ℕ) : Bool := (byteAt b (i / 8)).testBit (i % 8)

/-- `b[i/8] |= 1 << (i % 8)` -/
def setBit (b : Block n) (i : ℕ) : Block n :=
  setLE b (i / 8) 1 (byteAt b (i / 8) ||| 1 <<< (i % 8))

/-- `b[i/8] &= ~(1 << (i % 8))` -/
def clearBit (b : Block n) (i : ℕ) : Block n :=
  setLE b (i / 8) 1 (byteAt b (i / 8) &&& (255 ^^^ 1 <<< (i % 8)))

theorem testBit_shift (i j : ℕ) : (1 <<< i).testBit j = decide (i = j) := by
  rw [Nat.one_shiftLeft, Nat.testBit_two_pow]

/-- The test `(b[i/8] & (1 << (i % 8))) == 0`. -/
theorem and_shift_eq_zero (b : Block n) (i : ℕ) :
    byteAt b (i / 8) &&& 1 <<< (i % 8) = 0 ↔ bit b i = false := by
  unfold bit
  constructor
  · intro h
    have := congrArg (fun x => x.testBit (i % 8)) h
    simpa [Nat.testBit_and, testBit_shift] using this
  · intro h
    apply Nat.eq_of_testBit_eq
    intro j
    rw [Nat.testBit_and, testBit_shift, Nat.zero_testBit]
    by_cases hj : i % 8 = j
    · rw [← hj, h]
      rfl
    · simp [hj]

theorem byteAt_setLE_one (b : Block n) {i v : ℕ} (hi : i < n) (hv : v < 256) (j : ℕ) :
    byteAt (setLE b i 1 v) j = if j = i then v else byteAt b j := by
  split_ifs with h
  · rw [h, byteAt_setLE_of_lt b le_rfl (by omega) (by omega)]
    simpa using hv
  · exact byteAt_setLE_of_not b (by omega)

theorem bit_zero (j : ℕ) : bit (zero : Block n) j = false := by
  rw [bit, byteAt_zero]
  exact Nat.zero_testBit _

theorem bit_setBit (b : Block n) {i : ℕ} (hi : i < 8 * n) (j : ℕ) :
    bit (setBit b i) j = (bit b j || decide (j = i)) := by
  have hlt : byteAt b (i / 8) ||| 1 <<< (i % 8) < 256 := by
    have hbyte : byteAt b (i / 8) < 2 ^ 8 := byteAt_lt b _
    have hmask : 1 <<< (i % 8) < 2 ^ 8 := by
      rw [Nat.one_shiftLeft]
      exact Nat.pow_lt_pow_right (by omega) (by omega)
    exact Nat.or_lt_two_pow hbyte hmask
  unfold bit setBit
  rw [byteAt_setLE_one b (by omega) hlt]
  by_cases h : j / 8 = i / 8
  · rw [if_pos h, Nat.testBit_or, testBit_shift, h]
    congr 2
    exact propext ⟨fun _ => by omega, fun _ => by omega⟩
  · have hne : j ≠ i := fun hji => h (by rw [hji])
    rw [if_neg h]
    simp [hne]

theorem bit_clearBit (b : Block n) {i : ℕ} (hi : i < 8 * n) (j : ℕ) :
    bit (clearBit b i) j = (bit b j && decide (j ≠ i)) := by
  have hlt : byteAt b (i / 8) &&& (255 ^^^ 1 <<< (i % 8)) < 256 :=
    lt_of_le_of_lt Nat.and_le_left (byteAt_lt b _)
  unfold bit clearBit
  rw [byteAt_setLE_one b (by omega) hlt]
  by_cases h : j / 8 = i / 8
  · have h255 : (255 : ℕ).testBit (j % 8) = true := by
      have hj : j % 8 < 8 := Nat.mod_lt _ (by decide)
      interval_cases j % 8 <;> rfl
    rw [if_pos h, Nat.testBit_and, Nat.testBit_xor, testBit_shift, h255, h]
    by_cases hij : j = i
    · simp [hij]
    · have hne : i % 8 ≠ j % 8 := by omega
      simp [hij, hne]
  · have hne : j ≠ i := fun hji => h (by rw [hji])
    rw [if_neg h]
    simp [hne]

end RiscvBm.Bytes

import Mathlib.Tactic.Ring

/-!
# Memory by the byte

A memory that is read and written a byte at a time, whatever it is made of: `Bytes` is the
two operations with the one law between them. `memmove` is the two loops of the C function,
downwards where the ranges overlap the wrong way, and `read_memmove` says that either loop
has the effect of reading everything first.

`Copies src dst n` is a copy of `n` bytes between any two sequences of addresses, so that
copies that follow one another in pieces are one copy (`Copies.append`).

The last section is for memories of words: the bytes of a word are its digits to base 256.
-/

namespace RiscvBm.ByteMemory

structure Bytes (σ β : Type*) where
  read : σ → ℕ → β
  store : σ → ℕ → β → σ
  read_store : ∀ s a b c, read (store s a b) c = if c = a then b else read s c

namespace Bytes

variable {σ β : Type*} (M : Bytes σ β)

/-! ## `memmove` -/

/-- `while (n-- > 0) *d++ = *s++;` -/
def copyUp (d f : ℕ) : ℕ → σ → σ
  | 0, s => s
  | n + 1, s => copyUp (d + 1) (f + 1) n (M.store s d (M.read s f))

/-- `while (n-- > 0) *--d = *--s;`, for ranges that start at `d` and `f`. -/
def copyDown (d f : ℕ) : ℕ → σ → σ
  | 0, s => s
  | n + 1, s => copyDown d f n (M.store s (d + n) (M.read s (f + n)))

def memmove (s : σ) (d f n : ℕ) : σ :=
  if f < d ∧ f + n > d then M.copyDown d f n s else M.copyUp d f n s

variable {s s' s₁ s₂ : σ} {d f n a : ℕ}

theorem read_copyUp (h : d ≤ f ∨ f + n ≤ d) :
    M.read (M.copyUp d f n s) a =
      if d ≤ a ∧ a < d + n then M.read s (f + (a - d)) else M.read s a := by
  induction n generalizing d f s with
  | zero =>
    rw [if_neg (by omega)]
    rfl
  | succ n ih =>
    rw [copyUp, ih (by omega)]
    by_cases hfirst : a = d
    · rw [if_neg (by omega), M.read_store, if_pos hfirst, if_pos (by omega), hfirst,
        Nat.sub_self, Nat.add_zero]
    by_cases hin : d ≤ a ∧ a < d + (n + 1)
    · -- the byte is not the one just written
      have hread : f + 1 + (a - (d + 1)) = f + (a - d) := by omega
      rw [if_pos (by omega), if_pos hin, hread, M.read_store, if_neg (by omega)]
    · rw [if_neg (by omega), if_neg hin, M.read_store, if_neg hfirst]

theorem read_copyDown (h : f ≤ d) :
    M.read (M.copyDown d f n s) a =
      if d ≤ a ∧ a < d + n then M.read s (f + (a - d)) else M.read s a := by
  induction n generalizing s with
  | zero =>
    rw [if_neg (by omega)]
    rfl
  | succ n ih =>
    rw [copyDown, ih]
    by_cases hlast : a = d + n
    · rw [if_neg (by omega), M.read_store, if_pos hlast, if_pos (by omega), hlast,
        Nat.add_sub_cancel_left]
    by_cases hin : d ≤ a ∧ a < d + (n + 1)
    · rw [if_pos (by omega), if_pos hin, M.read_store, if_neg (by omega)]
    · rw [if_neg (by omega), if_neg hin, M.read_store, if_neg hlast]

theorem read_memmove :
    M.read (M.memmove s d f n) a =
      if d ≤ a ∧ a < d + n then M.read s (f + (a - d)) else M.read s a := by
  unfold memmove
  by_cases hover : f < d ∧ f + n > d
  · rw [if_pos hover]
    exact M.read_copyDown (Nat.le_of_lt hover.1)
  · rw [if_neg hover]
    exact M.read_copyUp (by omega)

/-- What every store to the target range keeps, `memmove` keeps. -/
theorem memmove_keeps {P : σ → Prop}
    (hstore : ∀ s c b, d ≤ c → c < d + n → P s → P (M.store s c b)) (h : P s) :
    P (M.memmove s d f n) := by
  have hup : ∀ {n d f s}, (∀ s c b, d ≤ c → c < d + n → P s → P (M.store s c b)) → P s →
      P (M.copyUp d f n s) := by
    intro n
    induction n with
    | zero => exact fun _ hs => hs
    | succ n ih =>
      intro d f s hstore hs
      apply ih
      · intro s c b hlo hhi hs
        exact hstore s c b (by omega) (by omega) hs
      · exact hstore s d _ (Nat.le_refl d) (by omega) hs
  have hdown : ∀ {n s}, (∀ s c b, d ≤ c → c < d + n → P s → P (M.store s c b)) → P s →
      P (M.copyDown d f n s) := by
    intro n
    induction n with
    | zero => exact fun _ hs => hs
    | succ n ih =>
      intro s hstore hs
      apply ih
      · intro s c b hlo hhi hs
        exact hstore s c b hlo (by omega) hs
      · exact hstore s (d + n) _ (Nat.le_add_right d n) (by omega) hs
  unfold memmove
  split
  · exact hdown hstore h
  · exact hup hstore h

/-! ## Lists of bytes -/

/-- The bytes of a list, from `a` on. -/
def storeList : ℕ → List β → σ → σ
  | _, [], s => s
  | a, b :: l, s => storeList (a + 1) l (M.store s a b)

theorem read_storeList {l : List β} {c : ℕ} :
    M.read (M.storeList a l s) c =
      if h : a ≤ c ∧ c < a + l.length then l.get ⟨c - a, by omega⟩ else M.read s c := by
  induction l generalizing a s with
  | nil =>
    rw [dif_neg (by rintro ⟨hlo, hhi⟩; exact absurd hhi (Nat.not_lt.mpr hlo))]
    rfl
  | cons b l ih =>
    rw [storeList, ih]
    by_cases hfirst : c = a
    · subst hfirst
      rw [dif_neg (by omega), M.read_store, if_pos rfl, dif_pos ⟨Nat.le_refl c, by simp⟩]
      simp
    by_cases hin : a ≤ c ∧ c < a + (b :: l).length
    · have hin' : a + 1 ≤ c ∧ c < a + 1 + l.length := by
        rw [List.length_cons] at hin
        omega
      obtain ⟨k, rfl⟩ := Nat.exists_eq_add_of_le hin'.1
      rw [dif_pos hin', dif_pos hin]
      have hk : a + 1 + k - a = k + 1 := by omega
      simp [hk]
    · rw [dif_neg hin, dif_neg, M.read_store, if_neg hfirst]
      rw [List.length_cons] at hin
      omega

/-- What every store to the range keeps, the list keeps. -/
theorem storeList_keeps {P : σ → Prop} {l : List β}
    (hstore : ∀ s c b, a ≤ c → c < a + l.length → P s → P (M.store s c b)) (h : P s) :
    P (M.storeList a l s) := by
  induction l generalizing a s with
  | nil => exact h
  | cons b l ih =>
    rw [List.length_cons] at hstore
    apply ih
    · intro s c b hlo hhi hs
      exact hstore s c b (by omega) (by omega) hs
    · exact hstore s a b (Nat.le_refl a) (by omega) h

/-! ## Copies -/

structure Copies (src dst : ℕ → ℕ) (n : ℕ) (s s' : σ) : Prop where
  copied : ∀ i < n, M.read s' (dst i) = M.read s (src i)
  others : ∀ a, (∀ i < n, a ≠ dst i) → M.read s' a = M.read s a

variable {M} {src dst src' dst' : ℕ → ℕ} {c : ℕ}

theorem copies_memmove : M.Copies (fun i => f + i) (fun i => d + i) n s (M.memmove s d f n) := by
  constructor
  · intro i hi
    rw [M.read_memmove, if_pos ⟨Nat.le_add_right d i, by omega⟩, Nat.add_sub_cancel_left]
  · intro a hout
    rw [M.read_memmove, if_neg]
    rintro ⟨hlo, hhi⟩
    exact hout (a - d) (by omega) (by omega)

theorem Copies.zero (s : σ) : M.Copies src dst 0 s s :=
  ⟨fun _ hi => absurd hi (Nat.not_lt_zero _), fun _ _ => rfl⟩

theorem Copies.congr (h : M.Copies src dst n s s') (hsrc : ∀ i < n, src i = src' i)
    (hdst : ∀ i < n, dst i = dst' i) : M.Copies src' dst' n s s' := by
  constructor
  · intro i hi
    rw [← hsrc i hi, ← hdst i hi]
    exact h.copied i hi
  · intro a hout
    apply h.others
    intro i hi
    rw [hdst i hi]
    exact hout i hi

/-- Two pieces: what the second one reads or writes, the first one has not written. -/
theorem Copies.append (h₁ : M.Copies src dst n s s₁)
    (h₂ : M.Copies (fun j => src (n + j)) (fun j => dst (n + j)) c s₁ s₂)
    (hdst : ∀ i < n, ∀ j < c, dst i ≠ dst (n + j))
    (hsrc : ∀ i < n, ∀ j < c, src (n + j) ≠ dst i) : M.Copies src dst (n + c) s s₂ := by
  constructor
  · intro i hi
    by_cases hin : i < n
    · rw [h₂.others _ fun j hj => hdst i hin j hj, h₁.copied i hin]
    · obtain ⟨j, rfl⟩ := Nat.exists_eq_add_of_le (Nat.le_of_not_lt hin)
      have hj : j < c := Nat.lt_of_add_lt_add_left hi
      rw [h₂.copied j hj, h₁.others _ fun i hi => hsrc i hi j hj]
  · intro a hout
    rw [h₂.others a fun j hj => hout (n + j) (by omega), h₁.others a fun i hi => hout i (by omega)]

end Bytes

/-! ## The bytes of a word -/

/-- The byte `j` of `w`, from the low end. -/
def digit (w j : ℕ) : UInt8 := UInt8.ofNat (w / 256 ^ j)

def setDigit (w j : ℕ) (b : UInt8) : ℕ :=
  w / 256 ^ (j + 1) * 256 ^ (j + 1) + b.toNat * 256 ^ j + w % 256 ^ j

theorem digit_add (w n k : ℕ) : digit w (n + k) = digit (w / 256 ^ n) k := by
  rw [digit, digit, Nat.div_div_eq_div_mul, pow_add]

/-- The low `n` bytes of a word are those of its remainder. -/
theorem digit_of_mod {v w n j : ℕ} (hj : j < n) (h : v % 256 ^ n = w % 256 ^ n) :
    digit v j = digit w j := by
  obtain ⟨k, rfl⟩ := Nat.exists_eq_add_of_lt hj
  have hdvd : 256 ^ j * 2 ^ 8 ∣ 256 ^ (j + k + 1) := ⟨256 ^ k, by ring⟩
  apply UInt8.toNat_inj.mp
  rw [digit, digit, UInt8.toNat_ofNat', UInt8.toNat_ofNat', ← Nat.mod_mul_right_div_self,
    ← Nat.mod_mul_right_div_self, ← Nat.mod_mod_of_dvd v hdvd, h, Nat.mod_mod_of_dvd w hdvd]

theorem setDigit_eq (w j : ℕ) (b : UInt8) :
    setDigit w j b = w % 256 ^ j + (w / 256 ^ (j + 1) * 256 + b.toNat) * 256 ^ j := by
  rw [setDigit]
  ring

theorem mod_add_mul_div (v a n : ℕ) : (v % 256 ^ n + a * 256 ^ n) / 256 ^ n = a := by
  have hpos : 0 < 256 ^ n := Nat.pow_pos (by decide)
  rw [Nat.add_mul_div_right _ _ hpos, Nat.div_eq_of_lt (Nat.mod_lt _ hpos), Nat.zero_add]

theorem digit_setDigit (w j i : ℕ) (b : UInt8) :
    digit (setDigit w j b) i = if i = j then b else digit w i := by
  have hb := b.toNat_lt
  rw [setDigit_eq]
  rcases Nat.lt_trichotomy i j with hlt | rfl | hgt
  · rw [if_neg (Nat.ne_of_lt hlt)]
    apply digit_of_mod hlt
    rw [Nat.add_mul_mod_self_right, Nat.mod_mod]
  · apply UInt8.toNat_inj.mp
    rw [if_pos rfl, digit, UInt8.toNat_ofNat', mod_add_mul_div]
    omega
  · rw [if_neg (Nat.ne_of_gt hgt)]
    obtain ⟨k, rfl⟩ := Nat.exists_eq_add_of_lt hgt
    have hhigh : (w / 256 ^ (j + 1) * 256 + b.toNat) / 256 ^ 1 = w / 256 ^ (j + 1) := by omega
    rw [Nat.add_assoc, Nat.add_comm k, digit_add, digit_add, mod_add_mul_div, hhigh, ← digit_add,
      Nat.add_assoc]

/-- The low `n` bytes of one word and the others of another. -/
theorem digit_splice (v w n j : ℕ) :
    digit (v % 256 ^ n + w / 256 ^ n * 256 ^ n) j = if j < n then digit v j else digit w j := by
  by_cases hj : j < n
  · rw [if_pos hj]
    apply digit_of_mod hj
    rw [Nat.add_mul_mod_self_right, Nat.mod_mod]
  · rw [if_neg hj]
    obtain ⟨k, rfl⟩ := Nat.exists_eq_add_of_le (Nat.le_of_not_lt hj)
    rw [digit_add, digit_add w, mod_add_mul_div]

end RiscvBm.ByteMemory

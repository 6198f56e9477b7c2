import RiscvBm.Net.Mbuf

/-!
# The checksum

`in_cksum` adds the 16-bit words of a buffer in 32 bits and folds the carries twice. A sum with
end-around carry is a sum modulo 65535 whose representative is zero only for zero words
(`residue`), and the accumulator's range ends at 2³² - 1, a multiple of 65535. So two folds are
enough for every sum, and the checksum that is put into a buffer does not carry out of the
accumulator: `inCksum_law`.
-/

namespace RiscvBm.Net

open Wire

/-! ## §1  The function -/

/-- The loop of `in_cksum`: 16-bit words, and the odd byte at the end. -/
def sumWords : List Byte → BitVec 32 → BitVec 32
  | b₀ :: b₁ :: l, sum => sumWords l (sum + (Codec.word b₀ b₁).setWidth 32)
  | [b], sum => sum + b.setWidth 32
  | [], sum => sum

/-- Fold the carries into the low 16 bits. -/
def foldCarries (sum : BitVec 32) : BitVec 32 :=
  let sum := (sum &&& 0xffff#32) + (sum >>> 16)
  sum + (sum >>> 16)

def inCksum (l : List Byte) : BitVec 16 := ~~~ (foldCarries (sumWords l 0#32)).setWidth 16

/-- The sum of the words without the width of the accumulator. -/
def total : List Byte → ℕ
  | b₀ :: b₁ :: l => (Codec.word b₀ b₁).toNat + total l
  | [b] => b.toNat
  | [] => 0

/-! ## §2  One's-complement sums -/

/-- The words of a buffer; an odd byte at the end is padded with a zero byte. -/
def words : List Byte → List (BitVec 16)
  | b₀ :: b₁ :: l => Codec.word b₀ b₁ :: words l
  | [b] => [Codec.word b 0]
  | [] => []

/-- Addition with end-around carry. -/
def onesAdd (a b : BitVec 16) : BitVec 16 :=
  a + b + if a.toNat + b.toNat < 2 ^ 16 then 0 else 1

def onesSum (ws : List (BitVec 16)) : BitVec 16 := ws.foldl onesAdd 0

/-- The 16-bit representative of a sum modulo 65535. -/
def residue (n : ℕ) : ℕ := if n = 0 then 0 else (n - 1) % 65535 + 1

theorem residue_eq {n r k : ℕ} (h : n = 65535 * k + r) (hr : r ≤ 65535) (h0 : r = 0 → n = 0) :
    residue n = r := by
  unfold residue
  split_ifs <;> omega

theorem toNat_word (b : Byte) : (Codec.word b 0).toNat = b.toNat := by
  rw [Codec.word, BitVec.toNat_append]
  simp

theorem total_le (l : List Byte) : total l ≤ 65535 * (words l).length := by
  induction l using total.induct with
  | case1 b₀ b₁ l ih =>
    have hw := (Codec.word b₀ b₁).isLt
    rw [total, words, List.length_cons]
    omega
  | case2 b =>
    have hb := b.isLt
    rw [total, words, List.length_singleton]
    omega
  | case3 => exact Nat.zero_le _

theorem length_words (l : List Byte) : (words l).length = (l.length + 1) / 2 := by
  induction l using total.induct with
  | case1 b₀ b₁ l ih =>
    rw [words, List.length_cons, ih, List.length_cons, List.length_cons]
    omega
  | case2 b => rw [words, List.length_singleton, List.length_singleton]
  | case3 => rfl

/-- Words in front are summed first. -/
theorem total_append {l₁ : List Byte} (h : Even l₁.length) (l₂ : List Byte) :
    total (l₁ ++ l₂) = total l₁ + total l₂ := by
  induction l₁ using total.induct with
  | case1 b₀ b₁ l ih =>
    rw [List.length_cons, List.length_cons, Nat.even_add_one, Nat.even_add_one, not_not] at h
    rw [List.cons_append, List.cons_append, total, total, ih h, Nat.add_assoc]
  | case2 b => exact absurd h (by decide : ¬ Even 1)
  | case3 => exact (Nat.zero_add _).symm

theorem toNat_onesAdd {a : BitVec 16} {n : ℕ} (ha : a.toNat = residue n) (w : BitVec 16) :
    (onesAdd a w).toNat = residue (n + w.toNat) := by
  have hw := w.isLt
  unfold residue at ha ⊢
  have hadd : (onesAdd a w).toNat =
      (a.toNat + w.toNat + if a.toNat + w.toNat < 2 ^ 16 then 0 else 1) % 2 ^ 16 := by
    unfold onesAdd
    split_ifs <;> simp [BitVec.toNat_add]
  rw [hadd]
  split_ifs at ha ⊢ <;> omega

theorem toNat_foldl_onesAdd (l : List Byte) {a : BitVec 16} {n : ℕ} (ha : a.toNat = residue n) :
    ((words l).foldl onesAdd a).toNat = residue (n + total l) := by
  induction l using total.induct generalizing a n with
  | case1 b₀ b₁ l ih =>
    rw [words, List.foldl_cons, ih (toNat_onesAdd ha _), total, Nat.add_assoc]
  | case2 b =>
    rw [words, List.foldl_cons, List.foldl_nil, toNat_onesAdd ha, toNat_word, total]
  | case3 => exact ha

/-! ## §3  The accumulator -/

theorem toNat_sumWords (l : List Byte) (sum : BitVec 32) :
    (sumWords l sum).toNat = (sum.toNat + total l) % 2 ^ 32 := by
  induction l using total.induct generalizing sum with
  | case1 b₀ b₁ l ih =>
    have hw := (Codec.word b₀ b₁).isLt
    rw [sumWords, ih, total, BitVec.toNat_add, BitVec.toNat_setWidth]
    omega
  | case2 b =>
    have hb := b.isLt
    rw [sumWords, total, BitVec.toNat_add, BitVec.toNat_setWidth]
    omega
  | case3 => exact (Nat.mod_eq_of_lt sum.isLt).symm

theorem toNat_foldCarries (s : BitVec 32) :
    ((foldCarries s).setWidth 16).toNat = residue s.toNat := by
  have hs := s.isLt
  have hand : (s &&& 0xffff#32).toNat = s.toNat % 2 ^ 16 := by
    rw [BitVec.toNat_and]
    exact Nat.and_two_pow_sub_one_eq_mod _ 16
  have hshift : ∀ t : BitVec 32, (t >>> 16).toNat = t.toNat / 2 ^ 16 := by
    intro t
    rw [BitVec.toNat_ushiftRight, Nat.shiftRight_eq_div_pow]
  unfold foldCarries
  simp only [BitVec.toNat_setWidth, BitVec.toNat_add, hshift, hand]
  generalize s.toNat = n at hs ⊢
  have hq : n / 2 ^ 16 < 2 ^ 16 := by omega
  have hn := Nat.div_add_mod n (2 ^ 16)
  generalize n / 2 ^ 16 = q at hn hq ⊢
  have hr := Nat.mod_lt n (show 2 ^ 16 > 0 by decide)
  generalize n % 2 ^ 16 = r at hn hr ⊢
  rw [Nat.mod_eq_of_lt (show r + q < 2 ^ 32 by omega)]
  symm
  -- whether the first fold carries again
  rcases Nat.lt_or_ge (r + q) (2 ^ 16) with hlt | hge
  · rw [Nat.div_eq_of_lt hlt]
    apply residue_eq (k := q) <;> omega
  · rw [show (r + q) / 2 ^ 16 = 1 by omega]
    apply residue_eq (k := q + 1) <;> omega

theorem toNat_inCksum (l : List Byte) :
    (inCksum l).toNat = 65535 - residue (total l % 2 ^ 32) := by
  rw [inCksum, BitVec.toNat_not, toNat_foldCarries, toNat_sumWords, BitVec.toNat_zero,
    Nat.zero_add]

/-- The checksum of a sum completes it to a multiple of 65535, which is still in range. -/
theorem residue_complete (n : ℕ) :
    residue ((n + (65535 - residue (n % 2 ^ 32))) % 2 ^ 32) = 65535 := by
  have hm := Nat.mod_lt n (show 2 ^ 32 > 0 by decide)
  have hn := Nat.div_add_mod n (2 ^ 32)
  generalize n % 2 ^ 32 = m at hm hn ⊢
  have hdiv := Nat.div_add_mod (m - 1) 65535
  have hrem := Nat.mod_lt (m - 1) (show 65535 > 0 by decide)
  have hsum : (n + (65535 - residue m)) % 2 ^ 32 = m + (65535 - residue m) := by
    unfold residue
    split_ifs <;> omega
  rw [hsum]
  apply residue_eq (k := if m = 0 then 0 else (m - 1) / 65535)
  · unfold residue
    split_ifs <;> omega
  · exact le_rfl
  · intro h
    cases h

theorem inCksum_stored {l₁ : List Byte} (h : Even l₁.length) (l₂ : List Byte) :
    inCksum (l₁ ++ Codec.u16.encode (inCksum (l₁ ++ Codec.u16.encode 0 ++ l₂)) ++ l₂) = 0 := by
  have htotal : ∀ c : BitVec 16, total (l₁ ++ Codec.u16.encode c ++ l₂) =
      total l₁ + total l₂ + c.toNat := by
    intro c
    rw [List.append_assoc, total_append h]
    show total l₁ + ((Codec.word (Codec.lo c) (Codec.hi c)).toNat + total l₂) = _
    rw [Codec.word_lo_hi]
    omega
  apply BitVec.eq_of_toNat_eq
  rw [toNat_inCksum, htotal, toNat_inCksum, htotal, BitVec.ofNat_eq_ofNat, BitVec.toNat_zero,
    Nat.add_zero, residue_complete]

/-- **The checksum is the complement of the one's-complement sum, and a buffer with its checksum
in place has the checksum zero.** -/
theorem inCksum_law :
    (∀ l, (words l).length ≤ 65537 →
      (sumWords l 0#32).toNat = total l ∧ inCksum l = ~~~ onesSum (words l)) ∧
    ∀ l₁ l₂ : List Byte, Even l₁.length → Even l₂.length →
      inCksum (l₁ ++ Codec.u16.encode (inCksum (l₁ ++ Codec.u16.encode 0 ++ l₂)) ++ l₂) = 0 := by
  constructor
  · intro l hwords
    have hle := total_le l
    have hlt : total l < 2 ^ 32 := by omega
    constructor
    · rw [toNat_sumWords, BitVec.toNat_zero, Nat.zero_add, Nat.mod_eq_of_lt hlt]
    · apply BitVec.eq_of_toNat_eq
      have hsum : (onesSum (words l)).toNat = residue (0 + total l) := toNat_foldl_onesAdd l rfl
      rw [toNat_inCksum, BitVec.toNat_not, hsum, Nat.mod_eq_of_lt hlt, Nat.zero_add]
  · intro l₁ l₂ h₁ _
    exact inCksum_stored h₁ l₂

/-- A header with its checksum in place sums to nothing. -/
theorem inCksum_self (hdr : Ip) :
    inCksum (ip.encode { hdr with sum := inCksum (ip.encode { hdr with sum := 0 }) }) = 0 := by
  have hsplit : ∀ c, ip.encode { hdr with sum := c } =
      (ip.encode hdr).take 10 ++ Codec.u16.encode c ++ (ip.encode hdr).drop 12 := fun _ => rfl
  rw [hsplit (inCksum _), hsplit 0]
  apply inCksum_stored
  rw [List.length_take, ip.length_encode]
  decide

end RiscvBm.Net

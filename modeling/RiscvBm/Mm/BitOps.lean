import Mathlib.Data.Nat.Log
import Mathlib.Tactic.Ring
import RiscvBm.Param

/-!
# Bit searches (`kernel/bitops.h`, `get_order` in `kernel/page.h`)

`__ffs` and `__fls` halve the width they look at; each halving is one application of
a step function. An invariant on the pair of counter and shifted word, kept by
every step, gives the result. `find_next_bit_helper` goes through a bitmap word by word.
-/

namespace RiscvBm.BitOps

/-! ## §1  The lowest set bit -/

/-- `if ((word & mask) == 0) { num += bits; word >>= bits; }` -/
def ffsStep (bits : ℕ) (r : ℕ × ℕ) : ℕ × ℕ :=
  if r.2 &&& (2 ^ bits - 1) = 0 then (r.1 + bits, r.2 >>> bits) else r

/-- `num` and what is left of `word` at the end of `__ffs`. -/
def ffsSteps (word : ℕ) : ℕ × ℕ :=
  ffsStep 1 (ffsStep 2 (ffsStep 4 (ffsStep 8 (ffsStep 16 (ffsStep 32 (0, word))))))

/-- `__ffs` -/
def ffs (word : ℕ) : ℕ := (ffsSteps word).1

theorem ffsStep_spec (bits : ℕ) (r : ℕ × ℕ) :
    2 ^ (ffsStep bits r).1 * (ffsStep bits r).2 = 2 ^ r.1 * r.2 := by
  unfold ffsStep
  split_ifs with h
  · rw [Nat.and_two_pow_sub_one_eq_mod] at h
    dsimp only
    rw [Nat.shiftRight_eq_div_pow, pow_add, mul_assoc,
      Nat.mul_div_cancel' (Nat.dvd_of_mod_eq_zero h)]
  · rfl

theorem two_pow_ffs_dvd (w : ℕ) : 2 ^ ffs w ∣ w := by
  refine ⟨(ffsSteps w).2, ?_⟩
  unfold ffs ffsSteps
  rw [ffsStep_spec, ffsStep_spec, ffsStep_spec, ffsStep_spec, ffsStep_spec, ffsStep_spec]
  simp

/-! ## §2  The highest set bit -/

/-- `if (!(word & (~0ul << (64 - bits)))) { num -= bits; word <<= bits; }` -/
def flsStep (bits : ℕ) (r : ℕ × ℕ) : ℕ × ℕ :=
  if r.2 >>> (64 - bits) = 0 then (r.1 - bits, r.2 <<< bits % 2 ^ 64) else r

/-- `num` and the shifted `word` at the end of `__fls`. -/
def flsSteps (word : ℕ) : ℕ × ℕ :=
  flsStep 1 (flsStep 2 (flsStep 4 (flsStep 8 (flsStep 16 (flsStep 32 (63, word))))))

def fls64 (x : ℕ) : ℕ := if x = 0 then 0 else (flsSteps x).1 + 1

/-- Before the step that looks at `bits` bits: the word, shifted left by what
`num` has lost, is a 64-bit word with a bit among the upper `2 * bits`. -/
structure FlsInv (w bits : ℕ) (r : ℕ × ℕ) : Prop where
  room : 2 * bits - 1 ≤ r.1
  lt : r.2 < 2 ^ 64
  high : 2 ^ (64 - 2 * bits) ≤ r.2
  eq : r.2 * 2 ^ r.1 = w * 2 ^ 63

theorem flsStep_spec {w bits : ℕ} (hb : bits ≤ 32) (hpos : 0 < bits) {r : ℕ × ℕ}
    (h : FlsInv w bits r) :
    bits - 1 ≤ (flsStep bits r).1 ∧ (flsStep bits r).2 < 2 ^ 64 ∧
      2 ^ (64 - bits) ≤ (flsStep bits r).2 ∧
      (flsStep bits r).2 * 2 ^ (flsStep bits r).1 = w * 2 ^ 63 := by
  have hroom := h.room
  unfold flsStep
  split_ifs with hz
  · have hsmall : r.2 < 2 ^ (64 - bits) := by
      rw [Nat.shiftRight_eq_div_pow] at hz
      rcases (Nat.div_eq_zero_iff).mp hz with h0 | hlt
      · exact absurd h0 (Nat.two_pow_pos _).ne'
      · exact hlt
    have hfit : r.2 * 2 ^ bits < 2 ^ 64 := by
      have h64 : (2 : ℕ) ^ 64 = 2 ^ (64 - bits) * 2 ^ bits := by
        rw [← pow_add]
        congr 1
        omega
      rw [h64]
      exact Nat.mul_lt_mul_of_pos_right hsmall (Nat.two_pow_pos bits)
    dsimp only
    rw [Nat.shiftLeft_eq, Nat.mod_eq_of_lt hfit]
    refine ⟨by omega, hfit, ?_, ?_⟩
    · have hsplit : (2 : ℕ) ^ (64 - bits) = 2 ^ (64 - 2 * bits) * 2 ^ bits := by
        rw [← pow_add]
        congr 1
        omega
      rw [hsplit]
      exact Nat.mul_le_mul_right _ h.high
    · rw [mul_assoc, ← pow_add, show bits + (r.1 - bits) = r.1 by omega]
      exact h.eq
  · refine ⟨by omega, h.lt, ?_, h.eq⟩
    by_contra hlt
    apply hz
    rw [Nat.shiftRight_eq_div_pow]
    exact Nat.div_eq_of_lt (by omega)

/-- One step down the widths. -/
theorem FlsInv.next {w b c : ℕ} (hc : b = 2 * c) (hb : b ≤ 32) (hpos : 0 < b) {r : ℕ × ℕ}
    (h : FlsInv w b r) : FlsInv w c (flsStep b r) := by
  obtain ⟨h₁, h₂, h₃, h₄⟩ := flsStep_spec hb hpos h
  exact ⟨by omega, h₂, by rw [← hc]; exact h₃, h₄⟩

/-- `__fls` finds the most significant bit of a non-zero word. -/
theorem flsSteps_spec {w : ℕ} (h0 : w ≠ 0) (hw : w < 2 ^ 64) :
    2 ^ (flsSteps w).1 ≤ w ∧ w < 2 ^ ((flsSteps w).1 + 1) := by
  have h32 : FlsInv w 32 (63, w) := ⟨le_rfl, hw, Nat.one_le_iff_ne_zero.mpr h0, rfl⟩
  have h16 : FlsInv w 16 _ := h32.next rfl (by decide) (by decide)
  have h8 : FlsInv w 8 _ := h16.next rfl (by decide) (by decide)
  have h4 : FlsInv w 4 _ := h8.next rfl (by decide) (by decide)
  have h2 : FlsInv w 2 _ := h4.next rfl (by decide) (by decide)
  have h1 : FlsInv w 1 _ := h2.next rfl (by decide) (by decide)
  obtain ⟨-, hlt, hle, heq⟩ := flsStep_spec (by decide) (by decide) h1
  change (flsSteps w).2 < _ at hlt
  change _ ≤ (flsSteps w).2 at hle
  change (flsSteps w).2 * 2 ^ (flsSteps w).1 = _ at heq
  have hpos := Nat.two_pow_pos (flsSteps w).1
  have h63 := Nat.two_pow_pos 63
  constructor
  · have h := Nat.mul_le_mul_right (2 ^ (flsSteps w).1) hle
    rw [heq, mul_comm] at h
    exact Nat.le_of_mul_le_mul_right h h63
  · have h := Nat.mul_lt_mul_of_pos_right hlt hpos
    rw [heq] at h
    have hmul : 2 ^ 64 * 2 ^ (flsSteps w).1 = 2 ^ ((flsSteps w).1 + 1) * 2 ^ 63 := by ring
    rw [hmul] at h
    exact Nat.lt_of_mul_lt_mul_right h

/-- `get_order`: `size--; size >>= PGSHIFT; return fls64(size)` -/
def getOrder (size : ℕ) : ℕ := fls64 ((size + 2 ^ 64 - 1) % 2 ^ 64 / pgsize)

/-- A block of the order computed is large enough, and one of a smaller order is too small. -/
theorem getOrder_spec {size : ℕ} (hpos : 0 < size) (hs : size < 2 ^ 64) :
    size ≤ pgsize * 2 ^ getOrder size ∧ ∀ n < getOrder size, pgsize * 2 ^ n < size := by
  have hmod : (size + 2 ^ 64 - 1) % 2 ^ 64 = size - 1 := by omega
  unfold getOrder
  rw [hmod]
  unfold fls64
  split_ifs with h0
  · refine ⟨?_, fun n hn => absurd hn (Nat.not_lt_zero n)⟩
    simp only [pgsize] at h0 ⊢
    omega
  · have hlt : (size - 1) / pgsize < 2 ^ 64 :=
      lt_of_le_of_lt (Nat.div_le_self _ _) (by omega)
    obtain ⟨hle, h⟩ := flsSteps_spec h0 hlt
    rw [Nat.div_lt_iff_lt_mul (by decide), mul_comm] at h
    refine ⟨by omega, fun n hn => ?_⟩
    have hn := le_trans (Nat.pow_le_pow_right two_pos (Nat.le_of_lt_succ hn)) hle
    rw [Nat.le_div_iff_mul_le (by decide), mul_comm] at hn
    omega

/-- **`get_order` is the least order that is large enough**; `__fls` and `fls64` find the most
significant bit. -/
theorem getOrder_least (w size : ℕ) (h0 : w ≠ 0) (hw : w < 2 ^ 64) (hpos : 1 ≤ size)
    (hsize : size ≤ 2 ^ 63) :
    ((flsSteps w).1 = Nat.log 2 w ∧ fls64 w = Nat.log 2 w + 1) ∧
      IsLeast {n | size ≤ pgsize * 2 ^ n} (getOrder size) := by
  have hs : size < 2 ^ 64 := by omega
  have hlog : (flsSteps w).1 = Nat.log 2 w :=
    (Nat.log_eq_of_pow_le_of_lt_pow (flsSteps_spec h0 hw).1 (flsSteps_spec h0 hw).2).symm
  refine ⟨⟨hlog, ?_⟩, (getOrder_spec hpos hs).1, fun n hn => ?_⟩
  · rw [fls64, if_neg h0, hlog]
  · by_contra hlt
    exact absurd hn (Nat.not_le.mpr ((getOrder_spec hpos hs).2 n (Nat.not_le.mp hlt)))

theorem getOrder_least_twoPages :
    ((flsSteps 5).1 = Nat.log 2 5 ∧ fls64 5 = Nat.log 2 5 + 1) ∧
      IsLeast {n | 4097 ≤ pgsize * 2 ^ n} (getOrder 4097) :=
  getOrder_least 5 4097 (by decide) (by decide) (by decide) (by decide)

/-! ## §3  The next bit -/

/-- Bit `i` of the words at `p`. -/
def bitAt (p : List (BitVec 64)) (i : ℕ) : Bool := (p.getD (i / 64) 0).getLsbD (i % 64)

def getBitInSlot (u64slot : BitVec 64) (bit : ℕ) : BitVec 64 := u64slot &&& 1#64 <<< bit

/-- `for (; cur_bit <= max_bit; cur_bit++, res++)`: the result of the function, or `res` when
the loop has ended. `none` is a read outside of `p`. -/
def bitLoop (p : List (BitVec 64)) (invert : Bool) (curElem maxBit curBit res : ℕ) :
    Option (ℕ ⊕ ℕ) :=
  if curBit ≤ maxBit then
    p[curElem]?.bind fun word =>
      if (if invert then getBitInSlot word curBit = 0 else getBitInSlot word curBit ≠ 0) then
        some (.inl res)
      else bitLoop p invert curElem maxBit (curBit + 1) (res + 1)
  else some (.inr res)
termination_by maxBit + 1 - curBit

/-- `while (cur_elem_index <= max_elem_index)` -/
def elemLoop (p : List (BitVec 64)) (invert : Bool) (size maxElem curElem curBit res : ℕ) :
    Option ℕ :=
  if curElem ≤ maxElem then
    let maxBit := if curElem < maxElem then 63 else (size + 2 ^ 64 - 1) % 2 ^ 64 % 64
    (bitLoop p invert curElem maxBit curBit res).bind
      (Sum.elim some fun res => elemLoop p invert size maxElem (curElem + 1) 0 res)
  else some size
termination_by maxElem + 1 - curElem

/-- The result is cut to an `int`. -/
def findNextBitHelper (p : List (BitVec 64)) (size start : ℕ) (invert : Bool) : Option ℤ :=
  (elemLoop p invert size ((size + 2 ^ 64 - 1) % 2 ^ 64 / 64) (start / 64) (start % 64) start).map
    fun res => (BitVec.ofNat 32 res).toInt

def findNextZeroBit (p : List (BitVec 64)) (size start : ℕ) : Option ℤ :=
  findNextBitHelper p size start true

/-- `r` is the least number from `a` on with `P`, or `b` when there is none below `b`. -/
structure IsNext (P : ℕ → Prop) (a b r : ℕ) : Prop where
  le : r ≤ b
  found : r < b → a ≤ r ∧ P r
  least : ∀ j, a ≤ j → j < r → ¬ P j

section

variable {P : ℕ → Prop} {a b c r : ℕ}

theorem IsNext.skip (h : IsNext P a b b) (hab : a ≤ b) (hr : IsNext P b c r) : IsNext P a c r where
  le := hr.le
  found hlt := ⟨hab.trans (hr.found hlt).1, (hr.found hlt).2⟩
  least j ha hj := by
    rcases lt_or_ge j b with hjb | hjb
    · exact h.least j ha hjb
    · exact hr.least j hjb hj

theorem IsNext.widen (h : IsNext P a b r) (hlt : r < b) (hbc : b ≤ c) : IsNext P a c r :=
  ⟨h.le.trans hbc, fun _ => h.found hlt, h.least⟩

theorem isNext_self (h : ¬ P a) : IsNext P a (a + 1) (a + 1) := by
  refine ⟨le_rfl, fun hlt => absurd hlt (lt_irrefl _), fun j ha hj => ?_⟩
  obtain rfl : j = a := by omega
  exact h

end

theorem getBitInSlot_eq_zero (w : BitVec 64) {bit : ℕ} (hb : bit < 64) :
    getBitInSlot w bit = 0 ↔ w.getLsbD bit = false := by
  constructor
  · intro h
    have hbit := congrArg (BitVec.getLsbD · bit) h
    simpa [getBitInSlot, hb] using hbit
  · intro h
    apply BitVec.eq_of_getLsbD_eq
    intro j hj
    by_cases hjb : j = bit
    · subst hjb
      simp [getBitInSlot, h]
    · have hzero : j < bit ∨ (1#64).getLsbD (j - bit) = false := by
        rcases lt_or_ge j bit with hlt | hge
        · exact Or.inl hlt
        · exact Or.inr (by simp; omega)
      rcases hzero with hlt | hz
      · simp [getBitInSlot, hlt]
      · simp [getBitInSlot, hz]

section

variable {p : List (BitVec 64)} {invert : Bool} {size curElem maxElem maxBit curBit res : ℕ}

/-- The words are looked at from bit `res` on. The last index is passed when no bit is found, and
left alone when the search starts behind it. -/
theorem bitLoop_spec (invert : Bool) (helem : curElem < p.length) (hmax : maxBit < 64)
    (hres : res = 64 * curElem + curBit) :
    (∃ r < 64 * curElem + maxBit + 1,
      IsNext (fun i => bitAt p i = !invert) res (64 * curElem + maxBit + 1) r ∧
        bitLoop p invert curElem maxBit curBit res = some (.inl r)) ∨
    IsNext (fun i => bitAt p i = !invert) res (64 * curElem + maxBit + 1)
      (64 * curElem + maxBit + 1) ∧
      bitLoop p invert curElem maxBit curBit res =
        some (.inr (max res (64 * curElem + maxBit + 1))) := by
  induction hn : maxBit + 1 - curBit generalizing curBit res with
  | zero =>
    right
    rw [bitLoop, if_neg (by omega), max_eq_left (by omega)]
    exact ⟨⟨le_rfl, fun hlt => absurd hlt (lt_irrefl _), fun j _ _ => by omega⟩, rfl⟩
  | succ n ih =>
    have hle : curBit ≤ maxBit := by omega
    have hbit : bitAt p res = p[curElem].getLsbD curBit := by
      rw [bitAt, hres, Nat.mul_add_div (by decide), Nat.div_eq_of_lt (by omega),
        Nat.mul_add_mod, Nat.mod_eq_of_lt (by omega), Nat.add_zero, List.getD_eq_getElem?_getD,
        List.getElem?_eq_getElem helem, Option.getD_some]
    have htest : (if invert then getBitInSlot p[curElem] curBit = 0
        else getBitInSlot p[curElem] curBit ≠ 0) ↔ bitAt p res = !invert := by
      rw [hbit, ne_eq, getBitInSlot_eq_zero _ (by omega)]
      cases invert <;> simp
    rw [bitLoop, if_pos hle, List.getElem?_eq_getElem helem, Option.bind_some]
    by_cases hP : bitAt p res = !invert
    · left
      exact ⟨res, by omega, ⟨by omega, fun _ => ⟨le_rfl, hP⟩, fun j ha hj => by omega⟩,
        if_pos (htest.mpr hP)⟩
    · rw [if_neg (mt htest.mp hP)]
      rcases @ih (curBit + 1) (res + 1) (by omega) (by omega) with
        ⟨r, hr, hnext, heq⟩ | ⟨hnext, heq⟩
      · exact Or.inl ⟨r, hr, (isNext_self hP).skip (Nat.le_succ _) hnext, heq⟩
      · refine Or.inr ⟨(isNext_self hP).skip (Nat.le_succ _) hnext, ?_⟩
        rw [heq, max_eq_right (by omega), max_eq_right (by omega)]

theorem elemLoop_spec (hsize : 1 ≤ size) (hsmall : size < 2 ^ 31)
    (hp : (size - 1) / 64 < p.length) (hbit : curBit < 64) (hres : res = 64 * curElem + curBit) :
    ∃ r, elemLoop p invert size ((size - 1) / 64) curElem curBit res = some r ∧
      IsNext (fun i => bitAt p i = !invert) res size r := by
  have hwrap : (size + 2 ^ 64 - 1) % 2 ^ 64 = size - 1 := by omega
  -- on the number of words that are left
  induction hn : (size - 1) / 64 + 1 - curElem generalizing curElem curBit res with
  | zero =>
    rw [elemLoop, if_neg (by omega)]
    exact ⟨size, rfl, le_rfl, fun hlt => absurd hlt (lt_irrefl _), fun j _ _ => by omega⟩
  | succ n ih =>
    have hle : curElem ≤ (size - 1) / 64 := by omega
    rw [elemLoop, if_pos hle]
    simp only [hwrap]
    generalize hmax : (if curElem < (size - 1) / 64 then 63 else (size - 1) % 64) = maxBit
    have hend : 64 * curElem + maxBit + 1 =
        if curElem < (size - 1) / 64 then 64 * (curElem + 1) else size := by
      rw [← hmax]
      split_ifs <;> omega
    have hlt : maxBit < 64 := by
      rw [← hmax]
      split_ifs <;> omega
    rcases bitLoop_spec invert (lt_of_le_of_lt hle hp) hlt hres with
      ⟨r, hrlt, hnext, heq⟩ | ⟨hnext, heq⟩
    · refine ⟨r, by rw [heq]; rfl, hnext.widen hrlt ?_⟩
      rw [hend]
      split_ifs <;> omega
    · rw [heq]
      show ∃ r, elemLoop _ _ _ _ _ _ _ = some r ∧ _
      rcases Nat.lt_or_ge curElem ((size - 1) / 64) with hmore | hlast
      · rw [hend, if_pos hmore] at hnext ⊢
        rw [max_eq_right (by omega)]
        obtain ⟨r, hrun, hrest⟩ := @ih (curElem + 1) 0 _ (by decide) rfl (by omega)
        exact ⟨r, hrun, hnext.skip (by omega) hrest⟩
      · rw [hend, if_neg (not_lt.mpr hlast)] at hnext
        rw [elemLoop, if_neg (by omega)]
        exact ⟨size, rfl, hnext⟩

end

theorem findNextBitHelper_spec {p : List (BitVec 64)} {size : ℕ} (start : ℕ) (invert : Bool)
    (hsize : 1 ≤ size) (hsmall : size < 2 ^ 31) (hp : (size - 1) / 64 < p.length) :
    ∃ r : ℕ, findNextBitHelper p size start invert = some (r : ℤ) ∧
      IsNext (fun i => bitAt p i = !invert) start size r := by
  have hwrap : (size + 2 ^ 64 - 1) % 2 ^ 64 = size - 1 := by omega
  obtain ⟨r, hrun, hnext⟩ := elemLoop_spec hsize hsmall hp (Nat.mod_lt start (by decide))
    (Nat.div_add_mod start 64).symm
  refine ⟨r, ?_, hnext⟩
  have hle := hnext.le
  have hr : r % 2 ^ 32 = r := Nat.mod_eq_of_lt (by omega)
  rw [findNextBitHelper, hwrap, hrun, Option.map_some, BitVec.toInt_eq_toNat_of_lt,
    BitVec.toNat_ofNat, hr]
  rw [BitVec.toNat_ofNat, hr]
  omega

/-! ## §4  Setting and clearing a bit -/

/-- `__op_bit`: the word of bit `nr` is combined with the mask. -/
def opBit (op : BitVec 64 → BitVec 64 → BitVec 64) (nr : ℕ) (p : List (BitVec 64)) :
    List (BitVec 64) :=
  p.modify (nr / 64) fun word => op word (1#64 <<< (nr % 64))

def setBit (nr : ℕ) (p : List (BitVec 64)) : List (BitVec 64) := opBit (fun w m => w ||| m) nr p

def clearBit (nr : ℕ) (p : List (BitVec 64)) : List (BitVec 64) :=
  opBit (fun w m => w &&& ~~~m) nr p

/-- An operation that keeps the bits outside of the mask. -/
theorem bitAt_opBit {op : BitVec 64 → BitVec 64 → BitVec 64} {f : Bool → Bool → Bool}
    (hop : ∀ w m k, k < 64 → (op w m).getLsbD k = f (w.getLsbD k) (m.getLsbD k))
    (hf : ∀ x, f x false = x) {nr : ℕ} {p : List (BitVec 64)} (hnr : nr / 64 < p.length) (i : ℕ) :
    bitAt (opBit op nr p) i = if i = nr then f (bitAt p i) true else bitAt p i := by
  have hmod := Nat.mod_lt i (show 0 < 64 by decide)
  simp only [bitAt, opBit, List.getD_eq_getElem?_getD, List.getElem?_modify]
  by_cases hword : nr / 64 = i / 64
  · have hbit : (1#64 <<< (nr % 64)).getLsbD (i % 64) = decide (i = nr) := by
      rw [BitVec.getLsbD_shiftLeft, BitVec.getLsbD_one]
      by_cases hi : i = nr
      · simp [hi, Nat.mod_lt]
      · have hne : i % 64 - nr % 64 ≠ 0 ∨ i % 64 < nr % 64 := by omega
        rcases hne with hne | hlt
        · simp [hi, hne]
        · simp [hi, hlt]
    simp only [if_pos hword]
    rw [← hword, List.getElem?_eq_getElem hnr, Option.map_eq_map, Option.map_some,
      Option.getD_some, Option.getD_some, hop _ _ _ hmod, hbit]
    split_ifs with hi
    · simp [hi]
    · simp [hi, hf]
  · have hi : i ≠ nr := by
      rintro rfl
      exact hword rfl
    simp only [if_neg hword, if_neg hi]
    simp

end RiscvBm.BitOps

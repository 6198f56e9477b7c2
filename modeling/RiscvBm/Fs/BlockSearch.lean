import RiscvBm.Fs.Inode

/-!
# The search of `balloc` for any number of bitmap blocks (`kernel/fs.c`)

The outer loop of `balloc` goes from bitmap block to bitmap block, `b` being the
first block number of the group. The inner loop stops at `(b*BPB) + bi < sb.size`,
where the other uses of the group say `b + bi`. With one bitmap block `b` is 0 and
both agree. From the second group on the test is about a number `BPB` times too
large, taken modulo `2 ^ 32`: groups are skipped, and where the product comes back
to 0 the test no longer bounds the block number. `Scanned` is the set of block
numbers whose bit is looked at. From block `2 ^ 31` on `b` is negative, and the bit
is looked for in another block (`Seen`).
-/

namespace RiscvBm.Fs

open Bio (bsize Data)
open Bytes Wp Function

variable {s : St} {size : ℕ} {data : Data}

/-! ## §1  The bits that are looked at -/

/-- The bit of block `b` is clear in the bitmap. -/
def Clear (s : St) (b : ℕ) : Prop := bit (s.disk (bblock s.sb b)) (b % bpb) = false

/-- The bit that `balloc` takes for that of block `b` is clear. -/
def Seen (s : St) (b : ℕ) : Prop := bit (s.disk (bblockInt s.sb b)) (b % bpb) = false

/-- The test of the inner loop at the bit of block `b`. -/
def Scanned (size b : ℕ) : Prop := (b / bpb * bpb * bpb + b % bpb) % 2 ^ 32 < size

instance (size b : ℕ) : Decidable (Scanned size b) :=
  inferInstanceAs (Decidable ((b / bpb * bpb * bpb + b % bpb) % 2 ^ 32 < size))

theorem group_div (g : ℕ) {bi : ℕ} (h : bi < bpb) : (g * bpb + bi) / bpb = g := by
  rw [mul_comm, Nat.mul_add_div (by decide), Nat.div_eq_of_lt h, Nat.add_zero]

theorem group_mod (g : ℕ) {bi : ℕ} (h : bi < bpb) : (g * bpb + bi) % bpb = bi := by
  rw [mul_comm, Nat.mul_add_mod, Nat.mod_eq_of_lt h]

theorem scanned_group (size g : ℕ) {bi : ℕ} (h : bi < bpb) :
    Scanned size (g * bpb + bi) ↔ (g * bpb * bpb + bi) % 2 ^ 32 < size := by
  rw [Scanned, group_div g h, group_mod g h]

/-- A group has one bitmap block; `2 ^ 31` is the first number of a group. -/
theorem bblockInt_group (sb : Superblock) (g : ℕ) {bi : ℕ} (h : bi < bpb) :
    bblockInt sb (g * bpb + bi) = bblockInt sb (g * bpb) := by
  have hg : g * bpb / bpb = g := Nat.mul_div_cancel g (by decide)
  have hsign : g * bpb + bi < 2 ^ 31 ↔ g * bpb < 2 ^ 31 := by
    unfold bpb at h ⊢
    omega
  simp only [bblockInt, bblock, group_div g h, hg, hsign]

theorem seen_group (s : St) (g : ℕ) {bi : ℕ} (h : bi < bpb) :
    Seen s (g * bpb + bi) ↔ bit (s.disk (bblockInt s.sb (g * bpb))) bi = false := by
  rw [Seen, bblockInt_group s.sb g h, group_mod g h]

theorem bblockInt_ne (sb : Superblock) {b : ℕ} (hb : 2 ^ 31 ≤ b) :
    bblockInt sb b ≠ bblock sb b := by
  rw [bblockInt, if_neg (Nat.not_lt.mpr hb)]
  unfold bpb
  omega

/-- Within a group the test fails for good. -/
theorem scan_mono (g : ℕ) {i j : ℕ} (hij : i ≤ j) (hj : j < bpb) :
    (g * bpb * bpb + i) % 2 ^ 32 ≤ (g * bpb * bpb + j) % 2 ^ 32 := by
  -- `g * BPB * BPB` is a multiple of `2 ^ 26`, so no carry comes out of `bi`
  have hbase : g * bpb * bpb = g * 67108864 := by rw [mul_assoc, show bpb * bpb = 67108864 from rfl]
  have hj : j < 8192 := hj
  rw [hbase]
  omega

/-- In the first group the test is the right one. -/
theorem scanned_iff_lt {b : ℕ} (hb : b < bpb) : Scanned size b ↔ b < size := by
  have hsmall : bpb < 2 ^ 32 := by decide
  rw [Scanned, Nat.div_eq_of_lt hb, Nat.mod_eq_of_lt hb, Nat.zero_mul, Nat.zero_mul,
    Nat.zero_add, Nat.mod_eq_of_lt (hb.trans hsmall)]

/-! ## §2  The inner loop -/

theorem findClear_some {b n bi r : ℕ} (h : findClear size b data n bi = some r) :
    bi ≤ r ∧ r < bi + n ∧ (b * bpb + r) % 2 ^ 32 < size ∧ bit data r = false ∧
      ∀ j, bi ≤ j → j < r → bit data j = true := by
  induction n generalizing bi with
  | zero => cases h
  | succ n ih =>
    rw [findClear] at h
    split_ifs at h with hlt hbit
    · cases h
      refine ⟨le_rfl, by omega, hlt, (and_shift_eq_zero data r).mp hbit, fun j h₁ h₂ => ?_⟩
      omega
    · obtain ⟨hle, hr, hscan, hclear, hbefore⟩ := ih h
      refine ⟨by omega, by omega, hscan, hclear, fun j h₁ h₂ => ?_⟩
      rcases Nat.eq_or_lt_of_le h₁ with rfl | h₁
      · rw [and_shift_eq_zero] at hbit
        simpa using hbit
      · exact hbefore j h₁ h₂

/-- A search that finds nothing has seen every bit that passes the test. -/
theorem findClear_none {g n bi : ℕ} (hn : bi + n ≤ bpb)
    (h : findClear size (g * bpb) data n bi = none) :
    ∀ j, bi ≤ j → j < bi + n → (g * bpb * bpb + j) % 2 ^ 32 < size → bit data j = true := by
  induction n generalizing bi with
  | zero =>
    intro j h₁ h₂
    omega
  | succ n ih =>
    intro j h₁ h₂ hj
    rw [findClear] at h
    split_ifs at h with hlt hbit
    · rcases Nat.eq_or_lt_of_le h₁ with rfl | h₁
      · rw [and_shift_eq_zero] at hbit
        simpa using hbit
      · exact ih (by omega) h j h₁ (by omega) hj
    · exact absurd (lt_of_le_of_lt (scan_mono g h₁ (by omega)) hj) hlt

/-! ## §3  The outer loop -/

/-- `balloc` has chosen block `b`: its bit in `bmap` is set, then its contents are zeroed. -/
def allocate (bmap : ℕ) (disk : ℕ → Data) (b : ℕ) : ℕ → Data :=
  update (update disk bmap (setBit (disk bmap) (b % bpb))) b zero

theorem wp_bread {α : Type} {dev b : ℕ} {f : Data → Prog α} {Q : α → St → Prop}
    {E : Panic → Prop} (h : wp (f (s.disk b)) Q E s) : wp (bread dev b >>= f) Q E s :=
  wp_bind_eq (wp_get (wp_pure ⟨rfl, rfl⟩)) h

/-- `balloc` takes the first block that is looked at and seen to be clear, or there is none. -/
theorem ballocLoop_first (dev n g : ℕ) :
    wp (ballocLoop dev n (g * bpb))
      (fun b s' => b < (g + n) * bpb ∧ Scanned s.sb.size b ∧ Seen s b ∧
        (∀ c, g * bpb ≤ c → Scanned s.sb.size c → Seen s c → b ≤ c) ∧
        s' = { s with disk := allocate (bblockInt s.sb b) s.disk b })
      (fun e => (s.sb.size ≤ 2 ^ 32 - bpb → e = .outOfBlocks) ∧
        ∀ c, g * bpb ≤ c → c < (g + n) * bpb → Scanned s.sb.size c → ¬ Seen s c) s := by
  induction n generalizing g with
  | zero =>
    refine wp_get (wp_throw ⟨fun hsize => if_pos hsize, ?_⟩)
    intro c h₁ h₂
    rw [Nat.add_zero] at h₂
    omega
  | succ n ih =>
    refine wp_get (wp_bread ?_)
    have hnext : g * bpb + bpb = (g + 1) * bpb := (Nat.succ_mul g bpb).symm
    cases hfind : findClear s.sb.size (g * bpb) (s.disk (bblockInt s.sb (g * bpb))) bpb 0 with
    | some bi =>
      obtain ⟨-, hlt, hscan, hclear, hbefore⟩ := findClear_some hfind
      rw [Nat.zero_add] at hlt
      refine wp_modify_bind (wp_modify_bind (wp_pure ⟨?_, ?_, ?_, ?_, ?_⟩))
      · calc g * bpb + bi < (g + 1) * bpb := by omega
          _ ≤ (g + (n + 1)) * bpb := Nat.mul_le_mul_right _ (by omega)
      · exact (scanned_group _ g hlt).mpr hscan
      · exact (seen_group s g hlt).mpr hclear
      · intro c hc _ hseen
        by_contra hcb
        obtain ⟨j, rfl⟩ := Nat.exists_eq_add_of_le hc
        rw [seen_group s g (by omega), hbefore j (Nat.zero_le j) (by omega)] at hseen
        cases hseen
      · rw [allocate, bblockInt_group s.sb g hlt, group_mod g hlt]
        rfl
    | none =>
      have hnone : ∀ c, g * bpb ≤ c → c < (g + 1) * bpb → Scanned s.sb.size c →
          ¬ Seen s c := by
        intro c h₁ h₂ hscan hseen
        obtain ⟨j, rfl⟩ := Nat.exists_eq_add_of_le h₁
        have hj : j < bpb := by omega
        rw [seen_group s g hj, findClear_none (by omega) hfind j (Nat.zero_le j) (by omega)
          ((scanned_group _ g hj).mp hscan)] at hseen
        cases hseen
      have hrounds : g + 1 + n = g + (n + 1) := by omega
      have hrest := ih (g + 1)
      rw [hrounds, ← hnext] at hrest
      refine wp_mono hrest ?_ ?_
      · grind
      · grind

/-- The numbers that have a bit in the bitmap blocks. -/
def bits (sb : Superblock) : ℕ := (sb.size + (bpb - 1)) / bpb * bpb

theorem size_le_bits (sb : Superblock) : sb.size ≤ bits sb := by
  unfold bits bpb
  omega

theorem balloc_first (dev : ℕ) :
    wp (balloc dev)
      (fun b s' => b < bits s.sb ∧ Scanned s.sb.size b ∧ Seen s b ∧
        (∀ c, Scanned s.sb.size c → Seen s c → b ≤ c) ∧
        s' = { s with disk := allocate (bblockInt s.sb b) s.disk b })
      (fun e => (s.sb.size ≤ 2 ^ 32 - bpb → e = .outOfBlocks) ∧
        ∀ c < s.sb.size, Scanned s.sb.size c → ¬ Seen s c) s := by
  have h := ballocLoop_first (s := s) dev ((s.sb.size + (bpb - 1)) / bpb) 0
  rw [Nat.zero_mul, Nat.zero_add] at h
  refine wp_get (wp_mono h ?_ ?_)
  · rintro b s' ⟨hb, hscan, hseen, hfirst, hs'⟩
    exact ⟨hb, hscan, hseen, fun c => hfirst c (Nat.zero_le c), hs'⟩
  · rintro e ⟨he, hnone⟩
    exact ⟨he, fun c hc => hnone c (Nat.zero_le c) (hc.trans_le (size_le_bits s.sb))⟩

/-! ## §4  Completeness -/

/-- Exactly the bit of block `b` is set, and exactly block `b` zeroed. -/
structure Allocated (sb : Superblock) (disk : ℕ → Data) (b : ℕ) (disk' : ℕ → Data) : Prop where
  bits : ∀ j < bits sb, bit (disk' (bblock sb j)) (j % bpb) =
    (decide (j = b) || bit (disk (bblock sb j)) (j % bpb))
  zeroed : disk' b = zero
  others : ∀ c, c ≠ b → c ≠ bblock sb b → disk' c = disk c

/-- What `balloc` should do: while some block below `sb.size` is free it returns
one, marks it used and zeroes it; it panics only when there is none. -/
def BallocComplete (dev : ℕ) (s : St) : Prop :=
  ((∃ b < s.sb.size, Clear s b) → ∃ b disk', balloc dev s = .ok (b, { s with disk := disk' }) ∧
    b < s.sb.size ∧ Clear s b ∧ Allocated s.sb s.disk b disk') ∧
  (balloc dev s = .error .outOfBlocks → ∀ b < s.sb.size, ¬ Clear s b)

/-- The first block below `sb.size` that is looked at and seen to be clear. The bit is its own,
and zeroing it wipes no bit that is to be set. -/
structure Takes (s : St) (b : ℕ) : Prop where
  lt : b < s.sb.size
  scanned : Scanned s.sb.size b
  seen : Seen s b
  first : ∀ c < b, Scanned s.sb.size c → ¬ Seen s c
  positive : b < 2 ^ 31
  outside : ∀ j < bits s.sb, bblock s.sb j = b → j ≠ b ∧ Clear s j

variable {b : ℕ}

theorem Takes.bblock_eq (h : Takes s b) : bblockInt s.sb b = bblock s.sb b := if_pos h.positive

theorem Takes.clear (h : Takes s b) : Clear s b := by
  have hseen := h.seen
  rwa [Seen, h.bblock_eq] at hseen

theorem Takes.allocated (h : Takes s b) :
    Allocated s.sb s.disk b (allocate (bblockInt s.sb b) s.disk b) := by
  rw [h.bblock_eq]
  refine ⟨fun j hj => ?_, update_self .., fun c hcb hc => ?_⟩
  · by_cases hjb : bblock s.sb j = b
    · obtain ⟨hne, hclear⟩ := h.outside j hj hjb
      rw [Clear] at hclear
      rw [hclear, allocate, hjb, update_self, decide_eq_false hne]
      exact bit_zero _
    · rw [allocate, update_of_ne hjb]
      by_cases hgroup : bblock s.sb j = bblock s.sb b
      · have hdiv : j / bpb = b / bpb := Nat.add_right_cancel hgroup
        have heq : j % bpb = b % bpb ↔ j = b := by
          rw [← Nat.div_add_mod j bpb, ← Nat.div_add_mod b bpb, hdiv]
          simp
        have hmod : b % bpb < 8 * bsize := Nat.mod_lt _ (by decide)
        rw [hgroup, update_self, bit_setBit _ hmod, Bool.or_comm]
        simp only [heq]
      · rw [update_of_ne hgroup, decide_eq_false (fun he => hgroup (by rw [he])), Bool.false_or]
  · rw [allocate, update_of_ne hcb, update_of_ne hc]

/-- Only a block that `balloc` may take is taken rightly. -/
theorem takes_of_allocated (hlt : b < s.sb.size) (hclear : Clear s b)
    (hscan : Scanned s.sb.size b) (hseen : Seen s b)
    (hfirst : ∀ c, Scanned s.sb.size c → Seen s c → b ≤ c)
    (h : Allocated s.sb s.disk b (allocate (bblockInt s.sb b) s.disk b)) : Takes s b := by
  refine ⟨hlt, hscan, hseen, fun c hc hs hseen => Nat.not_le.mpr hc (hfirst c hs hseen), ?_, ?_⟩
  · by_contra hneg
    have hbit := h.bits b (hlt.trans_le (size_le_bits _))
    have hne : bblock s.sb b ≠ bblockInt s.sb b := (bblockInt_ne _ (Nat.not_lt.mp hneg)).symm
    rw [decide_eq_true rfl, Bool.true_or, allocate] at hbit
    by_cases hb : bblock s.sb b = b
    · rw [hb, update_self, bit_zero] at hbit
      cases hbit
    · rw [update_of_ne hb, update_of_ne hne] at hbit
      exact Bool.false_ne_true (hclear.symm.trans hbit)
  · intro j hj hjb
    have hbit := h.bits j hj
    rw [hjb, h.zeroed, bit_zero, eq_comm, Bool.or_eq_false_iff] at hbit
    refine ⟨of_decide_eq_false hbit.1, ?_⟩
    rw [Clear, hjb]
    exact hbit.2

/-- **Completeness of `balloc`.** It is complete on exactly the bitmaps in which, if
some block below `sb.size` is free, the first one that is looked at and seen to be clear is a
block that can be taken. -/
theorem balloc_complete_iff (dev : ℕ) (s : St) :
    BallocComplete dev s ↔ ((∃ b < s.sb.size, Clear s b) → ∃ b, Takes s b) := by
  have hspec := balloc_first (s := s) dev
  constructor
  · rintro ⟨hsome, -⟩ hfree
    obtain ⟨b, disk', hrun, hlt, hclear, hdisk⟩ := hsome hfree
    obtain ⟨-, hscan, hseen, hfirst, heq⟩ := post_of_ok hspec hrun
    obtain rfl : disk' = _ := congrArg St.disk heq
    exact ⟨b, takes_of_allocated hlt hclear hscan hseen hfirst hdisk⟩
  · intro htakes
    constructor
    · intro hfree
      obtain ⟨c, hc⟩ := htakes hfree
      cases hrun : balloc dev s with
      | error e => exact absurd hc.seen ((error_of_wp hspec hrun).2 c hc.lt hc.scanned)
      | ok r =>
        obtain ⟨b, s'⟩ := r
        obtain ⟨-, hscan, hseen, hfirst, rfl⟩ := post_of_ok hspec hrun
        have hle := hfirst c hc.scanned hc.seen
        obtain rfl : b = c := by
          by_contra hne
          exact hc.first b (lt_of_le_of_ne hle hne) hscan hseen
        exact ⟨b, _, rfl, hc.lt, hc.clear, hc.allocated⟩
    · intro hrun b hb hclear
      obtain ⟨c, hc⟩ := htakes ⟨b, hb, hclear⟩
      exact (error_of_wp hspec hrun).2 c hc.lt hc.scanned hc.seen

def full : Data := fun _ => 255

/-- A file system of 8193 blocks, so with two bitmap blocks, 45 and 46; only block
8192 is free. -/
def twoGroups : St where
  sb := ⟨fsmagic, 8193, 8146, 200, 30, 2, 32, 45⟩
  disk := fun b => if b = 45 then full else zero
  inode := fun _ => default

theorem bit_full {j : ℕ} (hj : j < bpb) : bit full j = true := by
  have hj : j < 8192 := hj
  have hbyte : byteAt full (j / 8) = 255 := by
    rw [byteAt, dif_pos (show j / 8 < bsize by unfold bsize; omega)]
    rfl
  have hall : ∀ i < 8, Nat.testBit 255 i = true := by decide
  rw [bit, hbyte]
  exact hall _ (Nat.mod_lt _ (by decide))

theorem clear_twoGroups (b : ℕ) : Clear twoGroups b ↔ bpb ≤ b := by
  rcases Nat.lt_or_ge b bpb with hlt | hge
  · have hblock : twoGroups.disk (bblock twoGroups.sb b) = full := by
      rw [bblock, Nat.div_eq_of_lt hlt]
      rfl
    rw [Clear, hblock, bit_full (Nat.mod_lt _ (by decide))]
    simp [hlt]
  · have hblock : twoGroups.disk (bblock twoGroups.sb b) = zero := by
      have hpos : 0 < b / bpb := Nat.div_pos hge (by decide)
      apply if_neg
      show b / bpb + 45 ≠ 45
      omega
    rw [Clear, hblock, bit_zero]
    simp [hge]

/-- On `twoGroups` the only free block is never looked at, and `balloc` panics. -/
theorem balloc_misses_second_group :
    8192 < twoGroups.sb.size ∧ Clear twoGroups 8192 ∧
      balloc 1 twoGroups = .error .outOfBlocks := by
  refine ⟨by decide, (clear_twoGroups 8192).mpr le_rfl, ?_⟩
  have hspec := balloc_first (s := twoGroups) 1
  cases hrun : balloc 1 twoGroups with
  | error e => rw [(error_of_wp hspec hrun).1 (by decide)]
  | ok r =>
    obtain ⟨b, s'⟩ := r
    obtain ⟨hb, hscan, hseen, -⟩ := post_of_ok hspec hrun
    have hlt : b < 16384 := hb
    rw [Seen, bblockInt, if_pos (by omega)] at hseen
    have hge : 8192 ≤ b := (clear_twoGroups b).mp hseen
    have hscan : (b / 8192 * 8192 * 8192 + b % 8192) % 2 ^ 32 < 8193 := hscan
    omega

end RiscvBm.Fs

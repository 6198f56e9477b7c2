import RiscvBm.Fs.BlockSearch
import RiscvBm.Fs.Dir

/-!
# Inodes and their blocks

The inodes of a file system, seen as a function `v` from inode numbers to dinodes,
refer to blocks from three kinds of places: the slots of `addrs`, the indirect slot
among them, and the words of the indirect block. The bitmap says which blocks are used.
-/

namespace RiscvBm.Fs

open Bio (bsize Data)
open Bytes Function

/-! ## §1  References to blocks -/

/-- Where an inode keeps a block number: in `addrs` or in its indirect block. -/
inductive Slot where
  | addr (j : Fin 13)
  | entry (j : Fin 256)
deriving DecidableEq

abbrev Place := ℕ × Slot

def Dinode.slot (disk : ℕ → Data) (d : Dinode) : Slot → ℕ
  | .addr j => (d.addrs j).toNat
  | .entry j =>
    if (d.addrs indirect).toNat = 0 then 0 else wordAt (disk (d.addrs indirect).toNat) j

/-- The `i`-th inode on the disk. -/
def dinode (sb : Superblock) (disk : ℕ → Data) (i : ℕ) : Dinode :=
  readDinode (disk (iblock sb i)) (i % ipb)

/-- The block that a place of the first `n` inodes refers to; only allocated inodes have
references. -/
def blockAt (n : ℕ) (disk : ℕ → Data) (v : ℕ → Dinode) (p : Place) : ℕ :=
  if p.1 < n ∧ (v p.1).type ≠ 0 then (v p.1).slot disk p.2 else 0

/-- The boot block, the superblock, the log, the inodes and the bitmap, as `mkfs`
lays them out. -/
def Meta (sb : Superblock) (b : ℕ) : Prop :=
  b < 2 ∨ (sb.logstart ≤ b ∧ b < sb.logstart + sb.nlog) ∨
    (sb.inodestart ≤ b ∧ b < sb.bmapstart) ∨ (sb.bmapstart ≤ b ∧ b ≤ bblock sb sb.size)

instance (sb : Superblock) (b : ℕ) : Decidable (Meta sb b) :=
  inferInstanceAs (Decidable (_ ∨ _))

def dataBlocks (sb : Superblock) : Set ℕ := {b | b < sb.size ∧ ¬ Meta sb b}

/-- The blocks whose bit is set in the bitmap. -/
def usedBlocks (sb : Superblock) (disk : ℕ → Data) : Set ℕ :=
  {b | bit (disk (bblock sb b)) (b % bpb) = true}

/-! ## §2  Files -/

/-- The slot for the `bn`-th block of a file. -/
def fileSlot (bn : ℕ) : Slot :=
  if bn < ndirect then .addr ⟨bn % 13, Nat.mod_lt _ (by decide)⟩
  else .entry ⟨(bn - ndirect) % 256, Nat.mod_lt _ (by decide)⟩

/-- The slots that are used for the first `N` blocks of a file. -/
def needs (N : ℕ) : Finset Slot :=
  (Finset.range N).image fileSlot ∪ if ndirect < N then {.addr indirect} else ∅

/-- The number of blocks for `m` bytes. -/
def blocksFor (m : ℕ) : ℕ := (m + (bsize - 1)) / bsize

/-- The `bn`-th block of the file. -/
def Dinode.block (disk : ℕ → Data) (d : Dinode) (bn : ℕ) : ℕ := d.slot disk (fileSlot bn)

/-- The file has blocks for all bytes before `off`. -/
def Dinode.Filled (disk : ℕ → Data) (d : Dinode) (off : ℕ) : Prop :=
  ∀ bn < maxfile, bn * bsize < off → d.block disk bn ≠ 0

/-- `de.inum` of the directory entry at `off`. -/
def Dinode.inumAt (disk : ℕ → Data) (d : Dinode) (off : ℕ) : ℕ :=
  getLE (disk (d.block disk (off / bsize))) (off % bsize) 2

structure Dinode.Ok (ninodes : ℕ) (disk : ℕ → Data) (d : Dinode) : Prop where
  filled : d.Filled disk d.size.toNat
  entries : d.type = tDir → ∀ off, off % direntSize = 0 → off + direntSize ≤ d.size.toNat →
    off / bsize < maxfile → d.inumAt disk off < ninodes

structure Layout (sb : Superblock) : Prop where
  size_le : sb.size ≤ bpb
  inodes : ∀ i < sb.ninodes, iblock sb i < sb.bmapstart
  root : rootino < sb.ninodes

variable {sb : Superblock} {disk disk' : ℕ → Data} {v : ℕ → Dinode} {d d' : Dinode} {i b : ℕ}

theorem blockAt_eq {n : ℕ} (hi : i < n) (ht : (v i).type ≠ 0) (sl : Slot) :
    blockAt n disk v (i, sl) = (v i).slot disk sl := if_pos ⟨hi, ht⟩

theorem bmapstart_notMem (sb : Superblock) : sb.bmapstart ∉ dataBlocks sb := fun h =>
  h.2 (Or.inr (Or.inr (Or.inr ⟨le_rfl, Nat.le_add_left _ _⟩)))

theorem ne_zero_of_mem (hb : b ∈ dataBlocks sb) : b ≠ 0 := by
  rintro rfl
  exact hb.2 (Or.inl (by decide))

theorem Layout.lt_bpb (hl : Layout sb) (hb : b < sb.size) : b < bpb :=
  lt_of_lt_of_le hb hl.size_le

theorem Layout.bblock_eq (hl : Layout sb) (hb : b < sb.size) : bblock sb b = sb.bmapstart := by
  rw [bblock, Nat.div_eq_of_lt (hl.lt_bpb hb), Nat.zero_add]

theorem Layout.bblockInt_eq (hl : Layout sb) (hb : b < sb.size) :
    bblockInt sb b = sb.bmapstart := by
  rw [bblockInt, if_pos ((hl.lt_bpb hb).trans (by decide)), hl.bblock_eq hb]

theorem Layout.mem_used (hl : Layout sb) (hb : b < sb.size) :
    b ∈ usedBlocks sb disk ↔ bit (disk sb.bmapstart) b = true := by
  show bit (disk (bblock sb b)) (b % bpb) = true ↔ _
  rw [hl.bblock_eq hb, Nat.mod_eq_of_lt (hl.lt_bpb hb)]

theorem Layout.used_congr (hl : Layout sb) (h : disk' sb.bmapstart = disk sb.bmapstart)
    (hb : b < sb.size) : b ∈ usedBlocks sb disk' ↔ b ∈ usedBlocks sb disk := by
  rw [hl.mem_used hb, hl.mem_used hb, h]

theorem fileSlot_direct {bn : ℕ} (h : bn < ndirect) : fileSlot bn = .addr (Fin.ofNat 13 bn) :=
  if_pos h

theorem fileSlot_entry {bn : ℕ} (h : ¬ bn < ndirect) (hlt : bn - ndirect < nindirect) :
    fileSlot bn = .entry ⟨bn - ndirect, hlt⟩ := by
  rw [fileSlot, if_neg h]
  congr 1
  exact Fin.ext (Nat.mod_eq_of_lt hlt)

theorem fileSlot_inj {a b : ℕ} (ha : a < maxfile) (hb : b < maxfile)
    (h : fileSlot a = fileSlot b) : a = b := by
  have ha : a < 268 := ha
  have hb : b < 268 := hb
  by_cases ha' : a < ndirect <;> by_cases hb' : b < ndirect
  · rw [fileSlot_direct ha', fileSlot_direct hb', Slot.addr.injEq, Fin.ext_iff] at h
    simp only [Fin.ofNat, ndirect] at h ha' hb'
    omega
  · rw [fileSlot_direct ha', fileSlot, if_neg hb'] at h
    cases h
  · rw [fileSlot_direct hb', fileSlot, if_neg ha'] at h
    cases h
  · rw [fileSlot, if_neg ha', fileSlot, if_neg hb', Slot.entry.injEq, Fin.ext_iff] at h
    simp only [ndirect] at h ha' hb'
    omega

theorem fileSlot_ne_indirect {bn : ℕ} : fileSlot bn ≠ .addr indirect := by
  unfold fileSlot
  split_ifs with h
  · intro heq
    injection heq with heq
    have hval := congrArg Fin.val heq
    have hlt : bn < 12 := h
    simp [indirect] at hval
    omega
  · exact fun heq => Slot.noConfusion heq

/-! ## §3  What a change of the disk leaves alone -/

theorem Dinode.slot_congr
    (h : (d.addrs indirect).toNat ≠ 0 →
      disk' (d.addrs indirect).toNat = disk (d.addrs indirect).toNat) (sl : Slot) :
    d.slot disk' sl = d.slot disk sl := by
  cases sl with
  | addr j => rfl
  | entry j =>
    simp only [Dinode.slot]
    by_cases h0 : (d.addrs indirect).toNat = 0
    · rw [if_pos h0, if_pos h0]
    · rw [if_neg h0, if_neg h0, h h0]

/-- The blocks of the file stay where they are, with their contents; others may be
added to it. -/
theorem Dinode.Ok.grow {n : ℕ} (h : d.Ok n disk) (htype : d'.type = d.type)
    (hsize : d'.size = d.size)
    (hblock : ∀ bn, d.block disk bn ≠ 0 → d'.block disk' bn = d.block disk bn)
    (hagree : ∀ bn, d.block disk bn ≠ 0 → disk' (d.block disk bn) = disk (d.block disk bn)) :
    d'.Ok n disk' := by
  constructor
  · intro bn hbn hlt
    rw [hsize] at hlt
    have hne := h.filled bn hbn hlt
    rwa [hblock bn hne]
  · intro hdir off hoff hle hbn
    rw [htype] at hdir
    rw [hsize] at hle
    have hlt : off / bsize * bsize < d.size.toNat := by
      have hdiv := Nat.div_mul_le_self off bsize
      have hpos : 0 < direntSize := by decide
      omega
    have hne := h.filled _ hbn hlt
    unfold Dinode.inumAt
    rw [hblock _ hne, hagree _ hne]
    exact h.entries hdir off hoff hle hbn

/-! ## §4  Allocation -/

def deallocate (sb : Superblock) (disk : ℕ → Data) (b : ℕ) : ℕ → Data :=
  update disk sb.bmapstart (clearBit (disk sb.bmapstart) b)

theorem allocate_of_ne {c : ℕ} (hb : c ≠ b) (hc : c ∈ dataBlocks sb) :
    allocate sb.bmapstart disk b c = disk c := by
  have hne : c ≠ sb.bmapstart := by
    rintro rfl
    exact bmapstart_notMem sb hc
  rw [allocate, update_of_ne hb, update_of_ne hne]

theorem Layout.used_allocate (hl : Layout sb) (hb : b ∈ dataBlocks sb) {c : ℕ} (hc : c < sb.size) :
    c ∈ usedBlocks sb (allocate sb.bmapstart disk b) ↔ c ∈ usedBlocks sb disk ∨ c = b := by
  have hne : sb.bmapstart ≠ b := by
    rintro rfl
    exact bmapstart_notMem sb hb
  have hlt : b < 8 * bsize := hl.lt_bpb hb.1
  rw [hl.mem_used hc, hl.mem_used hc, allocate, update_of_ne hne, update_self,
    Nat.mod_eq_of_lt (hl.lt_bpb hb.1), bit_setBit _ hlt]
  simp

theorem Layout.used_deallocate (hl : Layout sb) (hb : b < sb.size) {c : ℕ} (hc : c < sb.size) :
    c ∈ usedBlocks sb (deallocate sb disk b) ↔ c ∈ usedBlocks sb disk ∧ c ≠ b := by
  have hlt : b < 8 * bsize := hl.lt_bpb hb
  rw [hl.mem_used hc, hl.mem_used hc, deallocate, update_self, bit_clearBit _ hlt]
  simp

/-- `ip->addrs[j] = b` -/
def Dinode.setAddr (d : Dinode) (j : Fin 13) (b : ℕ) : Dinode :=
  { d with addrs := update d.addrs j (.ofNat 32 b) }

theorem toNat_ofNat_of_lt (hb : b < 2 ^ 32) : (BitVec.ofNat 32 b).toNat = b := by
  rw [BitVec.toNat_ofNat, Nat.mod_eq_of_lt hb]

/-- A new block in an empty slot of `addrs`. When it is the indirect block, it is
cleared and adds no other references. -/
theorem Dinode.slot_setAddr {j : Fin 13} (hb : b < 2 ^ 32) (hj : (d.addrs j).toNat = 0)
    (hzero : disk' b = zero)
    (hagree : (d.addrs indirect).toNat ≠ 0 →
      disk' (d.addrs indirect).toNat = disk (d.addrs indirect).toNat) (sl : Slot) :
    (d.setAddr j b).slot disk' sl = update (d.slot disk) (.addr j) b sl := by
  cases sl with
  | addr l =>
    by_cases hl : l = j
    · subst hl
      simp only [Dinode.slot, Dinode.setAddr, update_self]
      exact toNat_ofNat_of_lt hb
    · rw [update_of_ne (by simpa using hl)]
      simp only [Dinode.slot, Dinode.setAddr, update_of_ne hl]
  | entry l =>
    rw [update_of_ne (by simp)]
    by_cases hi : j = indirect
    · subst hi
      simp only [Dinode.slot, Dinode.setAddr, update_self, toNat_ofNat_of_lt hb, hzero, hj, if_true]
      split_ifs
      · rfl
      · exact getLE_zero _ _
    · have hsame : (d.setAddr j b).addrs indirect = d.addrs indirect :=
        update_of_ne (Ne.symm hi) _ _
      rw [← Dinode.slot_congr hagree]
      simp only [Dinode.slot, hsame]

theorem Layout.lt_two_pow (hl : Layout sb) (hb : b < sb.size) : b < 2 ^ 32 :=
  lt_trans (hl.lt_bpb hb) (by decide)

theorem wordAt_setLE (a : Data) (j l : Fin 256) (hb : b < 2 ^ 32) :
    wordAt (setLE a (4 * j) 4 b) l = if l = j then b else wordAt a l := by
  unfold wordAt
  split_ifs with h
  · rw [h, getLE_setLE_same a (show 4 * j.val + 4 ≤ 1024 by omega)]
    exact Nat.mod_eq_of_lt hb
  · have hne : l.val ≠ j.val := fun heq => h (Fin.ext heq)
    exact getLE_setLE_of_disjoint a (by omega)

theorem Dinode.slot_setEntry {ind : ℕ} (hind : ind = (d.addrs indirect).toNat) (h0 : ind ≠ 0)
    {j : Fin 256} (hb : b < 2 ^ 32) (hagree : disk' ind = setLE (disk ind) (4 * j) 4 b)
    (sl : Slot) : d.slot disk' sl = update (d.slot disk) (.entry j) b sl := by
  cases sl with
  | addr l =>
    rw [update_of_ne (by simp)]
    rfl
  | entry l =>
    have hentry : ∀ disk, d.slot disk (.entry l) = wordAt (disk ind) l := by
      intro disk
      simp only [Dinode.slot, ← hind, if_neg h0]
    rw [hentry, hagree, wordAt_setLE _ _ _ hb]
    by_cases hlj : l = j
    · rw [hlj, if_pos rfl, update_self]
    · rw [if_neg hlj, update_of_ne (by simpa using hlj), hentry]

theorem Dinode.block_setEntry {ind bn : ℕ} (hind : ind = (d.addrs indirect).toNat) (h0 : ind ≠ 0)
    (hbn : ¬ bn < ndirect) (hlt : bn - ndirect < nindirect) (hb : b < 2 ^ 32)
    (hagree : disk' ind = setLE (disk ind) (4 * (bn - ndirect)) 4 b) : d.block disk' bn = b := by
  rw [Dinode.block, fileSlot_entry hbn hlt,
    Dinode.slot_setEntry (j := ⟨bn - ndirect, hlt⟩) hind h0 hb hagree]
  exact update_self (Slot.entry _) b (d.slot disk)

/-! ## §5  Contents -/

/-- A file without data: no slot is used. -/
theorem Dinode.slot_eq_zero (hd : d.addrs = fun _ => 0) (sl : Slot) : d.slot disk sl = 0 := by
  cases sl <;> simp [Dinode.slot, hd]

theorem Dinode.ok_of_size_zero {n : ℕ} (hs : d.size.toNat = 0) : d.Ok n disk where
  filled bn _ hlt := absurd hlt (by omega)
  entries _ off _ hle _ := absurd hle (by unfold direntSize; omega)

end RiscvBm.Fs

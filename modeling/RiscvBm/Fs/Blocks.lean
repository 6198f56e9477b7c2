import RiscvBm.Fs.Image
import RiscvBm.Fs.Refs

/-!
# Inodes and the bitmap on the disk

A dinode is written to the disk and read back; `balloc` and `bfree` change one bit of the
bitmap.
-/

namespace RiscvBm.Fs

open Bio (bsize Data)
open Bytes Wp Function

variable {sb : Superblock} {s s' : St} {v v' : ℕ → Dinode} {k : Ptr} {i : ℕ}

/-! ## §1  Dinodes on the disk -/

theorem ofNat_toNat_mod {w : ℕ} (x : BitVec w) {m : ℕ} (hm : m = 2 ^ w) :
    BitVec.ofNat w (x.toNat % m) = x := by
  apply BitVec.eq_of_toNat_eq
  rw [BitVec.toNat_ofNat, hm, Nat.mod_mod, Nat.mod_eq_of_lt x.isLt]

theorem readDinode_writeDinode (b : Data) {j : ℕ} (hj : j < ipb) (d : Dinode) :
    readDinode (writeDinode b j d) j = d := by
  have hj : j < 16 := hj
  have hn : bsize = 1024 := rfl
  obtain ⟨type, major, minor, nlink, size, addrs⟩ := d
  simp only [readDinode, writeDinode, Dinode.mk.injEq]
  -- each field is read where it was written, and the other fields are elsewhere
  simp (disch := omega) only [getLE_setWords_of_disjoint, getLE_setLE_of_disjoint,
    getLE_setLE_same]
  refine ⟨?_, ?_, ?_, ?_, ?_, ?_⟩
  · exact ofNat_toNat_mod _ (by norm_num)
  · exact ofNat_toNat_mod _ (by norm_num)
  · exact ofNat_toNat_mod _ (by norm_num)
  · exact ofNat_toNat_mod _ (by norm_num)
  · exact ofNat_toNat_mod _ (by norm_num)
  · funext l
    rw [getLE_setWords_same _ l.isLt (by omega)]
    have hl : Fin.ofNat 13 l.val = l := Fin.ext (Nat.mod_eq_of_lt l.isLt)
    rw [hl]
    exact ofNat_toNat_mod _ (by norm_num)

theorem readDinode_writeDinode_of_ne (b : Data) {j l : ℕ} (h : l ≠ j) (d : Dinode) :
    readDinode (writeDinode b j d) l = readDinode b l := by
  have hfield : ∀ off w, off + w ≤ 64 →
      getLE (writeDinode b j d) (64 * l + off) w = getLE b (64 * l + off) w := by
    intro off w hw
    simp (disch := omega) only [writeDinode, getLE_setWords_of_disjoint, getLE_setLE_of_disjoint]
  simp only [readDinode, Dinode.mk.injEq]
  refine ⟨?_, ?_, ?_, ?_, ?_, ?_⟩
  · rw [← Nat.add_zero (64 * l), hfield 0 2 (by omega)]
  · rw [hfield 2 2 (by omega)]
  · rw [hfield 4 2 (by omega)]
  · rw [hfield 6 2 (by omega)]
  · rw [hfield 8 4 (by omega)]
  · funext m
    have hm := m.isLt
    rw [Nat.add_assoc, hfield (12 + 4 * m.val) 4 (by omega)]

/-- Storing one inode changes no other. -/
theorem dinode_update (sb : Superblock) (disk : ℕ → Data) (i j : ℕ) (d : Dinode) :
    dinode sb (update disk (iblock sb i) (writeDinode (disk (iblock sb i)) (i % ipb) d)) j =
      if j = i then d else dinode sb disk j := by
  unfold dinode
  split_ifs with h
  · rw [h, update_self]
    exact readDinode_writeDinode _ (Nat.mod_lt _ (by decide)) d
  · by_cases hb : iblock sb j = iblock sb i
    · rw [hb, update_self]
      apply readDinode_writeDinode_of_ne
      intro hmod
      have hdiv : j / ipb = i / ipb := Nat.add_right_cancel hb
      apply h
      rw [← Nat.div_add_mod j ipb, ← Nat.div_add_mod i ipb, hdiv, hmod]
    · rw [update_of_ne hb]

/-! ## §2  Entries of `itable` -/

/-- `k` is a valid entry for the inode `i`. -/
structure Active (s : St) (k : Ptr) (i : ℕ) : Prop where
  ref : 0 < (s.inode k).ref
  valid : (s.inode k).valid = true
  inum : (s.inode k).inum = i

variable {E : Panic → Prop}

theorem setInode_setInode (s : St) (k : Ptr) (ip ip' : Inode) :
    setInode (setInode s k ip) k ip' = setInode s k ip' := by
  simp [setInode]

theorem setInode_setBlock (s : St) (k : Ptr) (ip : Inode) (b : ℕ) (data : Bio.Data) :
    setInode (setBlock s b data) k ip = setBlock (setInode s k ip) b data := rfl

theorem inode_setBlock (s : St) (b : ℕ) (data : Bio.Data) :
    (setBlock s b data).inode = s.inode := rfl

theorem Active.setInode (hk : Active s k i) {ip : Inode} (hident : ip.ident = (s.inode k).ident)
    (hvalid : ip.valid = true) : Active (setInode s k ip) k i := by
  constructor <;> rw [setInode_same]
  · exact lt_of_lt_of_eq hk.ref (congrArg Ident.ref hident).symm
  · exact hvalid
  · exact (congrArg Ident.inum hident).trans hk.inum

/-! ## §3  The bitmap -/

/-- Any panic but "freeing free block". -/
def notFreeing : Panic → Prop := fun e => e ≠ .freeingFreeBlock

/-- With one bitmap block, `balloc` panics only when all blocks are used. -/
theorem balloc_exact (hl : Layout sb) (hsb : s.sb = sb) (dev : ℕ) :
    wp (balloc dev) (fun b s' => b < sb.size ∧ b ∉ usedBlocks sb s.disk ∧
      s' = { s with disk := allocate sb.bmapstart s.disk b })
      (fun e => e = .outOfBlocks ∧ ∀ b < sb.size, b ∈ usedBlocks sb s.disk) s := by
  subst hsb
  have hsize : s.sb.size ≤ 8192 := hl.size_le
  refine wp_mono (balloc_first dev) ?_ ?_
  · rintro b s' ⟨hb, hscan, hseen, -, rfl⟩
    have hb : b < bpb := lt_of_lt_of_le hb (by unfold bits bpb; omega)
    have hlt : b < s.sb.size := (scanned_iff_lt hb).mp hscan
    rw [Seen, hl.bblockInt_eq hlt] at hseen
    refine ⟨hlt, fun hmem => ?_, by rw [hl.bblockInt_eq hlt]⟩
    rw [hl.mem_used hlt, ← Nat.mod_eq_of_lt hb, hseen] at hmem
    cases hmem
  · rintro e ⟨he, hnone⟩
    refine ⟨he (by unfold bpb; omega), fun b hb => ?_⟩
    have hseen := hnone b hb ((scanned_iff_lt (hl.lt_bpb hb)).mpr hb)
    rw [Seen, hl.bblockInt_eq hb, Bool.not_eq_false, Nat.mod_eq_of_lt (hl.lt_bpb hb)] at hseen
    exact (hl.mem_used hb).mpr hseen

theorem bfree_spec (hl : Layout sb) (hsb : s.sb = sb) {b : ℕ} (hb : b < sb.size)
    (hused : b ∈ usedBlocks sb s.disk) (dev : ℕ) :
    wp (bfree dev b) (fun _ s' => s' = { s with disk := deallocate sb s.disk b }) E s := by
  subst hsb
  rw [hl.mem_used hb] at hused
  refine wp_get (wp_bread ?_)
  rw [hl.bblock_eq hb, Nat.mod_eq_of_lt (hl.lt_bpb hb)]
  refine wp_require_bind (fun _ => wp_modify rfl) fun hfree => ?_
  simp [and_shift_eq_zero, hused] at hfree

theorem acquiresleep_spec {k : Ptr} (h : (s.inode k).locked = true → E .stuck) :
    wp (acquiresleep k) (fun _ s' => s' = setInode s k { s.inode k with locked := true }) E s :=
  wp_get (wp_require_bind (fun _ => wp_modify rfl) fun hno => h (by simpa using hno))

end RiscvBm.Fs

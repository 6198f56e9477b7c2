import RiscvBm.Fs.MkfsAgree

/-!
# Images of `mkfs` and holes (`mkfs/mkfs.c`)

`iappend` gives a file exactly the blocks that its bytes need, so every block below a
file's size is there, and the bitmap is the exact record of the blocks handed out. The
one exception is made at the end of `main`: the size of the root directory is set to
`((off/BSIZE) + 1) * BSIZE`, which rounds up, but goes to the next block when `off` is a
multiple of the block size already. The directory then claims a block that it does not
have, and the kernel allocates it while looking a name up.
-/

namespace RiscvBm.Mkfs

open Bio (bsize Data)
open Fs Bytes Wp Function Finset

variable {files : List InputFile} {disk : ℕ → Data} {v : ℕ → Dinode} {used i : ℕ}

/-! ## §1  The bitmap -/

theorem bit_bitmap {used : ℕ} (h : used ≤ 8 * bsize) (b : ℕ) :
    bit (bitmap used) b = decide (b < used) := by
  unfold bitmap
  induction used with
  | zero =>
    rw [List.range_zero, List.foldl_nil, bit_zero]
    simp
  | succ used ih =>
    rw [List.range_succ, List.foldl_append, List.foldl_cons, List.foldl_nil,
      bit_setBit _ (by omega), ih (by omega), ← Bool.decide_or]
    congr 1
    exact propext ⟨fun _ => by omega, fun _ => by omega⟩

theorem card_needs {m : ℕ} (h : m ≤ maxfile) : (needs m).card = cost m := by
  have himage : ((range m).image fileSlot).card = m := by
    rw [card_image_of_injOn, card_range]
    intro a ha b hb hab
    have ha := mem_range.mp ha
    have hb := mem_range.mp hb
    exact fileSlot_inj (by omega) (by omega) hab
  have hnot : Slot.addr indirect ∉ (range m).image fileSlot := by
    intro hmem
    obtain ⟨bn, -, hbn⟩ := mem_image.mp hmem
    exact fileSlot_ne_indirect hbn
  rw [needs, cost]
  split_ifs with hm
  · rw [card_union_of_disjoint (disjoint_singleton_right.mpr hnot), himage, card_singleton]
  · rw [union_empty, himage, Nat.add_zero]

theorem Stored.slot_ne {d : Dinode} {m : ℕ} {bytes : List UInt8}
    (h : Stored disk d m (ndirect < m) bytes) {sl : Slot} (hsl : sl ∈ needs m) :
    d.slot disk sl ≠ 0 := by
  rcases mem_union.mp hsl with hmem | hmem
  · obtain ⟨bn, hbn, rfl⟩ := mem_image.mp hmem
    have hbn := mem_range.mp hbn
    exact (h.block bn (lt_of_lt_of_le hbn h.le)).mpr hbn
  · split_ifs at hmem with hm
    · rw [mem_singleton.mp hmem]
      exact h.ind.mpr hm
    · exact absurd hmem (notMem_empty sl)

/-- Every block that was handed out is in a file: there are as many places as blocks. -/
theorem Written.covered (h : Written files (usedBy files) v disk) {b : ℕ} (hlow : nmeta ≤ b)
    (hb : b < usedBy files) : ∃ i < islots, ∃ sl, (v i).slot disk sl = b := by
  let places := (range islots).sigma fun i => needs (blocksFor (contents files i).length)
  have hne : ∀ p ∈ places, slotAt disk v (p.1, p.2) ≠ 0 := by
    intro p hp
    exact (h.exact.files p.1).slot_ne (mem_sigma.mp hp).2
  have hcard : places.card = ∑ i ∈ range islots, cost (blocksFor (contents files i).length) := by
    rw [card_sigma]
    exact sum_congr rfl fun i _ => card_needs (h.exact.files i).le
  have hsurj : Set.SurjOn (fun p : (_ : ℕ) × Slot => slotAt disk v (p.1, p.2)) places
      (Ico nmeta (usedBy files)) := by
    apply surjOn_of_injOn_of_card_le
    · intro p hp
      exact mem_coe.mpr (mem_Ico.mpr (h.exact.range _ (hne p hp)))
    · intro p hp q hq heq
      obtain ⟨h₁, h₂⟩ := Prod.mk.inj (h.exact.inj _ _ (hne p hp) heq)
      exact Sigma.ext h₁ (heq_of_eq h₂)
    · rw [Nat.card_Ico, hcard, usedBy, Nat.add_sub_cancel_left]
  obtain ⟨p, hp, hpb⟩ := hsurj (mem_coe.mpr (mem_Ico.mpr ⟨hlow, hb⟩))
  exact ⟨p.1, mem_range.mp (mem_sigma.mp (mem_coe.mp hp)).1, p.2, hpb⟩

/-! ## §2  Sizes -/

theorem Written.contents_le (h : Written files used v disk) (i : ℕ) :
    (contents files i).length ≤ blocksFor (contents files i).length * bsize :=
  (h.exact.files i).fits

/-- Below the bytes that were appended there are blocks. -/
theorem Written.block_ok (h : Written files used v disk) {off : ℕ}
    (hoff : off / bsize < blocksFor (contents files i).length) :
    off / bsize < maxfile ∧ (v i).block disk (off / bsize) ≠ 0 ∧
      (v i).block disk (off / bsize) < fssize := by
  have hfile := h.exact.files i
  have hmax : off / bsize < maxfile := lt_of_lt_of_le hoff hfile.le
  have hne := (hfile.block _ hmax).mpr hoff
  exact ⟨hmax, hne, lt_of_lt_of_le (h.exact.range (i, fileSlot (off / bsize)) hne).2 h.le⟩

theorem length_contents_root (files : List InputFile) :
    (contents files rootino).length = 16 * (files.length + 2) := length_root files

/-- The root directory has all its blocks unless its entries fill the last one. -/
theorem Written.root_blocks_iff (h : Written files used v disk) :
    (∀ off < (v rootino).size.toNat, off / bsize < blocksFor (contents files rootino).length) ↔
      (files.length + 2) % 64 ≠ 0 := by
  have hlen := length_contents_root files
  rw [h.rootSize, hlen]
  unfold blocksFor bsize
  constructor
  · intro hall hmod
    have := hall (16 * (files.length + 2)) (by omega)
    omega
  · intro hmod off hoff
    omega

/-! ## §3  No holes -/

/-- The inodes of an image have the blocks that their sizes promise. -/
structure NoHoles (disk : ℕ → Data) : Prop where
  blocks : ∀ i < islots, ∀ off < (dinode sb disk i).size.toNat,
    off / bsize < maxfile ∧ (dinode sb disk i).block disk (off / bsize) ≠ 0 ∧
      (dinode sb disk i).block disk (off / bsize) < fssize
  dirs : ∀ i < islots, (dinode sb disk i).type = tDir →
    (dinode sb disk i).size.toNat % direntSize = 0
  bitmap : ∀ b < fssize, bit (disk sb.bmapstart) b = true ↔
    b < nmeta ∨ ∃ i < islots, ∃ sl, (dinode sb disk i).slot disk sl = b
  /-- `bmap` finds the block of every offset and leaves the kernel's state as it is -/
  reads : ∀ (s : St) (k : Ptr), s.disk = disk → ∀ i < islots,
    (s.inode k).toDinode = dinode sb disk i → ∀ off < (dinode sb disk i).size.toNat,
      ∃ b, bmap k (off / bsize) s = .ok (b, s)

theorem Written.dirs (h : Written files used v disk) (htype : (v i).type = tDir) :
    (v i).size.toNat % direntSize = 0 := by
  have hroot : i = rootino := by
    have hkind : (v i).type = (kinds files i).1 := congrArg Prod.fst (h.kind i)
    rw [htype] at hkind
    match i with
    | 0 => exact absurd (show tDir = 0 from hkind) (by decide)
    | 1 => rfl
    | i + 2 =>
      rw [kinds] at hkind
      split_ifs at hkind <;> exact absurd hkind (by decide)
  rw [hroot, h.rootSize, show bsize = direntSize * 64 from rfl, ← Nat.mul_assoc,
    Nat.mul_comm _ direntSize, Nat.mul_assoc, Nat.mul_mod_right]

theorem Written.bitmap_iff (h : Written files (usedBy files) v disk) {b : ℕ} :
    bit (disk sb.bmapstart) b = true ↔
      b < nmeta ∨ ∃ i < islots, ∃ sl, (v i).slot disk sl = b := by
  have hle : usedBy files ≤ 8 * bsize := h.le.trans (by decide)
  have hlow := h.exact.low
  rw [h.bitmap, bit_bitmap hle, decide_eq_true_eq]
  constructor
  · intro hb
    rcases Nat.lt_or_ge b nmeta with hmeta | hge
    · exact Or.inl hmeta
    · exact Or.inr (h.covered hge hb)
  · rintro (hmeta | ⟨i, -, sl, rfl⟩)
    · exact lt_of_lt_of_le hmeta hlow
    · rcases Nat.eq_zero_or_pos ((v i).slot disk sl) with h0 | hpos
      · rw [h0]
        exact Nat.pos_of_ne_zero h.exact.freeblock_ne
      · exact (h.exact.range (i, sl) hpos.ne').2

/-- **No holes.** The image of any arguments that fit has no holes if and only if the
entries of the root directory do not fill its last block, that is, unless the number of
files is 62 modulo 64. -/
theorem mkfs_noHoles_iff (files : List InputFile) (hfits : Fits files)
    (hslash : ∀ f ∈ files, slash ∉ shortname f.path) :
    ∃ disk, mkfs files = .ok disk ∧ (NoHoles disk ↔ (files.length + 2) % 64 ≠ 0) := by
  obtain ⟨disk, v, hmkfs, hw⟩ := mkfs_written hfits hslash
  refine ⟨disk, hmkfs, ?_⟩
  have hroot : rootino < islots := by decide
  rw [← hw.root_blocks_iff]
  constructor
  · intro hno off hoff
    obtain ⟨hmax, hne, -⟩ := hno.blocks rootino hroot off (by rwa [hw.saved _ hroot])
    rw [hw.saved _ hroot] at hne
    exact ((hw.exact.files rootino).block _ hmax).mp hne
  · intro hall
    have hblocks : ∀ i < islots, ∀ off < (dinode sb disk i).size.toNat,
        off / bsize < maxfile ∧ (dinode sb disk i).block disk (off / bsize) ≠ 0 ∧
          (dinode sb disk i).block disk (off / bsize) < fssize := by
      intro i hi off hoff
      rw [hw.saved i hi] at hoff ⊢
      apply hw.block_ok
      by_cases hir : i = rootino
      · subst hir
        exact hall off hoff
      · rw [hw.size i hir] at hoff
        have hlen := hw.contents_le i
        apply Nat.div_lt_of_lt_mul
        rw [Nat.mul_comm]
        omega
    refine ⟨hblocks, ?_, ?_, ?_⟩
    · intro i hi htype
      rw [hw.saved i hi] at htype ⊢
      exact hw.dirs htype
    · intro b _
      rw [hw.bitmap_iff]
      refine or_congr Iff.rfl (exists_congr fun i => and_congr_right fun hi => ?_)
      rw [hw.saved i hi]
    · intro s k hdisk i hi hcopy off hoff
      obtain ⟨hmax, hne, -⟩ := hblocks i hi off hoff
      have hne : (s.inode k).block s.disk (off / bsize) ≠ 0 := by
        rw [hcopy, hdisk]
        exact hne
      obtain ⟨b, s', hrun, -, rfl⟩ := exists_of_wp (bmap_found hmax hne)
      exact ⟨b, hrun⟩

/-- The image with `cat` alone has no holes. -/
theorem mkfs_noHoles_iff_cat :
    ∃ disk, mkfs [byteFile catPath (by decide)] = .ok disk ∧ NoHoles disk := by
  have hfits : Fits [byteFile catPath (by decide)] := ⟨by decide, by decide, by decide⟩
  obtain ⟨disk, hmkfs, hiff⟩ := mkfs_noHoles_iff _ hfits (by decide)
  exact ⟨disk, hmkfs, hiff.mpr (by decide)⟩

/-- An empty file with the name `a` and another character. -/
def emptyFile (i : Fin 62) : InputFile where
  path := [97, UInt8.ofNat (48 + i)]
  reads := []
  noNul := by
    revert i
    decide
  reads_ok := by simp

/-- As many files as entries are left in the first block of the root directory. -/
def fullRoot : List InputFile := List.ofFn emptyFile

theorem fits_fullRoot : Fits fullRoot := by
  have hbytes : ∀ f ∈ fullRoot, f.bytes = [] := by
    intro f hf
    obtain ⟨i, rfl⟩ := List.mem_ofFn.mp hf
    rfl
  refine ⟨by decide, ?_, fun f hf => ?_⟩
  · have hsum : (fullRoot.map fun f => cost (blocksFor f.bytes.length)).sum = 0 := by
      apply List.sum_eq_zero
      intro c hc
      obtain ⟨f, hf, rfl⟩ := List.mem_map.mp hc
      rw [hbytes f hf]
      rfl
    rw [hsum, fullRoot, List.length_ofFn]
    decide
  · rw [hbytes f hf]
    exact Nat.zero_le _

/-- With 62 files the root directory has one block and claims two. -/
theorem mkfs_hole_fullRoot :
    Fits fullRoot ∧ (∀ f ∈ fullRoot, slash ∉ shortname f.path) ∧
      ∃ disk, mkfs fullRoot = .ok disk ∧ (dinode sb disk rootino).size.toNat = 2 * bsize ∧
        (dinode sb disk rootino).block disk 1 = 0 := by
  have hslash : ∀ f ∈ fullRoot, slash ∉ shortname f.path := by
    intro f hf
    obtain ⟨i, rfl⟩ := List.mem_ofFn.mp hf
    clear hf
    revert i
    decide
  obtain ⟨disk, v, hmkfs, hw⟩ := mkfs_written fits_fullRoot hslash
  have hlen : (contents fullRoot rootino).length = bsize := by
    rw [length_contents_root, fullRoot, List.length_ofFn]
    rfl
  refine ⟨fits_fullRoot, hslash, disk, hmkfs, ?_, ?_⟩
  · rw [hw.saved _ (by decide), hw.rootSize, hlen]
    rfl
  · have hblock := (hw.exact.files rootino).block 1 (by decide)
    rw [hlen] at hblock
    rw [hw.saved _ (by decide)]
    by_contra hne
    exact absurd (hblock.mp hne) (by decide)

end RiscvBm.Mkfs

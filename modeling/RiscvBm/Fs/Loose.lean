import RiscvBm.Fs.Names

/-!
# Blocks that are kept apart

A file system in which no block is used twice, but blocks may be lost, and a directory may have
holes, as the image of `mkfs` does. When a hole is read, the inode in memory gets a block that the
inode on the disk does not have, and the block is lost with the entry of `itable`.
-/

namespace RiscvBm.Fs

open Bio (bsize Data)
open Bytes Ownership Wp Function

/-- There is room for `n` inodes in front of the bitmap. -/
structure Room (sb : Superblock) (n : ℕ) : Prop extends Layout sb where
  le : sb.ninodes ≤ n
  room : ∀ i < n, iblock sb i < sb.bmapstart

/-- No block is referred to twice, and those that are referred to are marked. -/
structure Apart (sb : Superblock) (n : ℕ) (disk : ℕ → Data) (v : ℕ → Dinode) : Prop
    extends Owns (blockAt n disk v) (dataBlocks sb) (usedBlocks sb disk) where
  reserved : ∀ b < sb.size, Meta sb b → b ∈ usedBlocks sb disk

variable {sb : Superblock} {n : ℕ} {disk disk' : ℕ → Data} {v v' : ℕ → Dinode} {d : Dinode}
  {i j b : ℕ}

theorem Room.iblock_notMem (hr : Room sb n) (hi : i < n) : iblock sb i ∉ dataBlocks sb := fun h =>
  h.2 (Or.inr (Or.inr (Or.inl ⟨Nat.le_add_left _ _, hr.room i hi⟩)))

/-- Inodes are kept outside the bitmap and the data. -/
theorem Room.ne_iblock (hr : Room sb n) (hi : i < n) (hb : b = sb.bmapstart ∨ b ∈ dataBlocks sb) :
    b ≠ iblock sb i := by
  rintro rfl
  rcases hb with hb | hb
  · exact (hr.room i hi).ne hb
  · exact hr.iblock_notMem hi hb

theorem Apart.mem_of_free (h : Apart sb n disk v) (hb : b < sb.size)
    (hfree : b ∉ usedBlocks sb disk) : b ∈ dataBlocks sb :=
  ⟨hb, fun hm => hfree (h.reserved b hb hm)⟩

/-- The blocks of the inode `i` are the same on another disk. -/
def SameBlocks (n : ℕ) (disk : ℕ → Data) (v : ℕ → Dinode) (disk' : ℕ → Data) (i : ℕ) : Prop :=
  ∀ sl, blockAt n disk v (i, sl) ≠ 0 →
    disk' (blockAt n disk v (i, sl)) = disk (blockAt n disk v (i, sl))

theorem SameBlocks.slot (h : SameBlocks n disk v disk' i) (hi : i < n) (ht : (v i).type ≠ 0)
    (sl : Slot) : (v i).slot disk' sl = (v i).slot disk sl := by
  apply Dinode.slot_congr
  have hind := h (.addr indirect)
  rw [blockAt_eq hi ht] at hind
  exact hind

theorem SameBlocks.grows (h : SameBlocks n disk v disk' i) (hi : i < n) (ht : (v i).type ≠ 0) :
    Grows disk (v i) disk' (v i) := by
  intro bn _
  refine Or.inl ⟨h.slot hi ht _, ?_⟩
  have hdata := h (fileSlot bn)
  rw [blockAt_eq hi ht] at hdata
  exact hdata

/-- The other inodes refer to the same blocks. -/
theorem blockAt_other (hagree : ∀ j, j ≠ i → SameBlocks n disk v disk' j) {p : Place}
    (hp : p.1 ≠ i) : blockAt n disk' (update v i d) p = blockAt n disk v p := by
  unfold blockAt
  rw [update_of_ne hp]
  by_cases hc : p.1 < n ∧ (v p.1).type ≠ 0
  · rw [if_pos hc, if_pos hc, (hagree _ hp).slot hc.1 hc.2]
  · rw [if_neg hc, if_neg hc]

/-- The inode `i` keeps some of its blocks. -/
theorem Apart.shrink (h : Apart sb n disk v) (hagree : ∀ j, j ≠ i → SameBlocks n disk v disk' j)
    (hslot : i < n → d.type ≠ 0 → ∀ sl, d.slot disk' sl ≠ 0 →
      blockAt n disk v (i, sl) = d.slot disk' sl)
    (hused : ∀ p, blockAt n disk' (update v i d) p ≠ 0 → blockAt n disk v p ≠ 0 →
      blockAt n disk v p ∈ usedBlocks sb disk')
    (hreserved : ∀ b < sb.size, Meta sb b → b ∈ usedBlocks sb disk') :
    Apart sb n disk' (update v i d) := by
  have hat : ∀ p, blockAt n disk' (update v i d) p ≠ 0 →
      blockAt n disk v p = blockAt n disk' (update v i d) p := by
    rintro ⟨j, sl⟩ hne
    by_cases hj : j = i
    · subst hj
      by_cases hc : j < n ∧ (update v j d j).type ≠ 0
      · rw [blockAt_eq hc.1 hc.2, update_self] at hne ⊢
        rw [update_self] at hc
        exact hslot hc.1 hc.2 sl hne
      · exact absurd (if_neg hc) hne
    · exact (blockAt_other hagree hj).symm
  refine ⟨⟨fun {p q} hp hpq => ?_, fun {p} hp => ?_, fun {p} hp => ?_⟩, hreserved⟩
  · have hp' := hat p hp
    have hq' := hat q (hpq ▸ hp)
    rw [← hp'] at hp
    exact h.inj hp (hp'.trans (hpq.trans hq'.symm))
  · have hp' := hat p hp
    rw [← hp'] at hp ⊢
    exact h.mem hp
  · have hp' := hat p hp
    rw [← hp']
    exact hused p hp (hp' ▸ hp)

theorem Apart.used_of (hr : Room sb n) (h : Apart sb n disk v)
    (hbm : disk' sb.bmapstart = disk sb.bmapstart) {p : Place} (hp : blockAt n disk v p ≠ 0) :
    blockAt n disk v p ∈ usedBlocks sb disk' :=
  (hr.used_congr hbm (h.mem hp).1).mpr (h.used hp)

/-- The inode `i` keeps some of its blocks, on a disk with the same data and bitmap. -/
theorem Apart.keep (hr : Room sb n) (h : Apart sb n disk v)
    (hagree : ∀ b, b = sb.bmapstart ∨ b ∈ dataBlocks sb → disk' b = disk b)
    (hslot : i < n → d.type ≠ 0 → ∀ sl, d.slot disk' sl ≠ 0 →
      blockAt n disk v (i, sl) = d.slot disk' sl) : Apart sb n disk' (update v i d) := by
  have hbm := hagree _ (Or.inl rfl)
  apply h.shrink (fun j _ sl hne => hagree _ (Or.inr (h.mem hne))) hslot
  · exact fun p _ hp => h.used_of hr hbm hp
  · exact fun b hb hm => (hr.used_congr hbm hb).mpr (h.reserved b hb hm)

theorem Apart.congr (hr : Room sb n) (h : Apart sb n disk v)
    (hagree : ∀ b, b = sb.bmapstart ∨ b ∈ dataBlocks sb → disk' b = disk b) :
    Apart sb n disk' v := by
  have hkeep := h.keep hr hagree (i := n) (d := v n) fun hlt => absurd hlt (lt_irrefl n)
  rwa [update_eq_self] at hkeep

/-- One more block of the inode `i`. -/
theorem Apart.take (h : Apart sb n disk v) (hi : i < n) (ht : (v i).type ≠ 0) (hb : b < sb.size)
    (hfree : b ∉ usedBlocks sb disk) (sl : Slot) (htype : d.type = (v i).type)
    (hused : ∀ c < sb.size, c ∈ usedBlocks sb disk' ↔ c ∈ usedBlocks sb disk ∨ c = b)
    (hagree : ∀ j, j ≠ i → SameBlocks n disk v disk' j)
    (hslot : ∀ sl', d.slot disk' sl' = update ((v i).slot disk) sl b sl') :
    Apart sb n disk' (update v i d) := by
  have hdata := h.mem_of_free hb hfree
  have hat : blockAt n disk' (update v i d) = update (blockAt n disk v) (i, sl) b := by
    funext ⟨j, sl'⟩
    by_cases hj : j = i
    · subst hj
      rw [blockAt_eq hi (by rwa [update_self, htype]), update_self, hslot]
      by_cases hs : sl' = sl
      · rw [hs, update_self, update_self]
      · rw [update_of_ne hs, update_of_ne (by simpa using hs), blockAt_eq hi ht]
    · rw [blockAt_other hagree hj, update_of_ne fun heq => hj (congrArg Prod.fst heq)]
  refine ⟨?_, fun c hc hm => (hused c hc).mpr (Or.inl (h.reserved c hc hm))⟩
  rw [hat]
  exact h.toOwns.take hdata hfree fun c hc => (hused c hc.1).mpr

end RiscvBm.Fs

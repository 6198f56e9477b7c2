import RiscvBm.Fs.Loose

/-!
# The inodes in memory and on the disk, and the free blocks

`Held` relates a state to the inodes `v` it stands for: an entry of `itable` that is valid
holds one of them, and the one on the disk is behind by blocks that are zero. Nothing is said
about what the inodes contain, and an entry that is not valid may be for any number.

`bmap` is the one place where inodes get blocks. `Changed` is what a call on the contents of
one inode does: there may be new blocks, and for each of them there is one free block less.
`lack N` counts the blocks that are missing for the first `N` blocks of a file, so that `bmap`
panics only when there are fewer free blocks than that (`Short`), however often it is called.
-/

namespace RiscvBm.Fs

open Bio (bsize Data)
open Bytes Wp Function Finset

variable {sb : Superblock} {n : ℕ} {disk disk' : ℕ → Data} {v v' : ℕ → Dinode} {d d' : Dinode}
  {i j b : ℕ}

/-! ## §1  The inodes a state stands for -/

structure Held (sb : Superblock) (n : ℕ) (dirty : Option ℕ) (s : St) (v : ℕ → Dinode) :
    Prop where
  sb_eq : s.sb = sb
  disk : ∀ i < n, dirty ≠ some i → Behind s.disk (dinode sb s.disk i) (v i)
  dev : ∀ k, 0 < (s.inode k).ref → (s.inode k).dev = rootdev
  inum : ∀ k, 0 < (s.inode k).ref → (s.inode k).valid = true → (s.inode k).inum < n
  copy : ∀ k, 0 < (s.inode k).ref → (s.inode k).valid = true →
    (s.inode k).toDinode = v (s.inode k).inum ∧ (s.inode k).type ≠ 0
  uniq : Uniq s
  locked : ∀ k, (s.inode k).locked = true → 0 < (s.inode k).ref ∧ (s.inode k).valid = true
  apart : Apart sb n s.disk v

variable {s s' : St} {k : Ptr} {dirty dirty' : Option ℕ} {E : Panic → Prop}

section

variable (h : Held sb n dirty s v)

include h

theorem Held.inum_lt (hk : Active s k i) : i < n :=
  hk.inum ▸ h.inum k hk.ref hk.valid

theorem Held.copy_eq (hk : Active s k i) :
    (s.inode k).toDinode = v i :=
  hk.inum ▸ (h.copy k hk.ref hk.valid).1

theorem Held.inode_type_ne (hk : Active s k i) :
    (s.inode k).type ≠ 0 :=
  (h.copy k hk.ref hk.valid).2

theorem Held.type_ne (hk : Active s k i) : (v i).type ≠ 0 := by
  rw [← h.copy_eq hk]
  exact h.inode_type_ne hk

theorem Held.active_of_locked (hk : (s.inode k).locked = true) :
    Active s k (s.inode k).inum :=
  ⟨(h.locked k hk).1, (h.locked k hk).2, rfl⟩

/-- Another entry is for another inode. -/
theorem Held.inum_ne (hk : 0 < (s.inode k).ref) {l : Ptr}
    (hl : l ≠ k) (hpos : 0 < (s.inode l).ref) : (s.inode l).inum ≠ (s.inode k).inum := by
  intro heq
  refine hl (h.uniq l k hpos hk ?_ heq)
  rw [h.dev l hpos, h.dev k hk]

/-- The disk is changed, but not what belongs to the inodes. -/
theorem Held.setDisk (hdirty : ∀ j, dirty' ≠ some j → dirty ≠ some j)
    (hino : ∀ j < n, dinode sb disk' j = dinode sb s.disk j)
    (hgrows : ∀ j < n, dirty' ≠ some j → (v j).type ≠ 0 → Grows s.disk (v j) disk' (v j))
    (hapart : Apart sb n disk' v) : Held sb n dirty' { s with disk := disk' } v := by
  refine ⟨h.sb_eq, ?_, h.dev, h.inum, h.copy, h.uniq, h.locked, hapart⟩
  intro j hj hne
  show Behind disk' (dinode sb disk' j) (v j)
  rw [hino j hj]
  exact (h.disk j hj (hdirty j hne)).grow (hgrows j hj hne) rfl rfl rfl fun _ => Or.inl rfl

/-- The entry `k` is replaced, together with the disk. -/
theorem Held.put {ip : Inode}
    (hdisk : ∀ j < n, dirty' ≠ some j → Behind disk' (dinode sb disk' j) (v' j))
    (hother : ∀ l, l ≠ k → 0 < (s.inode l).ref → (s.inode l).valid = true →
      v' (s.inode l).inum = v (s.inode l).inum)
    (hdev : 0 < ip.ref → ip.dev = rootdev) (hinum : 0 < ip.ref → ip.valid = true → ip.inum < n)
    (hcopy : 0 < ip.ref → ip.valid = true → ip.toDinode = v' ip.inum ∧ ip.type ≠ 0)
    (huniq : Uniq (setInode s k ip)) (hlocked : ip.locked = true → 0 < ip.ref ∧ ip.valid = true)
    (hapart : Apart sb n disk' v') :
    Held sb n dirty' { setInode s k ip with disk := disk' } v' where
  sb_eq := h.sb_eq
  disk := hdisk
  dev := (forall_update_iff s.inode fun _ ip => 0 < ip.ref → ip.dev = rootdev).mpr
    ⟨hdev, fun l _ => h.dev l⟩
  inum := (forall_update_iff s.inode fun _ ip => 0 < ip.ref → ip.valid = true → ip.inum < n).mpr
    ⟨hinum, fun l _ => h.inum l⟩
  copy := by
    refine (forall_update_iff s.inode fun _ ip => 0 < ip.ref → ip.valid = true →
      ip.toDinode = v' ip.inum ∧ ip.type ≠ 0).mpr ⟨hcopy, fun l hl hpos hv => ?_⟩
    rw [hother l hl hpos hv]
    exact h.copy l hpos hv
  uniq := huniq
  locked := (forall_update_iff s.inode fun _ ip => ip.locked = true →
    0 < ip.ref ∧ ip.valid = true).mpr ⟨hlocked, fun l _ => h.locked l⟩
  apart := hapart

/-- The entry `k` for the inode `i` is changed, together with the disk. -/
theorem Held.change (hk : Active s k i) (ip : Inode)
    {d : Dinode} (hd : ip.toDinode = d) (hident : ip.ident = (s.inode k).ident)
    (hvalid : ip.valid = true) (htype : ip.type ≠ 0)
    (disk' : ℕ → Data) (hino : ∀ j < n, j ≠ i → dinode sb disk' j = dinode sb s.disk j)
    (hsame : ∀ j, j ≠ i → SameBlocks n s.disk v disk' j)
    (hself : dirty' ≠ some i → Behind disk' (dinode sb disk' i) d)
    (hdirty : ∀ j, j ≠ i → dirty' ≠ some j → dirty ≠ some j)
    (hapart : Apart sb n disk' (update v i d)) :
    Held sb n dirty' { setInode s k ip with disk := disk' } (update v i d) := by
  subst hd
  have href : ip.ref = (s.inode k).ref := congrArg Ident.ref hident
  have hdev : ip.dev = (s.inode k).dev := congrArg Ident.dev hident
  have hinum : ip.inum = i := (congrArg Ident.inum hident).trans hk.inum
  apply h.put _ _ _ _ _ (h.uniq.of_idents (idents_setInode hident)) _ hapart
  · intro j hj hne
    by_cases hji : j = i
    · subst hji
      rw [update_self]
      exact hself hne
    · rw [update_of_ne hji, hino j hj hji]
      exact (h.disk j hj (hdirty j hji hne)).grow (fun ht => (hsame j hji).grows hj ht) rfl rfl rfl
        fun _ => Or.inl rfl
  · intro l hl hpos _
    have hne := h.inum_ne hk.ref hl hpos
    rw [hk.inum] at hne
    rw [update_of_ne hne]
  · rw [hdev]
    exact fun _ => h.dev k hk.ref
  · rw [hinum]
    exact fun _ _ => h.inum_lt hk
  · rw [hinum, update_self]
    exact fun _ _ => ⟨rfl, htype⟩
  · rw [href]
    exact fun _ => ⟨hk.ref, hvalid⟩

end

/-! ## §2  Free blocks and missing blocks -/

def freeBlocks (sb : Superblock) (disk : ℕ → Data) : Finset ℕ :=
  (range sb.size).filter fun b => bit (disk (bblock sb b)) (b % bpb) = false

/-- How many blocks `balloc` can still give. -/
def avail (sb : Superblock) (disk : ℕ → Data) : ℕ := (freeBlocks sb disk).card

/-- How many blocks are missing for the first `N` blocks of a file. -/
def lack (N : ℕ) (disk : ℕ → Data) (d : Dinode) : ℕ :=
  ((needs N).filter fun sl => d.slot disk sl = 0).card

/-- There are not enough blocks for the first `N` blocks of `d`. -/
def Short (sb : Superblock) (N : ℕ) (disk : ℕ → Data) (d : Dinode) (e : Panic) : Prop :=
  e = .outOfBlocks ∧ avail sb disk < lack N disk d

variable {N bn : ℕ} {sl : Slot}

theorem mem_freeBlocks : b ∈ freeBlocks sb disk ↔ b < sb.size ∧ b ∉ usedBlocks sb disk := by
  rw [freeBlocks, mem_filter, mem_range, usedBlocks, Set.mem_ofPred_eq,
    Bool.not_eq_true]

theorem fileSlot_mem_needs (h : bn < N) : fileSlot bn ∈ needs N :=
  mem_union_left _ (mem_image_of_mem _ (mem_range.mpr h))

theorem indirect_mem_needs (h : ndirect < N) : Slot.addr indirect ∈ needs N := by
  rw [needs, if_pos h]
  exact mem_union_right _ (mem_singleton_self _)

theorem avail_allocate (hl : Layout sb) (hb : b ∈ dataBlocks sb) (hfree : b ∉ usedBlocks sb disk) :
    avail sb (allocate sb.bmapstart disk b) + 1 = avail sb disk := by
  have hset : freeBlocks sb (allocate sb.bmapstart disk b) = (freeBlocks sb disk).erase b := by
    ext c
    rw [mem_freeBlocks, mem_erase, mem_freeBlocks]
    constructor
    · rintro ⟨hc, hno⟩
      rw [hl.used_allocate hb hc, not_or] at hno
      exact ⟨hno.2, hc, hno.1⟩
    · rintro ⟨hne, hc, hno⟩
      rw [hl.used_allocate hb hc, not_or]
      exact ⟨hc, hno, hne⟩
  rw [avail, hset, card_erase_add_one (mem_freeBlocks.mpr ⟨hb.1, hfree⟩), avail]

theorem avail_congr (hl : Layout sb) (h : disk' sb.bmapstart = disk sb.bmapstart) :
    avail sb disk' = avail sb disk := by
  unfold avail
  congr 1
  ext c
  rw [mem_freeBlocks, mem_freeBlocks]
  constructor
  · rintro ⟨hc, hno⟩
    exact ⟨hc, (hl.used_congr h hc).not.mp hno⟩
  · rintro ⟨hc, hno⟩
    exact ⟨hc, (hl.used_congr h hc).not.mpr hno⟩

theorem avail_eq_zero (h : ∀ b < sb.size, b ∈ usedBlocks sb disk) : avail sb disk = 0 := by
  rw [avail, card_eq_zero, eq_empty_iff_forall_notMem]
  intro b hb
  rw [mem_freeBlocks] at hb
  exact hb.2 (h b hb.1)

/-- A slot that was empty has got a block. -/
theorem lack_update (hsl : sl ∈ needs N) (h0 : d.slot disk sl = 0) (hb : b ≠ 0)
    (hslot : ∀ sl', d'.slot disk' sl' = update (d.slot disk) sl b sl') :
    lack N disk' d' + 1 = lack N disk d := by
  have hset : (needs N).filter (fun sl' => d'.slot disk' sl' = 0) =
      ((needs N).filter fun sl' => d.slot disk sl' = 0).erase sl := by
    ext sl'
    rw [mem_filter, mem_erase, mem_filter, hslot]
    by_cases hs : sl' = sl
    · subst hs
      rw [update_self]
      simp [hb]
    · rw [update_of_ne hs]
      simp [hs]
  rw [lack, hset, card_erase_add_one (mem_filter.mpr ⟨hsl, h0⟩), lack]

theorem lack_congr (hslot : ∀ sl, d'.slot disk' sl = d.slot disk sl) :
    lack N disk' d' = lack N disk d := by
  unfold lack
  simp only [hslot]

theorem lack_pos (hsl : sl ∈ needs N) (h0 : d.slot disk sl = 0) : 0 < lack N disk d :=
  card_pos.mpr ⟨sl, mem_filter.mpr ⟨hsl, h0⟩⟩

theorem not_short {e : Panic} (h : lack N disk d ≤ avail sb disk) : ¬ Short sb N disk d e :=
  fun he => absurd he.2 (not_lt.mpr h)

/-! ## §3  `bmap` -/

/-- What was done to the blocks of the inode `i`, whose entry is `k`. -/
structure Changed (sb : Superblock) (n : ℕ) (dirty : Option ℕ) (N : ℕ) (k : Ptr) (i : ℕ) (s : St)
    (v : ℕ → Dinode) (s' : St) (v' : ℕ → Dinode) : Prop where
  held : Held sb n dirty s' v'
  active : Active s' k i
  entries : ∀ l, l ≠ k → s'.inode l = s.inode l
  ident : (s'.inode k).ident = (s.inode k).ident
  other : ∀ j, j ≠ i → v' j = v j ∧ SameBlocks n s.disk v s'.disk j
  dinodes : ∀ j < n, j ≠ i → dinode sb s'.disk j = dinode sb s.disk j
  fresh : ∀ b ∈ dataBlocks sb, b ∈ usedBlocks sb s'.disk →
    b ∈ usedBlocks sb s.disk ∨ ∃ sl, (v' i).slot s'.disk sl = b
  type : (v' i).type = (v i).type
  nlink : (v' i).nlink = (v i).nlink
  slot : ∀ sl, (v i).slot s.disk sl ≠ 0 → (v' i).slot s'.disk sl = (v i).slot s.disk sl
  space : avail sb s'.disk + lack N s.disk (v i) = avail sb s.disk + lack N s'.disk (v' i)

/-- There are only new blocks, which are zero. -/
structure Extended (sb : Superblock) (n : ℕ) (dirty : Option ℕ) (N : ℕ) (k : Ptr) (i : ℕ) (s : St)
    (v : ℕ → Dinode) (s' : St) (v' : ℕ → Dinode) : Prop
    extends Changed sb n dirty N k i s v s' v' where
  size : (v' i).size = (v i).size
  grows : Grows s.disk (v i) s'.disk (v' i)

theorem Grows.refl (disk : ℕ → Data) (d : Dinode) : Grows disk d disk d :=
  fun _ _ => Or.inl ⟨rfl, fun _ => rfl⟩

theorem Grows.trans {disk₂ : ℕ → Data} {d₂ : Dinode} (h₁ : Grows disk d disk' d')
    (h₂ : Grows disk' d' disk₂ d₂) : Grows disk d disk₂ d₂ := by
  intro bn hbn
  rcases h₁ bn hbn with ⟨hsame, hdata⟩ | ⟨h0, hnew⟩ <;>
    rcases h₂ bn hbn with ⟨hsame', hdata'⟩ | ⟨h0', hnew'⟩
  · refine Or.inl ⟨hsame'.trans hsame, fun hne => ?_⟩
    rw [← hsame] at hne
    rw [← hsame, hdata' hne, hsame]
    exact hdata (hsame ▸ hne)
  · exact Or.inr ⟨hsame.symm.trans h0', hnew'⟩
  · refine Or.inr ⟨h0, fun hne => ?_⟩
    rw [hsame'] at hne ⊢
    rw [hdata' hne, hnew hne]
  · exact Or.inr ⟨h0, hnew'⟩

theorem SameBlocks.trans {disk₂ : ℕ → Data} (h₁ : SameBlocks n disk v disk' i)
    (hv : v' i = v i) (h₂ : SameBlocks n disk' v' disk₂ i) : SameBlocks n disk v disk₂ i := by
  intro sl hne
  have hblock : blockAt n disk' v' (i, sl) = blockAt n disk v (i, sl) := by
    unfold blockAt
    dsimp only
    rw [hv]
    by_cases hc : i < n ∧ (v i).type ≠ 0
    · rw [if_pos hc, if_pos hc, h₁.slot hc.1 hc.2]
    · rw [if_neg hc, if_neg hc]
  have hsecond := h₂ sl
  rw [hblock] at hsecond
  rw [hsecond hne, h₁ sl hne]

theorem Changed.refl (h : Held sb n dirty s v) (hk : Active s k i) :
    Changed sb n dirty N k i s v s v :=
  ⟨h, hk, fun _ _ => rfl, rfl, fun _ _ => ⟨rfl, fun _ _ => rfl⟩, fun _ _ _ => rfl,
    fun _ _ => Or.inl, rfl, rfl, fun _ _ => rfl, rfl⟩

theorem Changed.trans {t : St} {w : ℕ → Dinode} (h₁ : Changed sb n dirty N k i s v s' v')
    (h₂ : Changed sb n dirty' N k i s' v' t w) : Changed sb n dirty' N k i s v t w where
  held := h₂.held
  active := h₂.active
  entries := fun l hl => (h₂.entries l hl).trans (h₁.entries l hl)
  ident := h₂.ident.trans h₁.ident
  other := by
    intro j hj
    obtain ⟨hv, hsame⟩ := h₁.other j hj
    obtain ⟨hv', hsame'⟩ := h₂.other j hj
    exact ⟨hv'.trans hv, hsame.trans hv hsame'⟩
  dinodes := fun j hj hji => (h₂.dinodes j hj hji).trans (h₁.dinodes j hj hji)
  fresh := by
    intro b hb hu
    rcases h₂.fresh b hb hu with hu | hsl
    · rcases h₁.fresh b hb hu with hu | ⟨sl, rfl⟩
      · exact Or.inl hu
      · exact Or.inr ⟨sl, h₂.slot sl (ne_zero_of_mem hb)⟩
    · exact Or.inr hsl
  type := h₂.type.trans h₁.type
  nlink := h₂.nlink.trans h₁.nlink
  slot := by
    intro sl hne
    have hsame := h₁.slot sl hne
    rw [← hsame] at hne ⊢
    exact h₂.slot sl hne
  space := by
    have := h₁.space
    have := h₂.space
    omega

theorem Extended.refl (h : Held sb n dirty s v) (hk : Active s k i) :
    Extended sb n dirty N k i s v s v :=
  ⟨Changed.refl h hk, rfl, Grows.refl _ _⟩

theorem Extended.trans {t : St} {w : ℕ → Dinode} (h₁ : Extended sb n dirty N k i s v s' v')
    (h₂ : Extended sb n dirty' N k i s' v' t w) : Extended sb n dirty' N k i s v t w :=
  ⟨h₁.toChanged.trans h₂.toChanged, h₂.size.trans h₁.size, h₁.grows.trans h₂.grows⟩

/-- What is short later was short before. -/
theorem Changed.short (h : Changed sb n dirty N k i s v s' v') {e : Panic}
    (he : Short sb N s'.disk (v' i) e) : Short sb N s.disk (v i) e := by
  obtain ⟨he, hlt⟩ := he
  have := h.space
  exact ⟨he, by omega⟩

theorem Changed.block (h : Changed sb n dirty N k i s v s' v') {bn : ℕ}
    (hne : (v i).block s.disk bn ≠ 0) : (v' i).block s'.disk bn = (v i).block s.disk bn :=
  h.slot _ hne

/-- A new block is none that an inode has. -/
theorem Apart.sameBlocks_allocate (h : Apart sb n disk v) (hfree : b ∉ usedBlocks sb disk) (j : ℕ) :
    SameBlocks n disk v (allocate sb.bmapstart disk b) j :=
  fun _ hne => allocate_of_ne (h.ne_of_free hfree hne) (h.mem hne)

theorem allocate_of_meta {c : ℕ} (hb : b ∈ dataBlocks sb) (hc : c ≠ sb.bmapstart)
    (hmeta : c ∉ dataBlocks sb) : allocate sb.bmapstart disk b c = disk c := by
  have hne : c ≠ b := by
    rintro rfl
    exact hmeta hb
  rw [allocate, update_of_ne hne, update_of_ne hc]

section

variable (hr : Room sb n)

include hr

theorem Room.dinode_congr (hi : i < n)
    (hagree : ∀ c, c ≠ sb.bmapstart → c ∉ dataBlocks sb → disk' c = disk c) :
    dinode sb disk' i = dinode sb disk i := by
  unfold dinode
  rw [hagree _ (hr.room i hi).ne (hr.iblock_notMem hi)]

/-- The inode `i` has got the block `b` in `sl`. Of the blocks in use, only the one that `sl` may be
in has changed. -/
theorem Held.extend (h : Held sb n dirty s v) (hk : Active s k i)
    (hb : b < sb.size) (hfree : b ∉ usedBlocks sb s.disk) (disk' : ℕ → Data) (sl : Slot)
    (ip : Inode) (hd : ip.toDinode = d)
    (hident : ip.ident = (s.inode k).ident) (hvalid : ip.valid = true)
    (htype : d.type = (v i).type) (hnlink : d.nlink = (v i).nlink) (hsize : d.size = (v i).size)
    (haddrs : ∀ j, d.addrs j = (v i).addrs j ∨ (v i).addrs j = 0)
    (h0 : (v i).slot s.disk sl = 0) (hneed : sl ∈ needs N) (hzero : disk' b = zero)
    (hbm : disk' sb.bmapstart = allocate sb.bmapstart s.disk b sb.bmapstart)
    (hmeta : ∀ c, c ≠ sb.bmapstart → c ∉ dataBlocks sb → disk' c = s.disk c)
    (hagree : ∀ p : Place, p ≠ (i, .addr indirect) → blockAt n s.disk v p ≠ 0 →
      disk' (blockAt n s.disk v p) = s.disk (blockAt n s.disk v p))
    (hslot : ∀ sl', d.slot disk' sl' = update ((v i).slot s.disk) sl b sl') :
    Extended sb n dirty N k i s v { setInode s k ip with disk := disk' } (update v i d) := by
  have hi := h.inum_lt hk
  have ht := h.type_ne hk
  have hdata := h.apart.mem_of_free hb hfree
  have hused : ∀ c < sb.size, c ∈ usedBlocks sb disk' ↔ c ∈ usedBlocks sb s.disk ∨ c = b := by
    intro c hc
    rw [hr.used_congr hbm hc]
    exact hr.used_allocate hdata hc
  have hsame : ∀ l, l ≠ i → SameBlocks n s.disk v disk' l :=
    fun l hl sl hne => hagree _ (fun heq => hl (congrArg Prod.fst heq)) hne
  have hgrows : Grows s.disk (v i) disk' d := by
    intro bn _
    unfold Dinode.block
    rw [hslot]
    by_cases hbn : fileSlot bn = sl
    · rw [hbn, update_self]
      exact Or.inr ⟨h0, fun _ => hzero⟩
    · rw [update_of_ne hbn]
      refine Or.inl ⟨rfl, fun hne => ?_⟩
      have hdata := hagree (i, fileSlot bn) fun heq =>
        fileSlot_ne_indirect (congrArg Prod.snd heq)
      rw [blockAt_eq hi ht] at hdata
      exact hdata hne
  have hself : update v i d i = d := update_self ..
  have hk' := hk.setInode hident hvalid
  refine ⟨?_, by rw [hself, hsize], by rwa [hself]⟩
  constructor
  case held =>
    apply h.change hk ip hd hident hvalid (by rw [hd, htype]; exact ht) disk'
    · exact fun l hl _ => hr.dinode_congr hl hmeta
    · exact hsame
    · intro hdirty
      rw [hr.dinode_congr hi hmeta]
      exact (h.disk i hi hdirty).grow (fun _ => hgrows) htype hnlink hsize haddrs
    · exact fun _ _ hne => hne
    · exact h.apart.take hi ht hb hfree sl htype hused hsame hslot
  case active => exact ⟨hk'.ref, hk'.valid, hk'.inum⟩
  case entries => exact fun l hl => setInode_of_ne _ hl _
  case ident => exact (congrArg Inode.ident (setInode_same s k ip)).trans hident
  case other => exact fun l hl => ⟨update_of_ne hl _ _, hsame l hl⟩
  case dinodes => exact fun l hl _ => hr.dinode_congr hl hmeta
  case fresh =>
    intro c hc hu
    rw [hself]
    rcases (hused c hc.1).mp hu with hu | rfl
    · exact Or.inl hu
    · exact Or.inr ⟨sl, (hslot sl).trans (update_self ..)⟩
  case type => rw [hself, htype]
  case nlink => rw [hself, hnlink]
  case slot =>
    intro sl' hne
    rw [hself]
    exact (hslot sl').trans (update_of_eq_zero h0 hne b)
  case space =>
    rw [hself]
    have havail := avail_allocate hr.toLayout hdata hfree
    have hlack := lack_update hneed h0 (ne_zero_of_mem hdata) hslot
    have hsame := avail_congr hr.toLayout hbm
    show avail sb disk' + _ = _ + lack N disk' _
    omega

/-- The state after `ip->addrs[j] = balloc(ip->dev)`. -/
theorem Held.allocAddr (h : Held sb n dirty s v) (hk : Active s k i)
    (hb : b < sb.size) (hfree : b ∉ usedBlocks sb s.disk) {j : Fin 13}
    (hj : ((v i).addrs j).toNat = 0) (hneed : Slot.addr j ∈ needs N) :
    Extended sb n dirty N k i s v (setAddr { s with disk := allocate sb.bmapstart s.disk b } k j b)
      (update v i ((v i).setAddr j b)) := by
  have hi := h.inum_lt hk
  have hsame := h.apart.sameBlocks_allocate hfree
  refine h.extend hr hk hb hfree (allocate sb.bmapstart s.disk b) (.addr j)
    { s.inode k with addrs := update (s.inode k).addrs j (.ofNat 32 b) } ?_ rfl hk.valid rfl rfl rfl
    ?_ hj hneed (update_self ..) rfl
    (fun c => allocate_of_meta (h.apart.mem_of_free hb hfree)) (fun p _ => hsame p.1 p.2)
    (Dinode.slot_setAddr (hr.lt_two_pow hb) hj (update_self ..) fun hne => ?_)
  rotate_right
  · have hind := hsame i (.addr indirect)
    rw [blockAt_eq hi (h.type_ne hk)] at hind
    exact hind hne
  · rw [← h.copy_eq hk]
    rfl
  · intro l
    by_cases hlj : l = j
    · subst hlj
      exact Or.inr (BitVec.eq_of_toNat_eq hj)
    · exact Or.inl (update_of_ne hlj _ _)

theorem bmapAddr_held (h : Held sb n dirty s v) (hk : Active s k i)
    {j : Fin 13} (hneed : Slot.addr j ∈ needs N) :
    wp (bmapAddr k j) (fun b s' => ∃ v', Extended sb n dirty N k i s v s' v' ∧
      b = ((v' i).addrs j).toNat ∧ b ≠ 0) (Short sb N s.disk (v i)) s := by
  have hcopy := h.copy_eq hk
  apply wp_get
  apply wp_ite
  · intro h0
    have hj : ((v i).addrs j).toNat = 0 := hcopy ▸ h0
    refine wp_bind (wp_error (balloc_exact hr.toLayout h.sb_eq _) ?_) ?_
    · rintro e ⟨he, hall⟩
      refine ⟨he, ?_⟩
      rw [avail_eq_zero hall]
      exact lack_pos hneed hj
    · rintro b _ ⟨hb, hfree, rfl⟩
      refine wp_modify_bind (wp_pure ⟨_, h.allocAddr hr hk hb hfree hj hneed, ?_, ?_⟩)
      · rw [update_self]
        simp only [Dinode.setAddr, update_self]
        exact (toNat_ofNat_of_lt (hr.lt_two_pow hb)).symm
      · exact ne_zero_of_mem (h.apart.mem_of_free hb hfree)
  · intro h0
    refine wp_pure ⟨v, Extended.refl h hk, ?_, h0⟩
    rw [← hcopy]

/-- The state after `a[j] = balloc(ip->dev); log_write(bp);`. -/
theorem Held.allocEntry (h : Held sb n dirty s v) (hk : Active s k i)
    (hb : b < sb.size) (hfree : b ∉ usedBlocks sb s.disk) {ind : ℕ}
    (hind : ind = ((v i).addrs indirect).toNat) (h0 : ind ≠ 0) {j : Fin 256}
    (hj : wordAt (s.disk ind) j = 0) (hneed : Slot.entry j ∈ needs N) :
    Extended sb n dirty N k i s v (setBlock { s with disk := allocate sb.bmapstart s.disk b } ind
      (setLE (s.disk ind) (4 * j) 4 b)) v := by
  have hblock : blockAt n s.disk v (i, .addr indirect) = ind := by
    rw [blockAt_eq (h.inum_lt hk) (h.type_ne hk), hind]
    rfl
  have hmem : ind ∈ dataBlocks sb := by
    rw [← hblock] at h0 ⊢
    exact h.apart.mem h0
  have hindb : b ≠ ind := by
    rw [← hblock] at h0 ⊢
    exact (h.apart.ne_of_free hfree h0).symm
  have hsl : (v i).slot s.disk (.entry j) = 0 := by
    simp only [Dinode.slot, ← hind, if_neg h0, hj]
  have hext := h.extend hr hk hb hfree (update (allocate sb.bmapstart s.disk b) ind _) _ (s.inode k)
    (h.copy_eq hk) rfl hk.valid rfl rfl rfl (fun _ => Or.inl rfl) hsl hneed ?_ ?_ ?_ ?_
    (Dinode.slot_setEntry hind h0 (hr.lt_two_pow hb) (update_self ..))
  · rw [update_eq_self, show setInode s k (s.inode k) = s by simp [setInode]] at hext
    exact hext
  · rw [update_of_ne hindb]
    exact update_self ..
  · rw [update_of_ne]
    intro heq
    exact bmapstart_notMem sb (heq ▸ hmem)
  · intro c hc hcm
    rw [update_of_ne]
    · exact allocate_of_meta (h.apart.mem_of_free hb hfree) hc hcm
    · rintro rfl
      exact hcm hmem
  · -- no other block is changed
    intro p hp hne
    rw [update_of_ne]
    · exact h.apart.sameBlocks_allocate hfree p.1 p.2 hne
    · exact fun heq => hp (h.apart.inj hne (heq.trans hblock.symm))

theorem bmap_extended (h : Held sb n dirty s v) (hk : Active s k i) (hbn : bn < N)
    (hN : N ≤ maxfile) :
    wp (bmap k bn) (fun b s' => ∃ v', Extended sb n dirty N k i s v s' v' ∧
      b = (v' i).block s'.disk bn ∧ b ≠ 0) (Short sb N s.disk (v i)) s := by
  have hneed := fileSlot_mem_needs hbn
  apply wp_ite
  · intro hdirect
    rw [fileSlot_direct hdirect] at hneed
    refine wp_post (bmapAddr_held hr h hk hneed) ?_
    rintro b s' ⟨v', hext, hb, hne⟩
    refine ⟨v', hext, ?_, hne⟩
    rw [Dinode.block, fileSlot_direct hdirect]
    exact hb
  intro hdirect
  have hlt : bn - ndirect < nindirect := by
    unfold maxfile at hN
    omega
  rw [fileSlot_entry hdirect hlt] at hneed
  rw [if_pos hlt]
  refine wp_bind (bmapAddr_held hr h hk (indirect_mem_needs (by omega))) ?_
  rintro ind s₁ ⟨v₁, hext, hind, hne⟩
  apply wp_get
  apply wp_bread
  apply wp_ite
  · intro h0
    refine wp_bind (wp_error (balloc_exact hr.toLayout hext.held.sb_eq _) ?_) ?_
    · rintro e ⟨he, hall⟩
      refine hext.short ⟨he, ?_⟩
      rw [avail_eq_zero hall]
      apply lack_pos hneed
      simp only [Dinode.slot, ← hind, if_neg hne]
      exact h0
    · rintro b _ ⟨hb, hfree, rfl⟩
      have hext' := hext.held.allocEntry hr hext.active hb hfree hind hne
        (j := ⟨bn - ndirect, hlt⟩) h0 hneed
      refine wp_modify_bind (wp_pure ⟨v₁, hext.trans hext', ?_, ?_⟩)
      · exact (Dinode.block_setEntry hind hne hdirect hlt (hr.lt_two_pow hb) (update_self ..)).symm
      · exact ne_zero_of_mem (hext.held.apart.mem_of_free hb hfree)
  · intro h0
    refine wp_pure ⟨v₁, hext, ?_, h0⟩
    rw [Dinode.block_indirect hdirect hlt (hind ▸ hne), ← hind]

/-- `bmap` gives the block `bn`. It allocates one only if there was none. -/
theorem bmap_held (h : Held sb n dirty s v) (hk : Active s k i) (hbn : bn < N)
    (hN : N ≤ maxfile) :
    wp (bmap k bn) (fun b s' => (∃ v', Extended sb n dirty N k i s v s' v' ∧
      b = (v' i).block s'.disk bn ∧ b ≠ 0) ∧ ((v i).block s.disk bn ≠ 0 → s' = s))
      (Short sb N s.disk (v i)) s := by
  have hsame : wp (bmap k bn) (fun _ s' => (v i).block s.disk bn ≠ 0 → s' = s)
      (fun _ => True) s := by
    by_cases h0 : (v i).block s.disk bn = 0
    · exact wp_post wp_trivial fun _ _ _ hne => absurd h0 hne
    · rw [← h.copy_eq hk] at h0 ⊢
      exact wp_post (bmap_found (lt_of_lt_of_le hbn hN) h0) fun _ _ hfound _ => hfound.2
  exact wp_error (wp_and (bmap_extended hr h hk hbn hN) hsame) fun _ he => he.1

end

/-! ## §4  A block of the contents, and the inode -/

/-- A block of the contents is overwritten. -/
theorem Apart.write (hr : Room sb n) (h : Apart sb n disk v) (hi : i < n) (ht : (v i).type ≠ 0)
    {bn : ℕ} (hb : (v i).block disk bn = b) (h0 : b ≠ 0) (data : Data) :
    (∀ c, c = sb.bmapstart ∨ c ∉ dataBlocks sb → update disk b data c = disk c) ∧
    (∀ j, j ≠ i → SameBlocks n disk v (update disk b data) j) ∧
    (∀ sl, (v i).slot (update disk b data) sl = (v i).slot disk sl) ∧
    Apart sb n (update disk b data) v := by
  have hblock : blockAt n disk v (i, fileSlot bn) = b := (blockAt_eq hi ht _).trans hb
  have hmem : b ∈ dataBlocks sb := by
    rw [← hblock] at h0 ⊢
    exact h.mem h0
  have hother : ∀ p, p ≠ (i, fileSlot bn) → blockAt n disk v p ≠ 0 → blockAt n disk v p ≠ b := by
    intro p hp hne heq
    exact hp (h.inj hne (heq.trans hblock.symm))
  have hagree : ∀ c, c = sb.bmapstart ∨ c ∉ dataBlocks sb → update disk b data c = disk c := by
    rintro c hc
    apply update_of_ne
    rintro rfl
    rcases hc with rfl | hc
    · exact bmapstart_notMem sb hmem
    · exact hc hmem
  have hsame : ∀ j, j ≠ i → SameBlocks n disk v (update disk b data) j := by
    intro j hj sl hne
    exact update_of_ne (hother _ (fun heq => hj (congrArg Prod.fst heq)) hne) _ _
  have hslot : ∀ sl, (v i).slot (update disk b data) sl = (v i).slot disk sl := by
    apply Dinode.slot_congr
    intro hne
    have hind := hother (i, .addr indirect)
      fun heq => fileSlot_ne_indirect (congrArg Prod.snd heq).symm
    rw [blockAt_eq hi ht] at hind
    exact update_of_ne (hind hne) _ _
  have hbm := hagree _ (Or.inl rfl)
  refine ⟨hagree, hsame, hslot, ?_⟩
  rw [← update_eq_self i v]
  apply h.shrink hsame
  · intro _ _ sl _
    rw [hslot, blockAt_eq hi ht]
  · exact fun p _ hp => h.used_of hr hbm hp
  · exact fun c hc hm => (hr.used_congr hbm hc).mpr (h.reserved c hc hm)

/-- No other block of the file is the same. -/
theorem Apart.block_inj (h : Apart sb n disk v) (hi : i < n) (ht : (v i).type ≠ 0) {bn bn' : ℕ}
    (hbn : bn < maxfile) (hbn' : bn' < maxfile) (h0 : (v i).block disk bn ≠ 0)
    (heq : (v i).block disk bn = (v i).block disk bn') : bn = bn' := by
  unfold Dinode.block at h0 heq
  rw [← blockAt_eq hi ht] at h0
  rw [← blockAt_eq hi ht, ← blockAt_eq hi ht] at heq
  exact fileSlot_inj hbn hbn' (congrArg Prod.snd (h.inj h0 heq))

/-- Assignments to fields, and `iupdate`. -/
theorem putInode_held (hr : Room sb n) (h : Held sb n dirty s v) (hk : Active s k i)
    (hdirty : ∀ j, j ≠ i → dirty ≠ some j) {f : Inode → Inode}
    (hd : (f (s.inode k)).toDinode = d) (hident : (f (s.inode k)).ident = (s.inode k).ident)
    (hvalid : (f (s.inode k)).valid = true) (htype : d.type ≠ 0)
    (hapart : Apart sb n s.disk (update v i d)) :
    wp (putInode k f) (fun _ s' => Held sb n none s' (update v i d) ∧ Active s' k i ∧
      (∀ c, c = sb.bmapstart ∨ c ∈ dataBlocks sb → s'.disk c = s.disk c) ∧
      (∀ j, dinode sb s'.disk j = if j = i then d else dinode sb s.disk j) ∧
      (∀ l, l ≠ k → s'.inode l = s.inode l) ∧ (s'.inode k).ident = (s.inode k).ident) E s := by
  have hi := h.inum_lt hk
  have hk' := hk.setInode hident hvalid
  refine wp_modify_bind (wp_get (wp_bread (wp_modify ?_)))
  have hinum : ((setInode s k (f (s.inode k))).inode k).inum = i := hk'.inum
  have hsb : (setInode s k (f (s.inode k))).sb = sb := h.sb_eq
  rw [hinum, hsb, setInode_same, hd]
  generalize hdisk' : update s.disk (iblock sb i)
    (writeDinode (s.disk (iblock sb i)) (i % ipb) d) = disk'
  have hagree : ∀ c, c = sb.bmapstart ∨ c ∈ dataBlocks sb → disk' c = s.disk c := by
    intro c hc
    rw [← hdisk']
    exact update_of_ne (hr.ne_iblock hi hc) _ _
  have hdinode : ∀ j, dinode sb disk' j = if j = i then d else dinode sb s.disk j := by
    intro j
    rw [← hdisk']
    exact dinode_update sb s.disk i j d
  have hstate : setBlock (setInode s k (f (s.inode k))) (iblock sb i)
      (writeDinode (s.disk (iblock sb i)) (i % ipb) d) =
      { setInode s k (f (s.inode k)) with disk := disk' } := by
    rw [← hdisk']
    rfl
  refine ⟨?_, ⟨hk'.ref, hk'.valid, hk'.inum⟩, ?_, ?_, ?_, ?_⟩
  · refine Eq.mpr (congrArg (fun t => Held sb n none t _) hstate) ?_
    apply h.change hk _ hd hident hvalid (by rw [← hd] at htype; exact htype)
    · intro j _ hji
      rw [hdinode, if_neg hji]
    · exact fun j _ sl hne => hagree _ (Or.inr (h.apart.mem hne))
    · intro _
      rw [hdinode, if_pos rfl]
      exact Behind.refl _ _
    · exact fun j hj _ => hdirty j hj
    · exact hapart.congr hr hagree
  · intro c hc
    rw [← hagree c hc, ← hdisk']
    rfl
  · exact fun j => dinode_update sb s.disk i j d
  · exact fun l hl => setInode_of_ne _ hl _
  · exact (congrArg Inode.ident (setInode_same s k _)).trans hident

end RiscvBm.Fs

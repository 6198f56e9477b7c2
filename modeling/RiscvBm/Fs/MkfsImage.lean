import Mathlib.Algebra.Order.BigOperators.Group.Finset
import Mathlib.Data.List.GetD
import RiscvBm.Fs.Contents
import RiscvBm.Fs.Mkfs
import RiscvBm.Lib.Sums

/-!
# What `mkfs` writes

`mkfs` hands out blocks in order, so the blocks from `freeblock` on are still zero, and a new
block of a file is empty before `iappend` copies anything into it. `Packed` says what the
image contains while it is built: the inodes `v` with the bytes `c i` in the first `m i`
blocks of file `i`, no block in two places. One round of `iappend` adds a block, if the file
has none for the offset, and puts bytes into it.
-/

namespace RiscvBm.Mkfs

open Bio (bsize Data)
open Fs Bytes Wp Function Finset

/-! ## §1  Files in an image -/

/-- The blocks of a file with `m` blocks of data, with the indirect block. -/
def cost (m : ℕ) : ℕ := m + if ndirect < m then 1 else 0

theorem cost_mono {a b : ℕ} (h : a ≤ b) : cost a ≤ cost b := by
  unfold cost
  split_ifs <;> omega

theorem cost_blocksFor_le {a b : ℕ} (h : a ≤ b) : cost (blocksFor a) ≤ cost (blocksFor b) :=
  cost_mono (Nat.div_le_div_right (Nat.add_le_add_right h _))

/-- The file `d` has `m` blocks, and an indirect block if `e`; they contain `bytes` and then
zeroes. -/
structure Stored (disk : ℕ → Data) (d : Dinode) (m : ℕ) (e : Prop) (bytes : List UInt8) :
    Prop where
  fits : bytes.length ≤ m * bsize
  le : m ≤ maxfile
  block : ∀ bn < maxfile, d.block disk bn ≠ 0 ↔ bn < m
  ind : d.slot disk (.addr indirect) ≠ 0 ↔ e
  data : ∀ bn < m, ∀ o < bsize,
    byteAt (disk (d.block disk bn)) o = (bytes.getD (bn * bsize + o) 0).toNat

variable {disk disk' : ℕ → Data} {d d' : Dinode} {n i : ℕ} {bytes : List UInt8}

theorem Stored.of_blocks {e e' : Prop} (h : Stored disk d n e bytes)
    (hblock : ∀ bn, d'.block disk' bn = d.block disk bn)
    (hind : d'.slot disk' (.addr indirect) ≠ 0 ↔ e')
    (hagree : ∀ bn < n, disk' (d.block disk bn) = disk (d.block disk bn)) :
    Stored disk' d' n e' bytes := by
  refine ⟨h.fits, h.le, fun bn hbn => ?_, hind, fun bn hbn o ho => ?_⟩
  · rw [hblock]
    exact h.block bn hbn
  · rw [hblock, hagree bn hbn]
    exact h.data bn hbn o ho

theorem Stored.congr {e : Prop} (h : Stored disk d n e bytes)
    (hslot : ∀ sl, d'.slot disk' sl = d.slot disk sl)
    (hagree : ∀ bn < n, disk' (d.block disk bn) = disk (d.block disk bn)) :
    Stored disk' d' n e bytes :=
  h.of_blocks (fun _ => hslot _) (by rw [hslot]; exact h.ind) hagree

/-- The next block of the file, still zero. -/
theorem Stored.addBlock {e : Prop} {b : ℕ} (h : Stored disk d n e bytes) (hn : n < maxfile)
    (hb : b ≠ 0) (hslot : ∀ sl, d'.slot disk' sl = update (d.slot disk) (fileSlot n) b sl)
    (hagree : ∀ bn < n, disk' (d.block disk bn) = disk (d.block disk bn))
    (hzero : disk' b = zero) : Stored disk' d' (n + 1) e bytes := by
  have hnew : d'.block disk' n = b := by
    rw [Dinode.block, hslot, update_self]
  have hold : ∀ bn < maxfile, bn ≠ n → d'.block disk' bn = d.block disk bn := by
    intro bn hbn hne
    rw [Dinode.block, hslot, update_of_ne]
    · rfl
    · exact fun heq => hne (fileSlot_inj hbn hn heq)
  refine ⟨?_, hn, fun bn hbn => ?_, ?_, fun bn hbn o ho => ?_⟩
  · exact le_trans h.fits (Nat.mul_le_mul_right _ (Nat.le_succ n))
  · cases h
    grind [update_apply]
  · rw [hslot, update_of_ne fileSlot_ne_indirect.symm]
    exact h.ind
  · by_cases hbn' : bn = n
    · have hlen : bytes.length ≤ n * bsize + o := le_trans h.fits (Nat.le_add_right _ _)
      rw [hbn', hnew, hzero, List.getD_eq_default _ _ hlen]
      exact byteAt_zero o
    · have hlt : bn < n := by omega
      rw [hold bn (lt_trans hlt hn) hbn', hagree bn hlt]
      exact h.data bn hlt o ho

/-- The indirect block, before there are entries in it. -/
theorem Stored.addIndirect {e : Prop} {b : ℕ} (h : Stored disk d n e bytes) (hb : b ≠ 0)
    (hslot : ∀ sl, d'.slot disk sl = update (d.slot disk) (.addr indirect) b sl) :
    Stored disk d' n True bytes := by
  apply h.of_blocks _ _ fun _ _ => rfl
  · intro bn
    rw [Dinode.block, hslot, update_of_ne fileSlot_ne_indirect]
    rfl
  · rw [hslot, update_self]
    exact iff_of_true hb trivial

theorem getD_take (l : List UInt8) {n q : ℕ} (x : UInt8) (h : q < n) :
    (l.take n).getD q x = l.getD q x := by
  rw [List.getD_eq_getElem?_getD, List.getD_eq_getElem?_getD, List.getElem?_take_of_lt h]

/-- Bytes are put after the last ones, into the block `bn`. -/
theorem Stored.append {e : Prop} {bn : ℕ} {p : List UInt8} {n1 : ℕ} (h : Stored disk d n e bytes)
    (hbn : bn < n) (hlo : bn * bsize ≤ bytes.length) (hhi : bytes.length + n1 ≤ (bn + 1) * bsize)
    (hp : n1 ≤ p.length) (hslot : ∀ sl, d.slot disk' sl = d.slot disk sl)
    (hother : ∀ l < n, l ≠ bn → disk' (d.block disk l) = disk (d.block disk l))
    (hdata : disk' (d.block disk bn) =
      copyIn (disk (d.block disk bn)) (bytes.length - bn * bsize) (kernelSrc p) 0 n1) :
    Stored disk' d n e (bytes ++ p.take n1) := by
  have hblock : ∀ l, d.block disk' l = d.block disk l := fun l => hslot _
  have hlen : (p.take n1).length = n1 := List.length_take_of_le hp
  have hbsize : bsize = 1024 := rfl
  refine ⟨?_, h.le, fun l hl => ?_, ?_, fun l hl o ho => ?_⟩
  · rw [List.length_append, hlen]
    exact le_trans hhi (Nat.mul_le_mul_right _ hbn)
  · rw [hblock]
    exact h.block l hl
  · rw [hslot]
    exact h.ind
  · rw [hblock]
    by_cases hlb : l = bn
    · subst hlb
      rw [hdata, byteAt_copyIn _ _ ho, h.data l hl o ho]
      split_ifs with hin
      · have hge : bytes.length ≤ l * bsize + o := by omega
        have hsub : l * bsize + o - bytes.length = o - (bytes.length - l * bsize) := by omega
        rw [List.getD_append_right _ _ _ _ hge, hsub, getD_take _ _ (by omega)]
      · by_cases hlt : l * bsize + o < bytes.length
        · rw [List.getD_append _ _ _ _ hlt]
        · have hge : bytes.length + n1 ≤ l * bsize + o := by omega
          rw [List.getD_eq_default _ _ (by omega), List.getD_eq_default]
          rw [List.length_append, hlen]
          exact hge
    · rw [hother l hl hlb, h.data l hl o ho]
      rcases Nat.lt_or_ge l bn with hlt | hge
      · have hle : (l + 1) * bsize ≤ bn * bsize := Nat.mul_le_mul_right _ hlt
        rw [hbsize] at hle hlo ho ⊢
        rw [List.getD_append _ _ _ _ (by omega)]
      · have hle : (bn + 1) * bsize ≤ l * bsize := Nat.mul_le_mul_right _ (by omega)
        rw [List.getD_eq_default _ _ (by omega), List.getD_eq_default]
        rw [List.length_append, hlen]
        omega

/-! ## §2  Images -/

/-- The block at a place. -/
def slotAt (disk : ℕ → Data) (v : ℕ → Dinode) (p : Place) : ℕ := (v p.1).slot disk p.2

structure Packed (s : Img) (v : ℕ → Dinode) (m : ℕ → ℕ) (e : ℕ → Prop) (c : ℕ → List UInt8) :
    Prop where
  inj : ∀ p q, slotAt s.disk v p ≠ 0 → slotAt s.disk v p = slotAt s.disk v q → p = q
  range : ∀ p, slotAt s.disk v p ≠ 0 → nmeta ≤ slotAt s.disk v p ∧ slotAt s.disk v p < s.freeblock
  fresh : ∀ b, s.freeblock ≤ b → s.disk b = zero
  low : nmeta ≤ s.freeblock
  files : ∀ i, Stored s.disk (v i) (m i) (e i) (c i)

variable {s : Img} {v : ℕ → Dinode} {m : ℕ → ℕ} {e : ℕ → Prop} {c : ℕ → List UInt8}

theorem Packed.freeblock_ne (h : Packed s v m e c) : s.freeblock ≠ 0 := by
  have hlow := h.low
  have hpos : 0 < nmeta := by decide
  omega

theorem Packed.block_ne (h : Packed s v m e c) {bn : ℕ} (hbn : bn < m i) :
    slotAt s.disk v (i, fileSlot bn) ≠ 0 :=
  ((h.files i).block bn (lt_of_lt_of_le hbn (h.files i).le)).mpr hbn

/-- The next free block is put into the place `(i, sl)`. -/
theorem Packed.take (h : Packed s v m e c) {sl : Slot} {m' : ℕ} {e' : Prop}
    (hslot : ∀ sl', d'.slot disk' sl' = update ((v i).slot s.disk) sl s.freeblock sl')
    (hagree : ∀ p, slotAt s.disk v p ≠ 0 → p ≠ (i, .addr indirect) →
      disk' (slotAt s.disk v p) = s.disk (slotAt s.disk v p))
    (hzero : ∀ b, s.freeblock ≤ b → disk' b = zero)
    (hfile : Stored disk' d' m' e' (c i)) :
    Packed { s with disk := disk', freeblock := s.freeblock + 1 } (update v i d') (update m i m')
      (update e i e') c := by
  have hother : ∀ j, j ≠ i → ∀ sl', (v j).slot disk' sl' = (v j).slot s.disk sl' := by
    intro j hj
    apply Dinode.slot_congr
    intro hne
    exact hagree (j, .addr indirect) hne fun heq => hj (congrArg Prod.fst heq)
  have hslots : ∀ p, slotAt disk' (update v i d') p =
      update (slotAt s.disk v) (i, sl) s.freeblock p := by
    rintro ⟨j, sl'⟩
    by_cases hj : j = i
    · subst hj
      rw [slotAt, update_self, hslot]
      by_cases hsl : sl' = sl
      · rw [hsl, update_self, update_self]
      · rw [update_of_ne hsl, update_of_ne (by simpa using hsl)]
        rfl
    · rw [slotAt, update_of_ne hj, hother j hj, update_of_ne (by simp [hj])]
      rfl
  have hlt : ∀ p, slotAt s.disk v p ≠ s.freeblock := by
    intro p heq
    have hp : slotAt s.disk v p ≠ 0 := by
      rw [heq]
      exact h.freeblock_ne
    exact absurd (h.range p hp).2 (by omega)
  refine ⟨fun p q hp hpq => ?_, fun p hp => ?_, fun b hb => ?_, ?_, fun j => ?_⟩
  · cases h
    grind [update_apply]
  · cases h
    grind [update_apply]
  · exact hzero b (by have : s.freeblock + 1 ≤ b := hb; omega)
  · have := h.low
    show nmeta ≤ s.freeblock + 1
    omega
  · by_cases hj : j = i
    · subst hj
      rw [update_self, update_self, update_self]
      exact hfile
    · rw [update_of_ne hj, update_of_ne hj, update_of_ne hj]
      apply (h.files j).congr (hother j hj)
      intro bn hbn
      exact hagree (j, fileSlot bn) (h.block_ne hbn) fun heq => hj (congrArg Prod.fst heq)

/-- No place changes. -/
theorem Packed.of_slots (h : Packed s v m e c) {t : Img} {w : ℕ → Dinode} {c' : ℕ → List UInt8}
    (hslots : ∀ q, slotAt t.disk w q = slotAt s.disk v q) (hfree : t.freeblock = s.freeblock)
    (hfresh : ∀ b, s.freeblock ≤ b → t.disk b = s.disk b)
    (hfiles : ∀ j, Stored t.disk (w j) (m j) (e j) (c' j)) : Packed t w m e c' := by
  refine ⟨fun q r hq hqr => ?_, fun q hq => ?_, fun b hb => ?_, ?_, hfiles⟩
  · rw [hslots] at hq
    rw [hslots, hslots] at hqr
    exact h.inj q r hq hqr
  · rw [hslots] at hq ⊢
    rw [hfree]
    exact h.range q hq
  · rw [hfree] at hb
    rw [hfresh b hb]
    exact h.fresh b hb
  · rw [hfree]
    exact h.low

/-- Bytes are put into a block of the file `i`. -/
theorem Packed.append (h : Packed s v m e c) {bn : ℕ} {p : List UInt8} {n1 : ℕ} (hbn : bn < m i)
    (hlo : bn * bsize ≤ (c i).length) (hhi : (c i).length + n1 ≤ (bn + 1) * bsize)
    (hp : n1 ≤ p.length) :
    Packed
      { s with
        disk := update s.disk ((v i).block s.disk bn)
          (copyIn (s.disk ((v i).block s.disk bn)) ((c i).length - bn * bsize) (kernelSrc p) 0 n1) }
      v m e (update c i (c i ++ p.take n1)) := by
  have hx : slotAt s.disk v (i, fileSlot bn) ≠ 0 := h.block_ne hbn
  have hother : ∀ q, slotAt s.disk v q ≠ 0 → q ≠ (i, fileSlot bn) →
      slotAt s.disk v q ≠ (v i).block s.disk bn := by
    intro q hq hne heq
    exact hne (h.inj q _ hq heq)
  generalize hdata : copyIn (s.disk ((v i).block s.disk bn)) ((c i).length - bn * bsize)
    (kernelSrc p) 0 n1 = data
  have hslot : ∀ j sl, (v j).slot (update s.disk ((v i).block s.disk bn) data) sl =
      (v j).slot s.disk sl := by
    intro j
    apply Dinode.slot_congr
    intro hne
    apply update_of_ne
    apply hother (j, .addr indirect) hne
    exact fun heq => fileSlot_ne_indirect (congrArg Prod.snd heq).symm
  refine h.of_slots (fun q => hslot q.1 q.2) rfl (fun b hb => update_of_ne ?_ _ _) fun j => ?_
  · rintro rfl
    exact absurd (h.range _ hx).2 (Nat.not_lt.mpr hb)
  · have hblocks : ∀ l < m j, (j, fileSlot l) ≠ (i, fileSlot bn) →
        update s.disk ((v i).block s.disk bn) data ((v j).block s.disk l) =
          s.disk ((v j).block s.disk l) := by
      intro l hl hne
      exact update_of_ne (hother (j, fileSlot l) (h.block_ne hl) hne) _ _
    by_cases hj : j = i
    · subst hj
      rw [update_self]
      refine (h.files j).append hbn hlo hhi hp (hslot j) (fun l hl hne => hblocks l hl ?_) ?_
      · intro heq
        exact hne (fileSlot_inj (lt_of_lt_of_le hl (h.files j).le)
          (lt_of_lt_of_le hbn (h.files j).le) (congrArg Prod.snd heq))
      · rw [hdata]
        exact update_self ..
    · rw [update_of_ne hj]
      apply (h.files j).congr (hslot j)
      intro l hl
      exact hblocks l hl fun heq => hj (congrArg Prod.fst heq)

/-- Only blocks before the data are changed. -/
theorem Packed.setMeta (h : Packed s v m e c) {t : Img}
    (hdisk : ∀ b, nmeta ≤ b → t.disk b = s.disk b)
    (hfree : t.freeblock = s.freeblock) {w : ℕ → Dinode}
    (hw : ∀ i, (w i).addrs = (v i).addrs) : Packed t w m e c := by
  have hslot : ∀ j sl, (w j).slot t.disk sl = (v j).slot s.disk sl := by
    intro j sl
    have haddrs : ∀ disk, (w j).slot disk sl = (v j).slot disk sl := by
      intro disk
      cases sl <;> simp only [Dinode.slot, hw j]
    rw [haddrs]
    apply Dinode.slot_congr
    intro hne
    exact hdisk _ (h.range (j, .addr indirect) hne).1
  refine h.of_slots (fun q => hslot q.1 q.2) hfree (fun b hb => hdisk b (le_trans h.low hb))
    fun j => ?_
  apply (h.files j).congr (hslot j)
  intro bn hbn
  exact hdisk _ (h.range (j, fileSlot bn) (h.block_ne hbn)).1

/-! ## §3  `iappend` -/

theorem wp_rsect {α : Type} {sec : ℕ} {k : Data → Prog α} {Q : α → Img → Prop} {E : Abort → Prop}
    (hsec : sec < fssize) (h : wp (k (s.disk sec)) Q E s) : wp (rsect sec >>= k) Q E s := by
  refine wp_bind_eq (wp_get (wp_require_bind (fun _ => wp_pure ⟨rfl, rfl⟩) fun hf => ?_)) h
  exact absurd hsec (of_decide_eq_false hf)

/-- The fields of an inode that `iappend` leaves alone until the end. -/
def SameHead (d d' : Dinode) : Prop := d' = { d with addrs := d'.addrs }

theorem SameHead.trans {d d' d'' : Dinode} (h₁ : SameHead d d') (h₂ : SameHead d' d'') :
    SameHead d d'' := by
  unfold SameHead at *
  rw [h₂, h₁]

/-- What a step of `iappend` to the file `i` leaves behind. -/
structure Grew (s : Img) (v : ℕ → Dinode) (i : ℕ) (d' : Dinode) (s' : Img) : Prop where
  head : SameHead (v i) d'
  freeinode : s'.freeinode = s.freeinode
  disk : ∀ b < nmeta, s'.disk b = s.disk b

variable {E : Abort → Prop}

theorem Packed.slot_setAddr (h : Packed s v m e c) (hlt : s.freeblock < fssize) {j : Fin 13}
    (hj : ((v i).addrs j).toNat = 0) (sl : Slot) :
    ((v i).setAddr j s.freeblock).slot s.disk sl =
      update ((v i).slot s.disk) (.addr j) s.freeblock sl := by
  have hsmall : s.freeblock < 2 ^ 32 := lt_trans hlt (by decide)
  exact Dinode.slot_setAddr hsmall hj (h.fresh _ le_rfl) (fun _ => rfl) sl

theorem wp_newBlock {α : Type} {k : ℕ → Prog α} {Q : α → Img → Prop}
    (h : wp (k s.freeblock) Q E { s with freeblock := s.freeblock + 1 }) :
    wp (newBlock >>= k) Q E s :=
  wp_bind_eq (wp_get (wp_modify_bind (wp_pure ⟨rfl, rfl⟩))) h

/-- A direct block. -/
theorem addrBlock_direct (h : Packed s v m e c) {fbn : ℕ} (hfbn : fbn < ndirect) (hm : fbn ≤ m i)
    (hfree : s.freeblock + (max (m i) (fbn + 1) - m i) ≤ fssize) :
    wp (addrBlock (v i) (Fin.ofNat 13 fbn)) (fun r s' =>
      Packed s' (update v i r.1) (update m i (max (m i) (fbn + 1))) e c ∧ Grew s v i r.1 s' ∧
      r.2 = r.1.block s'.disk fbn ∧
      s'.freeblock = s.freeblock + (max (m i) (fbn + 1) - m i)) E s := by
  have hmax : fbn < maxfile := lt_of_lt_of_le hfbn (by decide)
  have hblock : ∀ d : Dinode, ∀ disk, d.block disk fbn = (d.addrs (Fin.ofNat 13 fbn)).toNat := by
    intro d disk
    rw [Dinode.block, fileSlot_direct hfbn]
    rfl
  have hiff := (h.files i).block fbn hmax
  rw [hblock] at hiff
  apply wp_ite
  · intro h0
    have hmi : m i = fbn := by
      have := mt hiff.mpr (not_not.mpr h0)
      omega
    have hlt : s.freeblock < fssize := by omega
    have hslot := h.slot_setAddr hlt h0
    apply wp_newBlock
    apply wp_pure
    have hstored : Stored s.disk ((v i).setAddr (Fin.ofNat 13 fbn) s.freeblock) (fbn + 1) (e i)
        (c i) := by
      have hfile := h.files i
      rw [hmi] at hfile
      refine hfile.addBlock hmax h.freeblock_ne ?_ (fun _ _ => rfl) (h.fresh _ le_rfl)
      rw [fileSlot_direct hfbn]
      exact hslot
    have hpacked := h.take hslot (fun _ _ _ => rfl) h.fresh hstored
    rw [update_eq_self] at hpacked
    have hmaxeq : max (m i) (fbn + 1) = fbn + 1 := by omega
    refine ⟨?_, ⟨rfl, rfl, fun _ _ => rfl⟩, (hblock _ _).symm, ?_⟩
    · rw [hmaxeq]
      exact hpacked
    · show s.freeblock + 1 = _
      omega
  · intro h0
    have hlt : fbn < m i := hiff.mp h0
    have hmaxeq : max (m i) (fbn + 1) = m i := by omega
    apply wp_pure
    rw [hmaxeq, update_eq_self, update_eq_self]
    refine ⟨h, ⟨rfl, rfl, fun _ _ => rfl⟩, (hblock _ _).symm, ?_⟩
    omega

/-- The indirect block, if it is needed for the first time. -/
theorem addrBlock_indirect (h : Packed s v m (fun j => ndirect < m j) c) (hm : ndirect ≤ m i)
    (hfree : m i = ndirect → s.freeblock < fssize) :
    wp (addrBlock (v i) indirect) (fun r s' =>
      Packed s' (update v i r.1) m (update (fun j => ndirect < m j) i True) c ∧ Grew s v i r.1 s' ∧
      r.2 = (r.1.addrs indirect).toNat ∧
      s'.freeblock = s.freeblock + if m i = ndirect then 1 else 0) E s := by
  have hiff := (h.files i).ind
  apply wp_ite
  · intro h0
    have hmi : m i = ndirect := by
      have := mt hiff.mpr (not_not.mpr h0)
      omega
    have hslot := h.slot_setAddr (hfree hmi) h0
    apply wp_newBlock
    apply wp_pure
    have hstored := (h.files i).addIndirect h.freeblock_ne hslot
    have hpacked := h.take hslot (fun _ _ _ => rfl) h.fresh hstored
    rw [update_eq_self] at hpacked
    refine ⟨hpacked, ⟨rfl, rfl, fun _ _ => rfl⟩, rfl, ?_⟩
    rw [if_pos hmi]
  · intro h0
    have hlt : ndirect < m i := hiff.mp h0
    apply wp_pure
    rw [← eq_true hlt, update_eq_self, update_eq_self]
    refine ⟨h, ⟨rfl, rfl, fun _ _ => rfl⟩, rfl, ?_⟩
    rw [if_neg (by omega)]
    rfl

/-- Where the indirect block is. -/
theorem Packed.indirect_range (h : Packed s v m e c) (he : e i) {ind : ℕ}
    (hind : ind = ((v i).addrs indirect).toNat) :
    ind ≠ 0 ∧ nmeta ≤ ind ∧ ind < s.freeblock ∧
      ∀ p, slotAt s.disk v p ≠ 0 → p ≠ (i, .addr indirect) → slotAt s.disk v p ≠ ind := by
  subst hind
  have hne := (h.files i).ind.mpr he
  have hrange := h.range (i, .addr indirect) hne
  exact ⟨hne, hrange.1, hrange.2, fun p hp hpi heq => hpi (h.inj p (i, .addr indirect) hp heq)⟩

/-- A word of the indirect block. -/
theorem Packed.addEntry (h : Packed s v m e c) {fbn : ℕ} (hm : m i = fbn) (hfbn : ¬ fbn < ndirect)
    (hlt : fbn - ndirect < nindirect) (he : e i) (hfree : s.freeblock < fssize) {ind : ℕ}
    (hind : ind = ((v i).addrs indirect).toNat) :
    Packed
      { s with
        disk := update s.disk ind (setLE (s.disk ind) (4 * (fbn - ndirect)) 4 s.freeblock)
        freeblock := s.freeblock + 1 }
      v (update m i (fbn + 1)) e c := by
  have hmax : fbn < maxfile := by
    unfold maxfile
    omega
  have hsmall : s.freeblock < 2 ^ 32 := lt_trans hfree (by decide)
  obtain ⟨hind0, -, hindlt, hapart⟩ := h.indirect_range he hind
  have hslot : ∀ sl, (v i).slot (update s.disk ind (setLE (s.disk ind) (4 * (fbn - ndirect)) 4
      s.freeblock)) sl = update ((v i).slot s.disk) (fileSlot fbn) s.freeblock sl := by
    rw [fileSlot_entry hfbn hlt]
    exact Dinode.slot_setEntry (j := ⟨fbn - ndirect, hlt⟩) hind hind0 hsmall (update_self ..)
  have hagree : ∀ p, slotAt s.disk v p ≠ 0 → p ≠ (i, .addr indirect) →
      update s.disk ind (setLE (s.disk ind) (4 * (fbn - ndirect)) 4 s.freeblock)
        (slotAt s.disk v p) = s.disk (slotAt s.disk v p) :=
    fun p hp hne => update_of_ne (hapart p hp hne) _ _
  have hzero : ∀ b, s.freeblock ≤ b →
      update s.disk ind (setLE (s.disk ind) (4 * (fbn - ndirect)) 4 s.freeblock) b = zero := by
    intro b hb
    rw [update_of_ne (by omega)]
    exact h.fresh b hb
  have hfile := h.files i
  rw [hm] at hfile
  have hstored := hfile.addBlock hmax h.freeblock_ne hslot
    (fun bn hbn => hagree (i, fileSlot bn) (h.block_ne (by omega))
      fun heq => fileSlot_ne_indirect (congrArg Prod.snd heq)) (hzero _ le_rfl)
  have hpacked := h.take hslot hagree hzero hstored
  rwa [update_eq_self, update_eq_self] at hpacked

theorem Grew.trans {s₁ s₂ : Img} {d₁ d₂ : Dinode} (h₁ : Grew s v i d₁ s₁)
    (h₂ : Grew s₁ (update v i d₁) i d₂ s₂) : Grew s v i d₂ s₂ := by
  have hhead := h₂.head
  rw [update_self] at hhead
  refine ⟨h₁.head.trans hhead, h₂.freeinode.trans h₁.freeinode, fun b hb => ?_⟩
  rw [h₂.disk b hb, h₁.disk b hb]

/-- An image in which only files with more than `NDIRECT` blocks have an indirect block. -/
def Exact (s : Img) (v : ℕ → Dinode) (m : ℕ → ℕ) (c : ℕ → List UInt8) : Prop :=
  Packed s v m (fun j => ndirect < m j) c

theorem indirect_update (m : ℕ → ℕ) (i n : ℕ) :
    (fun j => ndirect < update m i n j) = update (fun j => ndirect < m j) i (ndirect < n) :=
  funext fun j => apply_update (fun _ k => ndirect < k) m i n j

theorem wp_blockFor (h : Exact s v m c) {fbn : ℕ} (hmax : fbn < maxfile) (hm : fbn ≤ m i)
    (hfree : s.freeblock + (cost (max (m i) (fbn + 1)) - cost (m i)) ≤ fssize) :
    wp (blockFor (v i) fbn) (fun r s' =>
      Exact s' (update v i r.1) (update m i (max (m i) (fbn + 1))) c ∧ Grew s v i r.1 s' ∧
      r.2 = r.1.block s'.disk fbn ∧
      s'.freeblock = s.freeblock + (cost (max (m i) (fbn + 1)) - cost (m i))) E s := by
  apply wp_ite
  · intro hfbn
    have hcost : cost (max (m i) (fbn + 1)) - cost (m i) = max (m i) (fbn + 1) - m i := by
      unfold cost
      split_ifs <;> omega
    rw [hcost] at hfree ⊢
    refine wp_post (addrBlock_direct h hfbn hm hfree) ?_
    rintro r s' ⟨hpacked, hgrew, hr, hblock⟩
    refine ⟨?_, hgrew, hr, hblock⟩
    have hsame : (ndirect < max (m i) (fbn + 1)) = (ndirect < m i) := propext (by omega)
    rw [Exact, indirect_update, hsame, update_eq_self]
    exact hpacked
  · intro hfbn
    have hlt : fbn - ndirect < nindirect := by
      unfold maxfile at hmax
      omega
    refine wp_bind (addrBlock_indirect h (by omega) fun hmi => ?_) ?_
    · unfold cost at hfree
      split_ifs at hfree <;> omega
    rintro ⟨d₁, ind⟩ s₁ ⟨h₁, hgrew, hind, hblock₁⟩
    dsimp only at h₁ hgrew hind ⊢
    have htrue : update (fun j => ndirect < m j) i True i := by
      rw [update_self]
      trivial
    have hind' : ind = ((update v i d₁ i).addrs indirect).toNat := by
      rw [update_self, hind]
    obtain ⟨hind0, hlow, hindlt, -⟩ := h₁.indirect_range htrue hind'
    have hword : wordAt (s₁.disk ind) (fbn - ndirect) = d₁.block s₁.disk fbn := by
      rw [Dinode.block_indirect hfbn hlt (hind ▸ hind0), hind]
    have hiff := (h₁.files i).block fbn hmax
    rw [update_self] at hiff
    have hsum : s₁.freeblock ≤ fssize := by
      unfold cost at hfree
      split_ifs at hfree hblock₁ <;> omega
    apply wp_rsect (by omega)
    apply wp_ite
    · intro h0
      have hmi : m i = fbn := by
        rw [hword] at h0
        have := mt hiff.mpr (not_not.mpr h0)
        omega
      have hmaxeq : max (m i) (fbn + 1) = fbn + 1 := by omega
      have hfree₁ : s₁.freeblock < fssize := by
        unfold cost at hfree
        split_ifs at hfree hblock₁ <;> omega
      have hentry := h₁.addEntry hmi hfbn hlt htrue hfree₁ hind'
      apply wp_newBlock
      apply wp_modify_bind
      apply wp_pure
      rw [hmaxeq]
      refine ⟨?_, ⟨hgrew.head, hgrew.freeinode, fun b hb => ?_⟩, ?_, ?_⟩
      · rw [Exact, indirect_update, eq_true (show ndirect < fbn + 1 by omega)]
        exact hentry
      · show update s₁.disk ind _ b = _
        rw [update_of_ne (by omega)]
        exact hgrew.disk b hb
      · rw [Dinode.block_indirect hfbn hlt (hind ▸ hind0), ← hind]
        show _ = wordAt (update s₁.disk ind _ ind) _
        rw [update_self]
      · show s₁.freeblock + 1 = _
        rw [hblock₁]
        unfold cost
        split_ifs <;> omega
    · intro h0
      rw [hword] at h0
      have hlt' : fbn < m i := hiff.mp h0
      have hmaxeq : max (m i) (fbn + 1) = m i := by omega
      rw [← eq_true (show ndirect < m i by omega), update_eq_self] at h₁
      apply wp_pure
      rw [hmaxeq, update_eq_self]
      refine ⟨h₁, hgrew, hword, ?_⟩
      rw [if_neg (by omega)] at hblock₁
      rw [hblock₁]
      omega

theorem blocksFor_round {off n1 : ℕ} (hpos : 0 < n1) (hle : off + n1 ≤ (off / bsize + 1) * bsize) :
    max (blocksFor off) (off / bsize + 1) = blocksFor (off + n1) := by
  unfold blocksFor bsize at *
  omega

/-- `p` was appended to the file `i`, which had `off` bytes. -/
structure Appended (s : Img) (v : ℕ → Dinode) (m : ℕ → ℕ) (c : ℕ → List UInt8) (i off : ℕ)
    (p : List UInt8) (r : Dinode × ℕ) (s' : Img) : Prop where
  exact : Exact s' (update v i r.1) (update m i (blocksFor (off + p.length)))
    (update c i (c i ++ p))
  grew : Grew s v i r.1 s'
  off_eq : r.2 = off + p.length
  free : s'.freeblock = s.freeblock + (cost (blocksFor (off + p.length)) - cost (blocksFor off))

theorem Exact.appended_nil {off : ℕ} (h : Exact s v m c) (hm : m i = blocksFor off) :
    Appended s v m c i off [] (v i, off) s := by
  constructor
  · rw [List.length_nil, Nat.add_zero, ← hm, List.append_nil, update_eq_self, update_eq_self,
      update_eq_self]
    exact h
  · exact ⟨rfl, rfl, fun _ _ => rfl⟩
  · rfl
  · rw [List.length_nil, Nat.add_zero, Nat.sub_self, Nat.add_zero]

/-- One round of the loop and the rounds after it. -/
theorem Appended.cons {off n1 x : ℕ} {p : List UInt8} {d₁ : Dinode} {s₁ s' : Img} {data : Data}
    {r : Dinode × ℕ} (hn1 : n1 ≤ p.length) (hx : nmeta ≤ x) (hgrew : Grew s v i d₁ s₁)
    (hfree : s₁.freeblock = s.freeblock + (cost (blocksFor (off + n1)) - cost (blocksFor off)))
    (h : Appended { s₁ with disk := update s₁.disk x data } (update v i d₁)
      (update m i (blocksFor (off + n1))) (update c i (c i ++ p.take n1)) i (off + n1)
      (p.drop n1) r s') :
    Appended s v m c i off p r s' := by
  have hsum : off + n1 + (p.drop n1).length = off + p.length := by
    rw [List.length_drop]
    omega
  have hcost₁ := cost_blocksFor_le (Nat.le_add_right off n1)
  have hcost₂ := cost_blocksFor_le (Nat.add_le_add_left hn1 off)
  constructor
  · have hexact := h.exact
    rwa [hsum, update_idem, update_idem, update_idem, update_self, List.append_assoc,
      List.take_append_drop] at hexact
  · refine hgrew.trans ⟨h.grew.head, h.grew.freeinode, fun b hb => ?_⟩
    rw [h.grew.disk b hb]
    exact update_of_ne (by omega) _ _
  · rw [h.off_eq, hsum]
  · have hrest := h.free
    rw [hsum] at hrest
    rw [hrest]
    show s₁.freeblock + _ = _
    omega

theorem wp_iappendLoop {fuel off : ℕ} {p : List UInt8} (h : Exact s v m c)
    (hoff : off = (c i).length)
    (hm : m i = blocksFor off) (hfuel : p.length ≤ fuel) (hsize : off + p.length ≤ maxfile * bsize)
    (hfree : s.freeblock + (cost (blocksFor (off + p.length)) - cost (blocksFor off)) ≤ fssize) :
    wp (iappendLoop fuel (v i) off p) (Appended s v m c i off p) E s := by
  induction fuel generalizing s v m c off p with
  | zero =>
    cases List.length_eq_zero_iff.mp (Nat.le_zero.mp hfuel)
    exact wp_pure (h.appended_nil hm)
  | succ fuel ih =>
    apply wp_ite
    · rintro rfl
      exact wp_pure (h.appended_nil hm)
    intro hp
    have hpos : 0 < p.length := List.length_pos_iff.mpr hp
    generalize hn1 : min p.length ((off / bsize + 1) * bsize - off) = n1
    have hdiv : off / bsize * bsize ≤ off ∧ off < (off / bsize + 1) * bsize := by
      unfold bsize
      omega
    have hn1pos : 0 < n1 := by omega
    have hn1le : n1 ≤ p.length := by omega
    have hround := blocksFor_round hn1pos (by omega : off + n1 ≤ (off / bsize + 1) * bsize)
    have hcost₁ := cost_blocksFor_le (Nat.le_add_right off n1)
    have hcost₂ := cost_blocksFor_le (Nat.add_le_add_left hn1le off)
    have hmax : off / bsize < maxfile := by
      unfold maxfile ndirect nindirect bsize at *
      omega
    refine wp_require_bind (fun _ => ?_) fun hf => absurd hmax (of_decide_eq_false hf)
    have hfbn : off / bsize ≤ m i := by
      rw [hm]
      unfold blocksFor bsize
      omega
    refine wp_bind (wp_blockFor h hmax hfbn ?_) ?_
    · rw [hm, hround]
      omega
    rintro ⟨d₁, x⟩ s₁ ⟨h₁, hgrew₁, hx, hfree₁⟩
    rw [hm, hround] at h₁ hfree₁
    dsimp only at h₁ hgrew₁ hx ⊢
    have hblk : off / bsize < update m i (blocksFor (off + n1)) i := by
      rw [update_self, ← hround]
      omega
    have hrange := h₁.range (i, fileSlot (off / bsize)) (h₁.block_ne hblk)
    have hplace : slotAt s₁.disk (update v i d₁) (i, fileSlot (off / bsize)) = x := by
      rw [slotAt, update_self, hx]
      rfl
    rw [hplace] at hrange
    apply wp_rsect (by omega)
    apply wp_modify_bind
    rw [hn1]
    have happ := @Packed.append i s₁ (update v i d₁) _ _ c h₁ (off / bsize) p n1 hblk
      (by omega) (by omega) hn1le
    rw [update_self, ← hx, ← hoff] at happ
    have hlen : off + n1 = (update c i (c i ++ p.take n1) i).length := by
      rw [update_self, List.length_append, List.length_take_of_le hn1le, hoff]
    have hrest : (p.drop n1).length = p.length - n1 := List.length_drop
    have hsum : off + n1 + (p.drop n1).length = off + p.length := by omega
    have hloop := ih (p := p.drop n1) happ hlen (update_self ..) (by omega) (by omega) (by
      rw [hsum]
      show s₁.freeblock + _ ≤ _
      omega)
    rw [update_self] at hloop
    exact wp_post hloop fun r s' hr => Appended.cons hn1le hrange.1 hgrew₁ hfree₁ hr

/-! ## §4  Inodes -/

/-- The inodes that the inode blocks have room for. -/
def islots : ℕ := ninodeblocks * ipb

theorem iblock_lt (hi : i < islots) : iblock sb i < sb.bmapstart := by
  have hi : i < 208 := hi
  show i / 16 + 32 < 45
  omega

/-- Type and link count. -/
def kind (d : Dinode) : BitVec 16 × BitVec 16 := (d.type, d.nlink)

/-- The image between the calls of `main`: the file `i` has the bytes `c i`. No file gets
more than `cap i` bytes. -/
structure Ready (cap : ℕ → ℕ) (s : Img) (v : ℕ → Dinode) (c : ℕ → List UInt8) : Prop where
  exact : Exact s v (fun i => blocksFor (c i).length) c
  saved : ∀ i < islots, dinode sb s.disk i = v i
  size : ∀ i, (v i).size.toNat = (c i).length
  blocks : s.freeblock = nmeta + ∑ i ∈ range islots, cost (blocksFor (c i).length)
  cap : ∀ i, (c i).length ≤ cap i
  unused : ∀ i, i = 0 ∨ s.freeinode ≤ i → v i = .fresh 0 ∧ c i = []
  super : s.disk 1 = sbBlock

/-- Files of these sizes fit. -/
structure CapOk (cap : ℕ → ℕ) : Prop where
  size : ∀ i, cap i ≤ maxfile * bsize
  blocks : nmeta + ∑ i ∈ range islots, cost (blocksFor (cap i)) ≤ fssize

variable {cap : ℕ → ℕ}

/-- The image after `winode`. -/
def saveInode (s : Img) (i : ℕ) (ip : Dinode) : Img :=
  { s with disk := update s.disk (iblock sb i) (writeDinode (s.disk (iblock sb i)) (i % ipb) ip) }

theorem iblock_lt_fssize (hi : i < islots) : iblock sb i < fssize :=
  lt_trans (iblock_lt hi) (by decide)

theorem iblock_lt_nmeta (hi : i < islots) : iblock sb i < nmeta :=
  lt_of_lt_of_le (iblock_lt hi) (by decide)

theorem wp_winode {ip : Dinode} {Q : Unit → Img → Prop} (hi : i < islots)
    (h : Q () (saveInode s i ip)) : wp (winode i ip) Q E s :=
  wp_rsect (iblock_lt_fssize hi) (wp_modify h)

theorem wp_rinode {Q : Dinode → Img → Prop} (hi : i < islots) (h : Q (dinode sb s.disk i) s) :
    wp (rinode i) Q E s :=
  wp_rsect (iblock_lt_fssize hi) (wp_pure h)

theorem dinode_saveInode (hsaved : ∀ j < islots, dinode sb s.disk j = v j) (ip : Dinode) :
    ∀ j < islots, dinode sb (saveInode s i ip).disk j = update v i ip j := by
  intro j hj
  show dinode sb (update s.disk (iblock sb i) _) j = _
  rw [dinode_update]
  split_ifs with hji
  · rw [hji, update_self]
  · rw [update_of_ne hji]
    exact hsaved j hj

theorem disk_saveInode {ip : Dinode} {b : ℕ} (hb : b ≠ iblock sb i) :
    (saveInode s i ip).disk b = s.disk b := update_of_ne hb _ _

theorem Packed.saveInode (h : Packed s v m e c) (hi : i < islots) {ip : Dinode}
    (haddrs : ip.addrs = (v i).addrs) : Packed (saveInode s i ip) (update v i ip) m e c := by
  have hlow := iblock_lt_nmeta hi
  refine h.setMeta (fun b hb => disk_saveInode (by omega)) rfl ?_
  exact (forall_update_iff v fun j d => d.addrs = (v j).addrs).mpr ⟨haddrs, fun _ _ => rfl⟩

theorem iblock_ne_one : iblock sb i ≠ 1 := by
  show i / 16 + 32 ≠ 1
  omega

theorem Ready.cap_append (h : Ready cap s v c) {p : List UInt8}
    (hp : (c i).length + p.length ≤ cap i) : ∀ j, (update c i (c i ++ p) j).length ≤ cap j :=
  (forall_update_iff c fun j l => l.length ≤ cap j).mpr
    ⟨by rw [List.length_append]; exact hp, fun j _ => h.cap j⟩

theorem Ready.append_blocks (h : Ready cap s v c) (hcap : CapOk cap) (hi : i < islots)
    {p : List UInt8} (hp : (c i).length + p.length ≤ cap i) :
    s.freeblock + (cost (blocksFor ((c i).length + p.length)) - cost (blocksFor (c i).length)) =
        nmeta + ∑ j ∈ range islots, cost (blocksFor (update c i (c i ++ p) j).length) ∧
      nmeta + ∑ j ∈ range islots, cost (blocksFor (update c i (c i ++ p) j).length) ≤ fssize := by
  have hsum := Sums.sum_update (fun l : List UInt8 => cost (blocksFor l.length)) c
    (mem_range.mpr hi) (c i ++ p)
  have hmono := cost_blocksFor_le (Nat.le_add_right (c i).length p.length)
  rw [List.length_append] at hsum
  constructor
  · have := h.blocks
    omega
  · refine le_trans (Nat.add_le_add_left (sum_le_sum fun j _ => ?_) _) hcap.blocks
    exact cost_blocksFor_le (h.cap_append hp j)

theorem wp_iappend (h : Ready cap s v c) (hcap : CapOk cap) (hi : i < islots) (hne : i ≠ 0)
    (hused : i < s.freeinode) {p : List UInt8} (hp : (c i).length + p.length ≤ cap i) :
    wp (iappend i p) (fun _ s' => ∃ v', Ready cap s' v' (update c i (c i ++ p)) ∧
      (∀ j, kind (v' j) = kind (v j)) ∧ s'.freeinode = s.freeinode) E s := by
  obtain ⟨hblocks, hle⟩ := h.append_blocks hcap hi hp
  apply wp_bind_eq (wp_rinode hi ⟨h.saved i hi, rfl⟩)
  rw [h.size i]
  refine wp_bind (wp_iappendLoop h.exact rfl rfl le_rfl (le_trans hp (hcap.size i))
    (by rw [hblocks]; exact hle)) ?_
  rintro ⟨d, off⟩ s₁ ⟨hexact, hgrew, hoff, hfree⟩
  dsimp only at hexact hgrew hoff hfree ⊢
  apply wp_winode hi
  refine ⟨update v i { d with size := .ofNat 32 off }, ?_, fun j => ?_, hgrew.freeinode⟩
  · have hm : (fun j => blocksFor (update c i (c i ++ p) j).length) =
        update (fun j => blocksFor (c j).length) i (blocksFor ((c i).length + p.length)) := by
      rw [← List.length_append]
      exact funext fun j => apply_update (fun _ (l : List UInt8) => blocksFor l.length) c i _ j
    have hsaved : ∀ j < islots, dinode sb s₁.disk j = v j := by
      intro j hj
      rw [← h.saved j hj, dinode, dinode, hgrew.disk _ (iblock_lt_nmeta hj)]
    constructor
    · rw [hm, ← update_idem d]
      exact hexact.saveInode hi (by rw [update_self])
    · exact dinode_saveInode hsaved _
    · intro j
      by_cases hj : j = i
      · have hlt : off < 2 ^ 32 := by
          have := le_trans hp (hcap.size i)
          unfold maxfile ndirect nindirect bsize at this
          omega
        rw [hj, update_self, update_self, List.length_append, ← hoff]
        exact toNat_ofNat_of_lt hlt
      · rw [update_of_ne hj, update_of_ne hj]
        exact h.size j
    · show s₁.freeblock = _
      rw [hfree, hblocks]
    · exact h.cap_append hp
    · intro j hj
      have hji : j ≠ i := by
        rintro rfl
        have hj : j = 0 ∨ s₁.freeinode ≤ j := hj
        rw [hgrew.freeinode] at hj
        omega
      rw [update_of_ne hji, update_of_ne hji]
      apply h.unused j
      rw [← hgrew.freeinode]
      exact hj
    · rw [disk_saveInode iblock_ne_one.symm, hgrew.disk 1 (by decide)]
      exact h.super
  · revert j
    refine (forall_update_iff v fun j x => kind x = kind (v j)).mpr ⟨?_, fun _ _ => rfl⟩
    show (d.type, d.nlink) = _
    rw [hgrew.head]
    rfl

theorem wp_ialloc (h : Ready cap s v c) (hi : s.freeinode < islots) (hpos : 0 < s.freeinode)
    (type : BitVec 16) :
    wp (ialloc type) (fun i s' => i = s.freeinode ∧ ∃ v', Ready cap s' v' c ∧
      (∀ j, kind (v' j) = update (fun j => kind (v j)) i (type, 1) j) ∧
      s'.freeinode = s.freeinode + 1) E s := by
  apply wp_get
  apply wp_modify_bind
  apply wp_bind_state (wp_winode hi rfl)
  apply wp_pure
  obtain ⟨hfresh, hempty⟩ := h.unused s.freeinode (Or.inr le_rfl)
  refine ⟨rfl, update v s.freeinode { Dinode.fresh type with nlink := 1 }, ?_, fun j => ?_, rfl⟩
  swap
  · exact apply_update (fun _ => kind) v _ _ j
  constructor
  · refine Packed.saveInode ?_ hi (by rw [hfresh]; rfl)
    exact ⟨h.exact.inj, h.exact.range, h.exact.fresh, h.exact.low, h.exact.files⟩
  · exact dinode_saveInode (s := { s with freeinode := s.freeinode + 1 }) h.saved _
  · intro j
    by_cases hj : j = s.freeinode
    · rw [hj, update_self, hempty]
      rfl
    · rw [update_of_ne hj]
      exact h.size j
  · exact h.blocks
  · exact h.cap
  · intro j hj
    have hj : j = 0 ∨ s.freeinode + 1 ≤ j := hj
    have hne : j ≠ s.freeinode := by omega
    rw [update_of_ne hne]
    exact h.unused j (by omega)
  · exact (disk_saveInode iblock_ne_one.symm).trans h.super

/-! ## §5  `main` -/

/-- The entries of the root directory. -/
def rootEntries (files : List InputFile) : List (List UInt8) :=
  direntBytes dot rootino :: direntBytes dotdot rootino ::
    files.mapIdx fun k f => direntBytes f.name (k + 2)

/-- The bytes of each inode. -/
def contents (files : List InputFile) : ℕ → List UInt8
  | 0 => []
  | 1 => (rootEntries files).flatten
  | k + 2 => (files[k]?.map InputFile.bytes).getD []

/-- Type and link count of each inode. -/
def kinds (files : List InputFile) : ℕ → BitVec 16 × BitVec 16
  | 0 => (0, 0)
  | 1 => (tDir, 1)
  | k + 2 => if k < files.length then (tFile, 1) else (0, 0)

theorem length_direntBytes (name : List UInt8) (inum : ℕ) :
    (direntBytes name inum).length = direntSize := List.takeD_length ..

theorem length_rootEntries (files : List InputFile) :
    (rootEntries files).length = files.length + 2 := by
  simp [rootEntries]

theorem width_rootEntries {files : List InputFile} {de : List UInt8}
    (hde : de ∈ rootEntries files) : de.length = direntSize := by
  simp only [rootEntries, List.mem_cons, List.mem_mapIdx] at hde
  rcases hde with rfl | rfl | ⟨k, hk, rfl⟩ <;> exact length_direntBytes _ _

theorem length_root (files : List InputFile) :
    (contents files 1).length = direntSize * (files.length + 2) := by
  rw [contents, List.length_flatten, List.map_congr_left fun _ => width_rootEntries,
    List.map_const', List.sum_replicate, length_rootEntries]
  exact Nat.mul_comm _ _

variable {files done : List InputFile} {f : InputFile}

/-- One more file: an entry in the root directory, and the bytes of the new inode. -/
theorem contents_snoc :
    contents (done ++ [f]) = update
      (update (contents done) rootino
        (contents done rootino ++ direntBytes f.name (done.length + 2)))
      (done.length + 2) f.bytes := by
  funext i
  match i with
  | 0 => rfl
  | 1 =>
    rw [update_of_ne (by omega)]
    show _ = update (contents done) 1 (contents done 1 ++ _) 1
    rw [update_self]
    simp [contents, rootEntries, List.mapIdx_concat]
  | k + 2 =>
    by_cases hk : k = done.length
    · subst hk
      rw [update_self]
      simp [contents]
    · have hroot : k + 2 ≠ rootino := by
        show k + 2 ≠ 1
        omega
      rw [update_of_ne (by omega), update_of_ne hroot, contents, contents]
      rcases Nat.lt_or_gt_of_ne hk with hlt | hgt
      · rw [List.getElem?_append_left hlt]
      · rw [List.getElem?_eq_none (by simp; omega), List.getElem?_eq_none (by omega)]

theorem kinds_snoc : kinds (done ++ [f]) = update (kinds done) (done.length + 2) (tFile, 1) := by
  funext i
  match i with
  | 0 => rfl
  | 1 =>
    rw [update_of_ne (by omega)]
    rfl
  | k + 2 =>
    by_cases hk : k = done.length
    · subst hk
      rw [update_self, kinds, if_pos (by simp)]
    · rw [update_of_ne (by omega), kinds, kinds]
      simp only [List.length_append, List.length_singleton]
      congr 1
      exact propext ⟨fun _ => by omega, fun _ => by omega⟩

/-- The arguments fit into the file system. -/
structure Fits (files : List InputFile) : Prop where
  inodes : files.length + 1 ≤ ninodes
  blocks : nmeta + (cost (blocksFor (direntSize * (files.length + 2))) +
    (files.map fun f => cost (blocksFor f.bytes.length)).sum) ≤ fssize
  size : ∀ f ∈ files, f.bytes.length ≤ maxfile * bsize

theorem Fits.capOk (h : Fits files) : CapOk fun i => (contents files i).length := by
  have hinodes : files.length + 1 ≤ 200 := h.inodes
  constructor
  · intro i
    match i with
    | 0 => exact Nat.zero_le _
    | 1 =>
      show (contents files 1).length ≤ _
      rw [length_root]
      unfold direntSize maxfile ndirect nindirect bsize
      omega
    | k + 2 =>
      show ((files[k]?.map InputFile.bytes).getD []).length ≤ _
      cases hk : files[k]? with
      | none => exact Nat.zero_le _
      | some f => exact h.size f (List.mem_of_getElem? hk)
  · have hsum : ∑ k ∈ range 206, cost (blocksFor (contents files (k + 2)).length) =
        (files.map fun f => cost (blocksFor f.bytes.length)).sum :=
      Sums.sum_range_getElem? (fun o : Option InputFile =>
        cost (blocksFor ((o.map InputFile.bytes).getD []).length)) rfl files (by omega)
    have hroot : cost (blocksFor (contents files 1).length) =
        cost (blocksFor (direntSize * (files.length + 2))) := by rw [length_root]
    have hzero : cost (blocksFor (contents files 0).length) = 0 := by
      rw [contents]
      decide
    have hall : ∑ i ∈ range islots, cost (blocksFor (contents files i).length) =
        (files.map fun f => cost (blocksFor f.bytes.length)).sum +
          cost (blocksFor (direntSize * (files.length + 2))) := by
      show ∑ i ∈ range (206 + 1 + 1), _ = _
      rw [sum_range_succ', sum_range_succ', hsum, hroot, hzero, Nat.add_zero]
    rw [hall, Nat.add_comm (List.sum _)]
    exact h.blocks

/-- The image after the files `done`. -/
def Made (files done : List InputFile) (s : Img) : Prop :=
  s.freeinode = done.length + 2 ∧ ∃ v, (∀ i, kind (v i) = kinds done i) ∧
    Ready (fun i => (contents files i).length) s v (contents done)

theorem contents_prefix {rest : List InputFile} (hfiles : files = done ++ f :: rest) :
    (contents done rootino).length + direntSize ≤ (contents files rootino).length ∧
      contents files (done.length + 2) = f.bytes ∧ contents done (done.length + 2) = [] := by
  refine ⟨?_, ?_, ?_⟩
  · show (contents done 1).length + _ ≤ (contents files 1).length
    rw [length_root, length_root, hfiles, List.length_append, List.length_cons]
    unfold direntSize
    omega
  · simp [contents, hfiles]
  · simp [contents]

/-- The chunks of a file are appended one after the other. -/
theorem wp_appendReads {c : ℕ → List UInt8} (h : Ready cap s v c) (hcap : CapOk cap)
    (hi : i < islots) (hne : i ≠ 0) (hused : i < s.freeinode) (reads : List (List UInt8))
    (hle : (c i).length + reads.flatten.length ≤ cap i) :
    wp (forEach (iappend i) reads) (fun _ s' => ∃ v',
      Ready cap s' v' (update c i (c i ++ reads.flatten)) ∧
      (∀ j, kind (v' j) = kind (v j)) ∧ s'.freeinode = s.freeinode) E s := by
  induction reads generalizing s v c with
  | nil =>
    refine wp_pure ⟨v, ?_, fun _ => rfl, rfl⟩
    rw [List.flatten_nil, List.append_nil, update_eq_self]
    exact h
  | cons r reads ih =>
    rw [List.flatten_cons, List.length_append] at hle
    refine wp_bind (wp_iappend h hcap hi hne hused (by omega)) ?_
    rintro _ s₁ ⟨v₁, h₁, hkind₁, hfree₁⟩
    refine wp_post (ih h₁ (by omega) ?_) ?_
    · rw [update_self, List.length_append]
      omega
    · rintro _ s₂ ⟨v₂, h₂, hkind₂, hfree₂⟩
      rw [update_idem, update_self, List.append_assoc, ← List.flatten_cons] at h₂
      exact ⟨v₂, h₂, fun j => (hkind₂ j).trans (hkind₁ j), hfree₂.trans hfree₁⟩

theorem wp_addFile {rest : List InputFile} (hfits : Fits files) (hfiles : files = done ++ f :: rest)
    (hslash : slash ∈ shortname f.path → E .slash) (h : Made files done s) :
    wp (addFile rootino f) (fun _ s' => Made files (done ++ [f]) s') E s := by
  obtain ⟨hfree, v, hkind, hready⟩ := h
  have hcap := hfits.capOk
  have hlt : done.length + 2 < islots := by
    have hinodes : files.length + 1 ≤ 200 := hfits.inodes
    rw [hfiles, List.length_append, List.length_cons] at hinodes
    show done.length + 2 < 208
    omega
  obtain ⟨hroot, hbytes, hempty⟩ := contents_prefix hfiles
  refine wp_require_bind (fun _ => ?_) fun hf => hslash (not_not.mp (of_decide_eq_false hf))
  refine wp_bind (wp_ialloc hready (by omega) (by omega) tFile) ?_
  rintro inum s₁ ⟨rfl, v₁, h₁, hkind₁, hfree₁⟩
  rw [hfree] at hkind₁ hfree₁ ⊢
  refine wp_bind (wp_iappend h₁ hcap (i := rootino) (by decide) (by decide)
    (by have : rootino = 1 := rfl; omega) (by rw [length_direntBytes]; exact hroot)) ?_
  rintro _ s₂ ⟨v₂, h₂, hkind₂, hfree₂⟩
  have hne : done.length + 2 ≠ rootino := by
    show done.length + 2 ≠ 1
    omega
  refine wp_post (wp_appendReads h₂ hcap hlt (by omega) (by omega) f.reads ?_) ?_
  · rw [update_of_ne hne, hempty]
    show 0 + f.bytes.length ≤ (contents files (done.length + 2)).length
    rw [hbytes, Nat.zero_add]
  · rintro _ s₃ ⟨v₃, h₃, hkind₃, hfree₃⟩
    refine ⟨?_, v₃, fun j => ?_, ?_⟩
    · rw [hfree₃, hfree₂, hfree₁, List.length_append]
      rfl
    · rw [hkind₃, hkind₂, hkind₁, kinds_snoc, funext hkind]
    · rw [update_of_ne hne, hempty, List.nil_append] at h₃
      rw [contents_snoc]
      exact h₃

/-- The image that `mkfs` writes: `used` blocks are in use. -/
structure Written (files : List InputFile) (used : ℕ) (v : ℕ → Dinode) (disk : ℕ → Data) :
    Prop where
  exact : Exact ⟨disk, files.length + 2, used⟩ v (fun i => blocksFor (contents files i).length)
    (contents files)
  saved : ∀ i < islots, dinode sb disk i = v i
  kind : ∀ i, kind (v i) = kinds files i
  size : ∀ i, i ≠ rootino → (v i).size.toNat = (contents files i).length
  rootSize : (v rootino).size.toNat = ((contents files rootino).length / bsize + 1) * bsize
  super : disk 1 = sbBlock
  bitmap : disk sb.bmapstart = bitmap used
  le : used ≤ fssize

theorem readDinode_zero (j : ℕ) : readDinode zero j = .fresh 0 := by
  unfold readDinode
  simp only [getLE_zero]
  rfl

theorem ready_init :
    Ready cap ⟨update (fun _ => zero) 1 sbBlock, 1, nmeta⟩ (fun _ => .fresh 0) fun _ => [] := by
  have hslot : ∀ disk sl, (Dinode.fresh 0).slot disk sl = 0 :=
    fun disk sl => Dinode.slot_eq_zero rfl sl
  have hcost : cost (blocksFor ([] : List UInt8).length) = 0 := by decide
  constructor
  · refine ⟨fun p _ hp => absurd (hslot _ _) hp, fun p hp => absurd (hslot _ _) hp, fun b hb => ?_,
      le_rfl, fun i => ⟨Nat.zero_le _, Nat.zero_le _, fun bn _ => ?_, ?_, fun bn hbn => ?_⟩⟩
    · apply update_of_ne
      rintro rfl
      exact absurd hb (by decide)
    · exact iff_of_false (not_not.mpr (hslot _ _)) (Nat.not_lt_zero bn)
    · exact iff_of_false (not_not.mpr (hslot _ _)) (Nat.not_lt_zero _)
    · exact absurd hbn (Nat.not_lt_zero bn)
  · intro i _
    show readDinode (update (fun _ => zero) 1 sbBlock (iblock sb i)) _ = _
    rw [update_of_ne iblock_ne_one]
    exact readDinode_zero _
  · exact fun _ => rfl
  · show nmeta = nmeta + ∑ i ∈ range islots, cost (blocksFor ([] : List UInt8).length)
    rw [hcost, sum_const_zero, Nat.add_zero]
  · exact fun _ => Nat.zero_le _
  · exact fun _ _ => ⟨rfl, rfl⟩
  · exact update_self (1 : ℕ) sbBlock fun _ => zero

/-- The root directory before any file. -/
theorem wp_makeRoot {s' : Img} (hfits : Fits files)
    (h : Ready (fun i => (contents files i).length) s' (fun _ => .fresh 0) fun _ => [])
    (hfree : s'.freeinode = 1) {α : Type} {k : ℕ → Prog α} {Q : α → Img → Prop}
    (hk : ∀ s, Made files [] s → wp (k rootino) Q E s) :
    wp (do
        let root ← ialloc tDir
        require (root = rootino) .rootino
        iappend root (direntBytes dot root)
        iappend root (direntBytes dotdot root)
        k root) Q E s' := by
  have hcap := hfits.capOk
  have hroot : 2 * direntSize ≤ (contents files rootino).length := by
    show _ ≤ (contents files 1).length
    rw [length_root, Nat.mul_comm]
    exact Nat.mul_le_mul_left _ (Nat.le_add_left _ _)
  have hdir : direntSize = 16 := rfl
  refine wp_bind (wp_ialloc h (by rw [hfree]; decide) (by omega) tDir) ?_
  rintro _ s₁ ⟨rfl, v₁, h₁, hkind₁, hfree₁⟩
  rw [hfree] at hkind₁ hfree₁ ⊢
  refine wp_require_bind (fun _ => ?_) fun hf => absurd rfl (of_decide_eq_false hf)
  refine wp_bind (wp_iappend h₁ hcap (i := rootino) (by decide) (by decide)
    (by rw [hfree₁]; decide) ?_) ?_
  · rw [length_direntBytes, List.length_nil]
    omega
  rintro _ s₂ ⟨v₂, h₂, hkind₂, hfree₂⟩
  refine wp_bind (wp_iappend h₂ hcap (i := rootino) (by decide) (by decide)
    (by rw [hfree₂, hfree₁]; decide) ?_) ?_
  · rw [update_self, List.length_append, length_direntBytes, length_direntBytes, List.length_nil]
    omega
  rintro _ s₃ ⟨v₃, h₃, hkind₃, hfree₃⟩
  apply hk
  refine ⟨by rw [hfree₃, hfree₂, hfree₁]; rfl, v₃, fun j => ?_, ?_⟩
  · rw [hkind₃, hkind₂, hkind₁]
    match j with
    | 0 => rfl
    | 1 => rfl
    | j + 2 => exact update_of_ne (by omega) _ _
  · rw [update_idem, update_self, List.nil_append] at h₃
    have hc : update (fun _ => []) rootino (direntBytes dot 1 ++ direntBytes dotdot 1) =
        contents [] := by
      funext j
      match j with
      | 0 => rfl
      | 1 =>
        rw [contents]
        simp [rootEntries, rootino]
      | j + 2 => exact update_of_ne (show j + 2 ≠ 1 by omega) _ _
    rwa [hc] at h₃

/-- The last two writes. -/
theorem Ready.written {d : Dinode}
    (h : Ready (fun i => (contents files i).length) s v (contents files))
    (hkind : ∀ i, kind (v i) = kinds files i) (hle : s.freeblock ≤ fssize)
    (haddrs : d.addrs = (v rootino).addrs) (hd : kind d = kind (v rootino))
    (hsize : d.size.toNat = ((contents files rootino).length / bsize + 1) * bsize) :
    Written files s.freeblock (update v rootino d)
      (update (saveInode s rootino d).disk sb.bmapstart (bitmap s.freeblock)) := by
  have hroot : rootino < islots := by decide
  have hdisk : ∀ b, b ≠ sb.bmapstart → b ≠ iblock sb rootino →
      update (saveInode s rootino d).disk sb.bmapstart (bitmap s.freeblock) b = s.disk b := by
    intro b hb hb'
    rw [update_of_ne hb, disk_saveInode hb']
  constructor
  · refine Packed.setMeta (h.exact.saveInode hroot haddrs) (fun b hb => ?_) (by rfl) fun _ => rfl
    have hbm : sb.bmapstart < nmeta := by decide
    exact update_of_ne (by omega) _ _
  · intro j hj
    rw [dinode, update_of_ne (iblock_lt hj).ne]
    exact dinode_saveInode h.saved _ j hj
  · rw [← funext hkind]
    exact (forall_update_iff v fun j x => kind x = kind (v j)).mpr ⟨hd, fun _ _ => rfl⟩
  · intro j hj
    rw [update_of_ne hj]
    exact h.size j
  · rw [update_self, hsize]
  · rw [hdisk 1 (by decide) iblock_ne_one.symm]
    exact h.super
  · exact update_self ..
  · exact hle

/-- The blocks in use after all files are written. -/
def usedBy (files : List InputFile) : ℕ :=
  nmeta + ∑ i ∈ range islots, cost (blocksFor (contents files i).length)

theorem wp_finish (hfits : Fits files) (h : Made files files s) :
    wp (do
        fixRoot rootino
        let s ← get
        balloc s.freeblock) (fun _ s' => ∃ v, Written files (usedBy files) v s'.disk) E s := by
  obtain ⟨hfree, v, hkind, hready⟩ := h
  have hroot : rootino < islots := by decide
  have hle : s.freeblock ≤ fssize := by
    rw [hready.blocks]
    exact hfits.capOk.blocks
  refine wp_bind (Q := fun _ s' => s' = saveInode s rootino { v rootino with
    size := .ofNat 32 (((v rootino).size.toNat / bsize + 1) * bsize) }) ?_ ?_
  · exact wp_bind_eq (wp_rinode hroot ⟨hready.saved _ hroot, rfl⟩) (wp_winode hroot rfl)
  rintro _ _ rfl
  apply wp_get
  refine wp_require_bind (fun _ => wp_modify ?_) fun hf =>
    absurd (lt_of_le_of_lt hle (by decide)) (of_decide_eq_false hf)
  rw [show usedBy files = s.freeblock from hready.blocks.symm]
  refine ⟨_, hready.written hkind hle ?_ ?_ ?_⟩
  · rfl
  · rfl
  · have hlen := hready.size rootino
    have hcap : (contents files rootino).length ≤ maxfile * bsize := hfits.capOk.size rootino
    rw [hlen]
    apply toNat_ofNat_of_lt
    unfold maxfile ndirect nindirect bsize at *
    omega

theorem wp_main (hfits : Fits files) (hslash : ∀ f ∈ files, slash ∈ shortname f.path → E .slash) :
    wp (main files) (fun _ s' => ∃ v, Written files (usedBy files) v s'.disk) E
      ⟨fun _ => zero, 1, nmeta⟩ := by
  apply wp_modify_bind
  apply wp_makeRoot hfits ready_init rfl
  intro s hs
  -- the files that are done and those that are left
  refine wp_bind (wp_forEach (I := fun rest s => ∃ done, files = done ++ rest ∧
    Made files done s) ?_ ⟨[], rfl, hs⟩) ?_
  · rintro f rest t ⟨done, hdone, hmade⟩
    have hf : slash ∈ shortname f.path → E .slash := hslash f (by rw [hdone]; simp)
    refine wp_post (wp_addFile hfits hdone hf hmade) fun _ t' ht' => ⟨done ++ [f], ?_, ht'⟩
    rw [hdone, List.append_assoc]
    rfl
  · rintro _ s' ⟨done, hdone, hmade⟩
    rw [List.append_nil] at hdone
    subst hdone
    exact wp_finish hfits hmade

/-- `mkfs` writes an image if the arguments fit and no name has a slash in it. -/
theorem mkfs_written (hfits : Fits files) (hslash : ∀ f ∈ files, slash ∉ shortname f.path) :
    ∃ disk v, mkfs files = .ok disk ∧ Written files (usedBy files) v disk := by
  obtain ⟨_, s', hrun, v, hwritten⟩ := exists_of_wp
    (wp_main (E := noError) hfits fun f hf hmem => absurd hmem (hslash f hf))
  refine ⟨s'.disk, v, ?_, hwritten⟩
  rw [mkfs, hrun]

end RiscvBm.Mkfs

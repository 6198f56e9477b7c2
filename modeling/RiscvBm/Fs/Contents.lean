import RiscvBm.Fs.Blocks
import RiscvBm.Lib.Ownership

/-!
# Reading and truncating files

Reading a file of a consistent file system leaves it as it is, since it has no holes.
`itrunc` gives the blocks of a file back before it clears the pointers to them on the
disk; `Trim` is the state of its loops.
-/

namespace RiscvBm.Fs

open Bio (bsize Data)
open Bytes Ownership Wp Function

variable {sb : Superblock} {s s' : St} {v v' : ℕ → Dinode} {k : Ptr} {i : ℕ} {E : Panic → Prop}

/-! ## §1  `bmap` -/

variable {off bn n p : ℕ} {d : Dinode} {de : List UInt8}

theorem update_of_eq_zero {f : Slot → ℕ} {sl sl' : Slot} (h : f sl = 0) (hne : f sl' ≠ 0) (b : ℕ) :
    update f sl b sl' = f sl' := by
  apply update_of_ne
  rintro rfl
  exact hne h

theorem Dinode.block_indirect {disk : ℕ → Data} (hbn : ¬ bn < ndirect)
    (hlt : bn - ndirect < nindirect) (h0 : (d.addrs indirect).toNat ≠ 0) :
    d.block disk bn = wordAt (disk (d.addrs indirect).toNat) (bn - ndirect) := by
  simp only [Dinode.block, fileSlot_entry hbn hlt, Dinode.slot, if_neg h0]

/-! ## §2  Reading -/

theorem map_getD_range (l : List UInt8) (m : ℕ) :
    (List.range m).map (fun j => l.getD j 0) = l.takeD m 0 := by
  induction m generalizing l with
  | zero => rfl
  | succ m ih =>
    rw [List.range_succ_eq_map, List.map_cons, List.map_map, List.takeD_succ, ← ih l.tail]
    cases l <;> rfl

/-- A block that exists is found without a change. -/
theorem bmap_found (hmax : bn < maxfile) (h : (s.inode k).block s.disk bn ≠ 0) :
    wp (bmap k bn) (fun b s' => b = (s.inode k).block s.disk bn ∧ s' = s) E s := by
  refine wp_ite (fun hbn => ?_) (fun hbn => wp_ite (fun hlt => ?_) (fun hge => absurd ?_ hge))
  · have hblock : (s.inode k).block s.disk bn = ((s.inode k).addrs (Fin.ofNat 13 bn)).toNat := by
      rw [Dinode.block, fileSlot_direct hbn]
      rfl
    refine wp_get (wp_ite (fun h0 => ?_) (fun _ => wp_pure ⟨hblock.symm, rfl⟩))
    exact absurd (hblock.trans h0) h
  · have hind : ((s.inode k).addrs indirect).toNat ≠ 0 := by
      intro h0
      apply h
      simp only [Dinode.block, fileSlot_entry hbn hlt, Dinode.slot, if_pos h0]
    have hblock : (s.inode k).block s.disk bn = _ := Dinode.block_indirect hbn hlt hind
    refine wp_bind_eq (wp_get (wp_ite (fun h0 => absurd h0 hind) fun _ => wp_pure ⟨rfl, rfl⟩)) ?_
    refine wp_get (wp_bread (wp_ite (fun h0 => ?_) fun _ => wp_pure ⟨hblock.symm, rfl⟩))
    exact absurd (hblock.trans h0) h
  · unfold maxfile at hmax
    omega

theorem bmap_read (h : bn < maxfile → (s.inode k).block s.disk bn ≠ 0) :
    wp (bmap k bn) (fun b s' => s = s' ∧ bn < maxfile ∧ b = (s.inode k).block s.disk bn)
      notFreeing s := by
  by_cases hmax : bn < maxfile
  · exact wp_post (bmap_found hmax (h hmax)) fun b s' hb => ⟨hb.2.symm, hmax, hb.1⟩
  · unfold maxfile at hmax
    refine wp_ite (fun hbn => absurd hbn (by omega)) fun hbn => wp_ite (fun hlt => ?_) fun _ => ?_
    · omega
    · apply wp_throw
      intro heq
      cases heq

theorem getD_slice (b : Data) (off m j : ℕ) (hj : j < m) :
    ((slice b off m).getD j 0).toNat = byteAt b (off + j) := by
  have hlt := byteAt_lt b (off + j)
  simp only [slice, List.getD_eq_getElem?_getD, List.getElem?_map, List.getElem?_range hj,
    Option.map_some, Option.getD_some, UInt8.toNat_ofNat']
  omega

theorem direntInum_slice (b : Data) (off : ℕ) :
    direntInum (slice b off direntSize) = getLE b off 2 := by
  rw [direntInum, getD_slice b off _ 0 (by decide), getD_slice b off _ 1 (by decide)]
  simp [getLE]

/-- The loop of `readi` for bytes of one block. -/
theorem readiLoop_one {fuel : ℕ} (hn : 0 < n) (hblock : off % bsize + n ≤ bsize)
    (hfill : off / bsize < maxfile → (s.inode k).block s.disk (off / bsize) ≠ 0) :
    wp (readiLoop k (fuel + 1) off n) (fun r s' => s = s' ∧ off / bsize < maxfile ∧
      r = slice (s.disk ((s.inode k).block s.disk (off / bsize))) (off % bsize) n)
      notFreeing s := by
  have hm : min n (bsize - off % bsize) = n := by omega
  have hrest : ∀ fuel off, readiLoop k fuel off 0 = pure [] := by
    intro fuel off
    cases fuel <;> rfl
  refine wp_ite (fun h0 => absurd h0 hn.ne') fun _ => ?_
  refine wp_get (wp_bind (bmap_read hfill) ?_)
  rintro _ _ ⟨rfl, hmax, rfl⟩
  refine wp_bread ?_
  simp only [hm, Nat.sub_self, hrest]
  exact wp_pure ⟨rfl, hmax, List.append_nil _⟩

theorem length_slice (b : Data) (off m : ℕ) : (slice b off m).length = m := by
  simp [slice]

/-- Reading a directory entry changes nothing; in a directory it names an inode. -/
theorem readDirent_spec {e : Panic} (hok : (s.inode k).Ok n s.disk)
    (hoff : off % direntSize = 0) (he : notFreeing e) :
    wp (readDirent k off e) (fun de s' => s = s' ∧ ((s.inode k).type = tDir → direntInum de < n))
      notFreeing s := by
  have hoff16 : off % 16 = 0 := hoff
  have hdir : direntSize = 16 := rfl
  -- short reads are refused by the test of the length
  refine wp_bind (Q := fun de s' => s = s' ∧ (de.length = direntSize → (s.inode k).type = tDir →
    direntInum de < n)) ?_ ?_
  · refine wp_get (wp_ite (fun _ => wp_pure ⟨rfl, fun hlen => absurd hlen (by decide)⟩)
    fun hc => ?_)
    generalize hm : (if (s.inode k).size.toNat < (off + direntSize) % 2 ^ 32 then
      (s.inode k).size.toNat - off else direntSize) = m
    have hsize := (s.inode k).size.isLt
    cases m with
    | zero => exact wp_pure ⟨rfl, fun hlen => absurd hlen (by decide)⟩
    | succ m =>
      have hle : off + (m + 1) ≤ (s.inode k).size.toNat ∧ m + 1 ≤ 16 := by
        split_ifs at hm <;> omega
      have hblock : off % 1024 + (m + 1) ≤ 1024 := by omega
      have hlt : off / 1024 * 1024 < (s.inode k).size.toNat := by omega
      refine wp_post (readiLoop_one (Nat.succ_pos m) hblock fun hmax => ?_) ?_
      · exact hok.filled _ hmax hlt
      · rintro _ _ ⟨rfl, hmax, rfl⟩
        refine ⟨rfl, fun hlen htype => ?_⟩
        rw [length_slice] at hlen
        rw [hlen, direntInum_slice]
        exact hok.entries htype off hoff (by omega) hmax
  · rintro de _ ⟨rfl, hde⟩
    exact wp_require_bind (fun hlen => wp_pure ⟨rfl, hde (of_decide_eq_true hlen)⟩) fun _ => he

/-- The types of all inodes are the same. -/
def SameTypes (v v' : ℕ → Dinode) : Prop := ∀ j, (v' j).type = (v j).type

theorem sameTypes_update (hd : d.type = (v i).type) : SameTypes v (update v i d) := by
  intro j
  by_cases hj : j = i
  · rw [hj, update_self, hd]
  · rw [update_of_ne hj]

/-! ## §3  Directory entries -/

theorem kernelSrc_mapped (de : List UInt8) (j m : ℕ) : (kernelSrc de).mapped j m = true := by
  simp [Src.mapped, kernelSrc]

theorem byteAt_copyIn (b : Data) (de : List UInt8) {m : ℕ} (hp : p < bsize) :
    byteAt (copyIn b off (kernelSrc de) 0 m) p =
      if off ≤ p ∧ p < off + m then (de.getD (p - off) 0).toNat else byteAt b p := by
  unfold byteAt
  rw [dif_pos hp, dif_pos hp]
  simp only [copyIn, kernelSrc_mapped, and_true]
  split_ifs
  · simp [kernelSrc]
  · rfl

/-- The entries that are written name inodes. -/
theorem EntryOk.direntInum_lt (h : EntryOk (· < n) de) (hn : 0 < n) :
    direntInum de < n := by
  rcases h with rfl | ⟨name, inum, hlt, rfl⟩
  · exact hn
  · refine lt_of_le_of_lt ?_ hlt
    simp only [direntInum, dirent, List.getD_cons_zero, List.getD_cons_succ, UInt8.toNat_ofNat']
    omega

/-! ## §4  Truncation -/

/-- While `itrunc` runs: the blocks in the slots `A` are given back, and `addrs` is `a`. -/
structure Trim (sb : Superblock) (k : Ptr) (s : St) (A : Set Slot) (a : Fin 13 → BitVec 32)
    (s' : St) : Prop where
  sb_eq : s'.sb = s.sb
  inode : s'.inode = update s.inode k { s.inode k with addrs := a }
  agree : ∀ c, c ≠ sb.bmapstart → s'.disk c = s.disk c
  used : ∀ c ∈ dataBlocks sb, c ∈ usedBlocks sb s'.disk ↔
    c ∈ usedBlocks sb s.disk ∧ ∀ sl ∈ A, (s.inode k).slot s.disk sl ≠ c
  reserved : ∀ c < sb.size, Meta sb c → c ∈ usedBlocks sb s.disk → c ∈ usedBlocks sb s'.disk

variable {A A' : Set Slot} {a : Fin 13 → BitVec 32}

theorem Trim.state (h : Trim sb k s A a s') :
    s' = { setInode s k { s.inode k with addrs := a } with disk := s'.disk } := by
  obtain ⟨sb', disk', inode'⟩ := s'
  obtain ⟨rfl, rfl, -, -, -⟩ := h
  rfl

theorem Trim.active (h : Trim sb k s A a s') (hk : Active s k i) : Active s' k i := by
  constructor <;> rw [h.inode, update_self]
  · exact hk.ref
  · exact hk.valid
  · exact hk.inum

theorem Trim.setAddr (h : Trim sb k s A a s') (j : Fin 13) :
    Trim sb k s A (update a j 0) (setAddr s' k j 0) := by
  refine ⟨h.sb_eq, ?_, h.agree, h.used, h.reserved⟩
  show update s'.inode k { s'.inode k with addrs := update (s'.inode k).addrs j _ } = _
  rw [h.inode, update_self, update_idem]
  rfl

/-- The other slots of `A'` are empty. -/
theorem Trim.skip (h : Trim sb k s A a s') (hA : A ⊆ A')
    (hzero : ∀ sl ∈ A', sl ∉ A → (s.inode k).slot s.disk sl = 0) : Trim sb k s A' a s' := by
  refine ⟨h.sb_eq, h.inode, h.agree, fun c hc => (h.used c hc).trans ?_, h.reserved⟩
  refine and_congr_right fun _ => ⟨fun hne sl hsl => ?_, fun hne sl hsl => hne sl (hA hsl)⟩
  by_cases hin : sl ∈ A
  · exact hne sl hin
  · rw [hzero sl hsl hin]
    exact (ne_zero_of_mem hc).symm

/-- The first `n` slots of `addrs` and the first `m` words of the indirect block. -/
def firstSlots (n m : ℕ) : Set Slot :=
  {sl | match sl with
    | .addr j => j.val < n
    | .entry j => j.val < m}

theorem firstSlots_addr (j : Fin 13) (m : ℕ) :
    firstSlots (j.val + 1) m = insert (.addr j) (firstSlots j.val m) := by
  ext (l | l) <;> simp [firstSlots, Fin.ext_iff]
  omega

theorem firstSlots_entry (n : ℕ) (j : Fin 256) :
    firstSlots n (j.val + 1) = insert (.entry j) (firstSlots n j.val) := by
  ext (l | l) <;> simp [firstSlots, Fin.ext_iff]
  omega

/-- `addrs` after the first `m` slots were cleared. -/
def clearBelow (a : Fin 13 → BitVec 32) (m : ℕ) (j : Fin 13) : BitVec 32 :=
  if j.val < m then 0 else a j

theorem clearBelow_succ (a : Fin 13 → BitVec 32) (j : Fin 13) :
    clearBelow a (j.val + 1) = update (clearBelow a j.val) j 0 := by
  funext l
  unfold clearBelow
  by_cases hl : l = j
  · rw [hl, update_self, if_pos (Nat.lt_succ_self _)]
  · have hne : l.val ≠ j.val := fun heq => hl (Fin.ext heq)
    rw [update_of_ne hl]
    by_cases hlt : l.val < j.val
    · rw [if_pos hlt, if_pos (by omega)]
    · rw [if_neg hlt, if_neg (by omega)]

theorem clearBelow_self (a : Fin 13 → BitVec 32) (j : Fin 13) : clearBelow a j.val j = a j :=
  if_neg (lt_irrefl _)

section Loops

variable (hl : Layout sb) (hsb : s.sb = sb) 
  (hd : Owns ((s.inode k).slot s.disk) (dataBlocks sb) (usedBlocks sb s.disk))
include hl hsb hd

/-- A block that was not given back is in use, so `bfree` does not panic. -/
theorem Trim.bfree (h : Trim sb k s A a s') (sl : Slot) (hsl : sl ∉ A)
    (h0 : (s.inode k).slot s.disk sl ≠ 0) (dev : ℕ) :
    wp (bfree dev ((s.inode k).slot s.disk sl))
      (fun _ t => Trim sb k s (insert sl A) a t) E s' := by
  have hmem := hd.mem h0
  have hused : (s.inode k).slot s.disk sl ∈ usedBlocks sb s'.disk := by
    refine (h.used _ hmem).mpr ⟨hd.used h0, fun sl' hin heq => ?_⟩
    exact hsl (hd.inj h0 heq.symm ▸ hin)
  refine wp_post (bfree_spec hl (h.sb_eq.trans hsb) hmem.1 hused dev) ?_
  rintro _ _ rfl
  refine ⟨h.sb_eq, h.inode, fun c hc => ?_, fun c hc => ?_, fun c hc hm hu => ?_⟩
  · show deallocate sb s'.disk _ c = s.disk c
    rw [deallocate, update_of_ne hc, h.agree c hc]
  · rw [hl.used_deallocate hmem.1 hc.1, h.used c hc, Set.forall_mem_insert, ne_comm (a := c)]
    tauto
  · refine (hl.used_deallocate hmem.1 hc).mpr ⟨h.reserved c hc hm hu, ?_⟩
    rintro rfl
    exact hmem.2 hm

theorem truncDirect_spec (hn : n < ndirect)
    (h : Trim sb k s (firstSlots n 0) (clearBelow (s.inode k).addrs n) s') :
    wp (truncDirect k n) (fun _ t =>
      Trim sb k s (firstSlots (n + 1) 0) (clearBelow (s.inode k).addrs (n + 1)) t) E s' := by
  have hval : (Fin.ofNat 13 n).val = n := Nat.mod_eq_of_lt (lt_trans hn (by decide))
  unfold truncDirect
  generalize Fin.ofNat 13 n = j at hval ⊢
  subst hval
  have haddr : (s'.inode k).addrs j = (s.inode k).addrs j := by
    rw [h.inode, update_self]
    exact clearBelow_self _ _
  rw [clearBelow_succ, firstSlots_addr]
  apply wp_get
  dsimp only
  rw [haddr]
  apply wp_ite
  · intro h0
    have hzero : clearBelow (s.inode k).addrs j.val j = 0 := by
      rw [clearBelow_self]
      exact BitVec.eq_of_toNat_eq h0
    rw [← hzero, update_eq_self]
    refine wp_pure (h.skip (Set.subset_insert _ _) ?_)
    rintro sl (rfl | hin) hout
    · exact h0
    · exact absurd hin hout
  · intro h0
    refine wp_bind (h.bfree hl hsb hd (.addr j) (lt_irrefl j.val) h0 _) ?_
    exact fun _ t ht => wp_modify (ht.setAddr j)

theorem truncEntry_spec {dev : ℕ} (hn : n < nindirect)
    (h0 : ((s.inode k).addrs indirect).toNat ≠ 0) (h : Trim sb k s (firstSlots 12 n) a s') :
    wp (truncEntry dev (s.disk ((s.inode k).addrs indirect).toNat) n)
      (fun _ t => Trim sb k s (firstSlots 12 (n + 1)) a t) E s' := by
  have hslot : wordAt (s.disk ((s.inode k).addrs indirect).toNat) n =
      (s.inode k).slot s.disk (.entry ⟨n, hn⟩) := (if_neg h0).symm
  unfold truncEntry
  rw [firstSlots_entry 12 ⟨n, hn⟩, hslot]
  apply wp_ite
  · intro hz
    refine wp_pure (h.skip (Set.subset_insert _ _) ?_)
    rintro sl (rfl | hin) hout
    · exact hz
    · exact absurd hin hout
  · exact fun hz => h.bfree hl hsb hd _ (lt_irrefl n) hz dev

theorem truncIndirect_spec
    (h : Trim sb k s (firstSlots 12 0) (clearBelow (s.inode k).addrs 12) s') :
    wp (truncIndirect k) (fun _ t => Trim sb k s Set.univ (fun _ => 0) t) E s' := by
  have haddr : (s'.inode k).addrs indirect = (s.inode k).addrs indirect := by
    rw [h.inode, update_self]
    exact clearBelow_self _ indirect
  have hall : (fun _ => 0) = update (clearBelow (s.inode k).addrs 12) indirect 0 := by
    rw [show 12 = indirect.val from rfl, ← clearBelow_succ]
    funext j
    exact (if_pos j.isLt).symm
  rw [hall]
  apply wp_get
  dsimp only
  rw [haddr]
  apply wp_ite
  · -- without an indirect block there are no entries
    intro h0
    have hzero : clearBelow (s.inode k).addrs 12 indirect = 0 := by
      rw [show 12 = indirect.val from rfl, clearBelow_self]
      exact BitVec.eq_of_toNat_eq h0
    rw [← hzero, update_eq_self]
    refine wp_pure (h.skip (Set.subset_univ _) ?_)
    rintro (j | j) - hout
    · have hj : j = indirect := by
        have hge : ¬ j.val < 12 := hout
        exact Fin.ext (show j.val = 12 by omega)
      rw [hj]
      exact h0
    · exact if_pos h0
  · intro h0
    have hdata : s'.disk ((s.inode k).addrs indirect).toNat =
        s.disk ((s.inode k).addrs indirect).toNat := by
      apply h.agree
      intro hbm
      exact bmapstart_notMem sb (hbm ▸ hd.mem (p := .addr indirect) h0)
    apply wp_bread
    rw [hdata]
    refine wp_bind (wp_forRange_zero (I := fun n t =>
      Trim sb k s (firstSlots 12 n) (clearBelow (s.inode k).addrs 12) t)
      (fun n t hn ht => truncEntry_spec hl hsb hd hn h0 ht) h) ?_
    intro _ t ht
    refine wp_bind (ht.bfree hl hsb hd (.addr indirect) (lt_irrefl 12) h0 _) ?_
    intro _ t ht
    have huniv : insert (.addr indirect) (firstSlots 12 nindirect) = Set.univ := by
      refine (firstSlots_addr indirect nindirect).symm.trans ?_
      ext (j | j)
      · exact iff_of_true j.isLt trivial
      · exact iff_of_true j.isLt trivial
    exact wp_modify (huniv ▸ ht.setAddr indirect)

/-- `itrunc`: all blocks are given back before the inode on the disk is changed. -/
theorem wp_itrunc {Q : Unit → St → Prop}
    (hput : ∀ t, Trim sb k s Set.univ (fun _ => 0) t →
      wp (putInode k fun ip => { ip with size := 0 }) Q E t) : wp (itrunc k) Q E s := by
  have hstart : Trim sb k s (firstSlots 0 0) (clearBelow (s.inode k).addrs 0) s := by
    refine ⟨rfl, (update_eq_self k s.inode).symm, fun _ _ => rfl, fun c _ => ?_, fun _ _ _ hu => hu⟩
    refine (and_iff_left ?_).symm
    rintro (j | j) hj
    · exact absurd hj (Nat.not_lt_zero _)
    · exact absurd hj (Nat.not_lt_zero _)
  refine wp_bind (wp_forRange_zero (I := fun n t =>
    Trim sb k s (firstSlots n 0) (clearBelow (s.inode k).addrs n) t)
    (fun n t hn ht => truncDirect_spec hl hsb hd hn ht) hstart) ?_
  intro _ t ht
  exact wp_bind (truncIndirect_spec hl hsb hd ht) fun _ t ht => hput t ht

end Loops

end RiscvBm.Fs

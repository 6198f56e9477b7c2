import RiscvBm.Fs.View

/-!
# Block ownership as an invariant of the calls on paths

`Owned` joins the reference counts with the consistency of the file system. A
reference that is known not to be a directory stays so, because an inode with
references is not freed: `iput` frees an inode only with its last reference, and
`ialloc` takes only inodes that are free on the disk.
-/

namespace RiscvBm.Fs

open Bytes Wp Function

variable {sb : Superblock} {s s' : St} {v v' : ℕ → Dinode} {k : Ptr} {i : ℕ}
variable {T : Multiset Ref} {L : Finset Ptr} {E : Panic → Prop}

/-- What the references know about their inodes. -/
def Flags (T : Multiset Ref) (s : St) (v : ℕ → Dinode) : Prop :=
  ∀ k, (k, true) ∈ T → (v (s.inode k).inum).type ≠ tDir ∧ (v (s.inode k).inum).type ≠ 0

/-- The blocks in use belong to an inode, the files have no holes, and the entries of directories
name inodes. -/
structure Consistent (sb : Superblock) (disk : ℕ → Bio.Data) (v : ℕ → Dinode) : Prop
    extends Apart sb sb.ninodes disk v where
  owned : ∀ b ∈ dataBlocks sb, b ∈ usedBlocks sb disk → ∃ p, blockAt sb.ninodes disk v p = b
  files : ∀ i < sb.ninodes, (v i).type ≠ 0 → (v i).Ok sb.ninodes disk

/-- On the disk the inodes are as in memory, every entry is for an inode, and no block is lost. -/
structure Good (sb : Superblock) (s : St) (v : ℕ → Dinode) : Prop
    extends Held sb sb.ninodes none s v where
  stored : ∀ i < sb.ninodes, dinode sb s.disk i = v i
  inums : ∀ k, 0 < (s.inode k).ref → (s.inode k).inum < sb.ninodes
  cons : Consistent sb s.disk v

structure Owned (sb : Superblock) (T : Multiset Ref) (L : Finset Ptr) (s : St) : Prop where
  counted : Counted T L s
  fs : ∃ v, Good sb s v ∧ Flags T s v

/-! ## §1  No block is lost -/

variable {b : Bool} {off : ℕ} {dp : Ptr} {d : Dinode}

theorem Layout.toRoom (hl : Layout sb) : Room sb sb.ninodes := ⟨hl, le_rfl, hl.inodes⟩

theorem Good.ok (h : Good sb s v) (hk : Active s k i) : (v i).Ok sb.ninodes s.disk :=
  h.cons.files i (h.inum_lt hk) (h.type_ne hk)

/-- One inode was changed, with the blocks that belong to it. Those of its blocks that are still
in use are where they were. -/
theorem Consistent.step {disk disk' : ℕ → Bio.Data} (h : Consistent sb disk v)
    (hapart : Apart sb sb.ninodes disk' (update v i d))
    (hsame : ∀ j, j ≠ i → SameBlocks sb.ninodes disk v disk' j)
    (hused : ∀ b ∈ dataBlocks sb, b ∈ usedBlocks sb disk' →
      b ∈ usedBlocks sb disk ∨ ∃ sl, blockAt sb.ninodes disk' (update v i d) (i, sl) = b)
    (hslot : ∀ sl, blockAt sb.ninodes disk v (i, sl) ≠ 0 →
      blockAt sb.ninodes disk v (i, sl) ∈ usedBlocks sb disk' →
      blockAt sb.ninodes disk' (update v i d) (i, sl) = blockAt sb.ninodes disk v (i, sl))
    (hok : i < sb.ninodes → d.type ≠ 0 → d.Ok sb.ninodes disk') :
    Consistent sb disk' (update v i d) := by
  refine ⟨hapart, fun b hb hu => ?_, fun j hj htj => ?_⟩
  · rcases hused b hb hu with hold | ⟨sl, hsl⟩
    · obtain ⟨⟨j, sl⟩, rfl⟩ := h.owned b hb hold
      by_cases hj : j = i
      · subst hj
        exact ⟨_, hslot sl (ne_zero_of_mem hb) hu⟩
      · exact ⟨(j, sl), blockAt_other hsame hj⟩
    · exact ⟨_, hsl⟩
  · by_cases hji : j = i
    · subst hji
      rw [update_self] at htj ⊢
      exact hok hj htj
    · rw [update_of_ne hji] at htj ⊢
      refine (h.files j hj htj).grow rfl rfl (fun bn _ => (hsame j hji).slot hj htj _) ?_
      intro bn hne
      have hdata := hsame j hji (fileSlot bn)
      rw [blockAt_eq hj htj] at hdata
      exact hdata hne

theorem Good.step (h : Good sb s v) (hheld : Held sb sb.ninodes none s' (update v i d))
    (hinums : ∀ l, 0 < (s'.inode l).ref → (s'.inode l).inum < sb.ninodes)
    (hdin : ∀ j < sb.ninodes, dinode sb s'.disk j = if j = i then d else dinode sb s.disk j)
    (hcons : Consistent sb s'.disk (update v i d)) : Good sb s' (update v i d) := by
  refine ⟨hheld, fun j hj => ?_, hinums, hcons⟩
  rw [hdin j hj]
  split_ifs with hji
  · rw [hji, update_self]
  · rw [update_of_ne hji]
    exact h.stored j hj

theorem Good.inums_of (h : Good sb s v) (hothers : ∀ l, l ≠ k → s'.inode l = s.inode l)
    (hk : (s'.inode k).inum < sb.ninodes) (l : Ptr) (hl : 0 < (s'.inode l).ref) :
    (s'.inode l).inum < sb.ninodes := by
  by_cases hlk : l = k
  · rwa [hlk]
  · rw [hothers l hlk] at hl ⊢
    exact h.inums l hl

theorem Good.touched (h : Good sb s v) (ht : Touched sb sb.ninodes k i s s' v)
    (hi : i < sb.ninodes) : Good sb s' v := by
  refine ⟨ht.held, ?_, h.inums_of ht.others (ht.inum ▸ hi), ?_⟩
  · rw [ht.disk]
    exact h.stored
  · rw [ht.disk]
    exact h.cons

theorem Good.emptied (h : Good sb s v) (he : Emptied sb sb.ninodes k i d s s' v)
    (hk : Active s k i) (hs : d.size.toNat = 0) : Good sb s' (update v i d) := by
  have hi := h.inum_lt hk
  apply h.step he.held (h.inums_of he.others (he.inum ▸ hi)) he.dinodes
  apply h.cons.step he.held.apart
  · exact fun j _ sl hne => he.agree _ (h.cons.mem hne)
  · exact fun b hb hu => Or.inl ((he.used b hb).mp hu).1
  · intro sl hne hu
    have hfree := ((he.used _ (h.cons.mem hne)).mp hu).2 sl
    exact absurd (blockAt_eq hi (h.type_ne hk) sl).symm hfree
  · exact fun _ _ => Dinode.ok_of_size_zero hs

/-! ## §2  Writing -/

/-- No block is lost when an inode gets new ones, and all other inodes are as before. -/
theorem Changed.good {N : ℕ} (hch : Changed sb sb.ninodes none N k i s v s' v')
    (h : Good sb s v) (ht : (v i).type ≠ 0) (hd : dinode sb s'.disk i = v' i)
    (hok : (v' i).Ok sb.ninodes s'.disk) : Good sb s' v' := by
  have hi := hch.held.inum_lt hch.active
  have hself : ∀ sl, blockAt sb.ninodes s'.disk v' (i, sl) = (v' i).slot s'.disk sl :=
    blockAt_eq hi (hch.held.type_ne hch.active)
  obtain ⟨d, rfl⟩ : ∃ d, v' = update v i d := by
    refine ⟨v' i, funext fun j => ?_⟩
    by_cases hj : j = i
    · rw [hj, update_self]
    · rw [update_of_ne hj, (hch.other j hj).1]
  apply h.step hch.held (h.inums_of hch.entries (hch.active.inum ▸ hi))
  · intro j hj
    split_ifs with hji
    · rw [hji, hd, update_self]
    · exact hch.dinodes j hj hji
  · apply h.cons.step hch.held.apart
    · exact fun j hj => (hch.other j hj).2
    · intro b hb hu
      simp only [hself]
      exact hch.fresh b hb hu
    · intro sl hne _
      rw [blockAt_eq hi ht] at hne ⊢
      rw [hself, hch.slot sl hne]
    · rw [update_self] at hok
      exact fun _ _ => hok

theorem Dinode.inumAt_eq {disk : ℕ → Bio.Data} {d : Dinode} {p : ℕ} (hp : p % direntSize = 0)
    (h0 : d.block disk (p / Bio.bsize) ≠ 0) :
    d.inumAt disk p = direntInum (d.direntAt disk (p / direntSize)) := by
  rw [Dinode.direntAt, Nat.mul_div_cancel' (Nat.dvd_of_mod_eq_zero hp), if_neg h0, direntInum_slice]
  rfl

/-- Bytes of a file, or an entry of a directory, are written; a write may stop early. -/
theorem writei_good (hl : Layout sb) (h : Good sb s v) (hk : Active s k i) (src : Src)
    (off m : ℕ) (hdir : (v i).type = tDir → ∃ de, src = kernelSrc de ∧ m = direntSize ∧
      off % direntSize = 0 ∧ direntInum de < sb.ninodes) :
    wp (writei k src off m) (fun _ s' => ∃ v', Good sb s' v' ∧ SameTypes v v')
      notFreeing s := by
  have hsize : (s.inode k).size = (v i).size := congrArg Dinode.size (h.copy_eq hk)
  have ht := h.type_ne hk
  by_cases hguard : (v i).size.toNat < off ∨ (off + m) % 2 ^ 32 < off ∨
      maxfile * Bio.bsize < (off + m) % 2 ^ 32
  · refine wp_get ?_
    rw [hsize]
    refine wp_ite (fun _ => wp_pure ⟨v, h, fun _ => rfl⟩) fun hc => ?_
    rw [if_pos (by omega)]
    exact wp_pure ⟨v, h, fun _ => rfl⟩
  · push Not at hguard
    obtain ⟨hoff, hmod, hmax⟩ := hguard
    refine wp_mono (writei_accepted hl.toRoom le_rfl hoff hmod hmax (Or.inr rfl) h.toHeld hk) ?_ ?_
    · rintro _ s' ⟨c, rfl, v', hch, hd, hsize', hw⟩
      have hfilled : (v' i).Filled s'.disk (v' i).size.toNat := by
        intro bn hbn hlt
        by_cases hold : bn * Bio.bsize < (v i).size.toNat
        · have hne := (h.ok hk).filled bn hbn hold
          rwa [hch.block hne]
        · have hne := hw.block (bn * Bio.bsize) (by omega) (by omega)
          rwa [Nat.mul_div_cancel _ (by decide)] at hne
      have hsame : SameTypes v v' := by
        intro j
        by_cases hji : j = i
        · rw [hji, hch.type]
        · rw [(hch.other j hji).1]
      refine ⟨v', hch.good h ht hd ⟨hfilled, fun htype p hp hle hpmax => ?_⟩, hsame⟩
      rw [hch.type] at htype
      obtain ⟨de, rfl, rfl, hoff16, hde⟩ := hdir htype
      obtain ⟨rfl, hst⟩ := hw.all (kernelSrc_mapped _ _ _)
      have hne := hfilled (p / Bio.bsize) hpmax (by rw [bsize_eq, direntSize_eq] at *; omega)
      have hoff' : direntSize * (off / direntSize) = off :=
        Nat.mul_div_cancel' (Nat.dvd_of_mod_eq_zero hoff16)
      rw [← hoff'] at hst
      rw [Dinode.inumAt_eq hp hne, hst.direntAt (by rw [bsize_eq, direntSize_eq] at *; omega)]
      split_ifs with heq
      · exact lt_of_eq_of_lt (congrArg Prod.fst (entryOf_takeD de)) hde
      · have hin : p + direntSize ≤ (v i).size.toNat := by
          rw [direntSize_eq] at *
          omega
        have hne := (h.ok hk).filled (p / Bio.bsize) hpmax
          (by rw [bsize_eq, direntSize_eq] at *; omega)
        rw [← Dinode.inumAt_eq hp hne]
        exact (h.ok hk).entries htype p hp hin hpmax
    · rintro e (⟨rfl, -⟩ | ⟨rfl, -⟩) he <;> cases he

theorem writeDirent_spec (hl : Layout sb) (h : Good sb s v) (hk : Active s k i) {e : Panic}
    {de : List UInt8} (hoff : off % direntSize = 0) (hde : EntryOk (· < sb.ninodes) de)
    (he : notFreeing e) :
    wp (writeDirent k de off e) (fun _ s' => ∃ v', Good sb s' v' ∧ SameTypes v v')
      notFreeing s := by
  refine wp_bind (writei_good hl h hk _ _ _ fun _ => ⟨de, rfl, rfl, hoff, ?_⟩) ?_
  · exact hde.direntInum_lt (lt_trans (by decide) hl.root)
  · exact fun _ s' hs' => wp_require (fun _ => hs') fun _ => he

/-! ## §3  The invariant -/

theorem Flags.of_sameTypes {v' : ℕ → Dinode} (h : Flags T s v) (hsame : SameTypes v v')
    (hinum : ∀ k, HasRef T k → (s'.inode k).inum = (s.inode k).inum) : Flags T s' v' := by
  intro k hk
  rw [hinum k ⟨true, hk⟩, hsame]
  exact h k hk

theorem Owned.active (h : Owned sb T L s) (hgood : Good sb s v) (hk : k ∈ L) :
    Active s k (s.inode k).inum :=
  hgood.active_of_locked ((h.counted.locked k).mpr hk)

/-- A function that changes no count and no type. -/
theorem Owned.keeps {α : Type} {c : Prog α} (h : Owned sb T L s) (hc : Keeps idents c)
    (hspec : ∀ v, Good sb s v → Flags T s v →
      wp c (fun _ s' => ∃ v', Good sb s' v' ∧ SameTypes v v') notFreeing s) :
    wp c (fun _ s' => Owned sb T L s') notFreeing s := by
  obtain ⟨v, hgood, hflags⟩ := h.fs
  refine wp_mono (wp_and (hc s) (hspec v hgood hflags)) ?_ fun _ he => he.2
  rintro _ s' ⟨hidents, v', hgood', hsame⟩
  refine ⟨h.counted.of_idents hidents, v', hgood', hflags.of_sameTypes hsame fun k _ => ?_⟩
  exact congrArg Ident.inum (congrFun hidents k)

theorem Flags.cons (h : Flags T s v)
    (hb : b = true → (v (s.inode k).inum).type ≠ tDir ∧ (v (s.inode k).inum).type ≠ 0) :
    Flags ((k, b) ::ₘ T) s v := by
  intro j hj
  rcases Multiset.mem_cons.mp hj with heq | hmem
  · obtain ⟨rfl, rfl⟩ := Prod.mk.injEq .. ▸ heq
    exact hb rfl
  · exact h j hmem

theorem Flags.tail {x : Ref} (h : Flags (x ::ₘ T) s v) : Flags T s v :=
  fun j hj => h j (Multiset.mem_cons_of_mem hj)

/-- A new reference to the inode `inum`. -/
theorem Owned.iget (h : Counted T L s) (hgood : Good sb s v) (hflags : Flags T s v)
    {inum : ℕ} (hinum : inum < sb.ninodes)
    (hb : b = true → (v inum).type ≠ tDir ∧ (v inum).type ≠ 0) :
    wp (iget rootdev inum) (fun k s' => Owned sb ((k, b) ::ₘ T) L s') notFreeing s := by
  refine wp_mono (wp_and (h.iget rootdev inum b) (iget_held hgood.toHeld inum)) ?_ fun _ he => he.2
  rintro k s' ⟨hcounted, ht, hsame⟩
  refine ⟨hcounted, v, hgood.touched ht hinum, Flags.cons (hflags.of_sameTypes (fun _ => rfl)
    fun j hj => ?_) ?_⟩
  · by_cases hjk : j = k
    · subst hjk
      exact ht.inum.trans (hsame (h.ref_pos hj)).symm
    · rw [ht.others j hjk]
  · rwa [ht.inum]

theorem Owned.idup (h : Owned sb T L s) (hk : HasRef T k) :
    wp (idup k) (fun r s' => r = k ∧ Owned sb ((k, false) ::ₘ T) L s') notFreeing s := by
  obtain ⟨v, hgood, hflags⟩ := h.fs
  have hpos := h.counted.ref_pos hk
  have hheld : wp (Fs.idup k) _ notFreeing s := idup_held hgood.toHeld hpos
  refine wp_mono (wp_and (h.counted.idup hpos false) hheld) ?_ fun _ he => he.2
  rintro r s' ⟨⟨rfl, hcounted⟩, ht⟩
  refine ⟨rfl, hcounted, v, hgood.touched ht (hgood.inums r hpos),
    Flags.cons (hflags.of_sameTypes (fun _ => rfl) fun j _ => congrFun ht.inums_eq j)
      fun hb => by cases hb⟩

theorem Owned.iput (hl : Layout sb) (h : Owned sb ((k, b) ::ₘ T) L s)
    (hk : k ∉ L ∨ HasRef T k) : wp (iput k) (fun _ s' => Owned sb T L s') notFreeing s := by
  obtain ⟨v, hgood, hflags⟩ := h.fs
  have hpos := h.counted.ref_pos (HasRef.head k b T)
  refine wp_mono (wp_and h.counted.iput (iput_held hl.toRoom hgood.toHeld hpos
    (h.counted.one_lt_of_locked hk) fun _ _ he => he)) ?_ fun _ he => he.2
  rintro _ s' ⟨hcounted, ht | ⟨hone, hk, -, he⟩⟩
  · refine ⟨hcounted, v, hgood.touched ht (hgood.inums k hpos), ?_⟩
    exact hflags.tail.of_sameTypes (fun _ => rfl) fun j _ => congrFun ht.inums_eq j
  · refine ⟨hcounted, _, hgood.emptied he hk rfl, ?_⟩
    -- the inode was freed with its last reference, so `T` has none to it
    intro j hj
    have hjk : j ≠ k := by
      rintro rfl
      exact (h.counted.one_lt ⟨true, hj⟩).ne' hone
    have hjpos := h.counted.ref_pos ⟨true, Multiset.mem_cons_of_mem hj⟩
    have hne : (s.inode j).inum ≠ inums s k := hgood.inum_ne hpos hjk hjpos
    rw [he.others j hjk, update_of_ne hne]
    exact hflags.tail j hj

theorem Owned.ilock (hl : Layout sb) (h : Owned sb T L s) :
    wp (ilock k) (fun _ s' => k ∉ L ∧ Owned sb T (insert k L) s') notFreeing s := by
  obtain ⟨v, hgood, hflags⟩ := h.fs
  have hi := hgood.inums k
  refine wp_mono (wp_and (h.counted.ilock k) (ilock_held hl.toRoom hgood.toHeld hi
    (fun _ he => by cases he) (fun _ he => by cases he) fun _ he => by cases he)) ?_
    fun _ he => he.2
  rintro _ s' ⟨⟨hk, hcounted⟩, hpos, v', ht, hv'⟩
  have hv : v' = v := by
    rcases hv' with rfl | rfl
    · rfl
    · exact update_eq_self_iff.mpr (hgood.stored _ (hi hpos))
  subst hv
  exact ⟨hk, hcounted, v', hgood.touched ht (hi hpos),
    hflags.of_sameTypes (fun _ => rfl) fun j _ => congrFun ht.inums_eq j⟩

theorem Owned.iunlock (h : Owned sb T L s) :
    wp (iunlock k) (fun _ s' => Owned sb T (L.erase k) s') notFreeing s := by
  obtain ⟨v, hgood, hflags⟩ := h.fs
  refine wp_mono (wp_and (h.counted.iunlock k) (iunlock_held hgood.toHeld
    fun _ he => by cases he)) ?_ fun _ he => he.2
  rintro _ s' ⟨hcounted, hpos, ht⟩
  exact ⟨hcounted, v, hgood.touched ht (hgood.inums k hpos),
    hflags.of_sameTypes (fun _ => rfl) fun j _ => congrFun ht.inums_eq j⟩

/-- The type of a locked inode is known. -/
theorem Owned.learn (h : Owned sb ((k, b) ::ₘ T) L s) (hk : k ∈ L)
    (htype : (s.inode k).type ≠ tDir) : Owned sb ((k, true) ::ₘ T) L s := by
  obtain ⟨v, hgood, hflags⟩ := h.fs
  have hactive := h.active hgood hk
  refine ⟨h.counted.flag true, v, hgood, hflags.tail.cons fun _ => ⟨?_, hgood.type_ne hactive⟩⟩
  rwa [← hgood.copy_eq hactive]

theorem Owned.forget (h : Owned sb ((k, b) ::ₘ T) L s) :
    Owned sb ((k, false) ::ₘ T) L s := by
  obtain ⟨v, hgood, hflags⟩ := h.fs
  exact ⟨h.counted.flag false, v, hgood, hflags.tail.cons fun hb => by cases hb⟩

/-! ## §4  `ialloc` -/

/-- The free inode `i` gets a type. -/
theorem Good.allocInode (h : Good sb s v) (hl : Layout sb) (hi : i < sb.ninodes)
    (hfree : (v i).type = 0) (type : BitVec 16) :
    Good sb (setBlock s (iblock sb i)
      (writeDinode (s.disk (iblock sb i)) (i % ipb) (.fresh type))) (update v i (.fresh type)) := by
  have hagree : ∀ c, c = sb.bmapstart ∨ c ∈ dataBlocks sb → update s.disk (iblock sb i)
      (writeDinode (s.disk (iblock sb i)) (i % ipb) (.fresh type)) c = s.disk c :=
    fun c hc => update_of_ne (hl.toRoom.ne_iblock hi hc) _ _
  have hsame : ∀ j, j ≠ i → SameBlocks sb.ninodes s.disk v _ j :=
    fun j _ sl hne => hagree _ (Or.inr (h.apart.mem hne))
  have hdin := fun j => dinode_update sb s.disk i j (.fresh type)
  have hheld := h.replace (d := .fresh type) ?_ (fun j _ hji => (hdin j).trans (if_neg hji))
    hsame (by rw [hdin, if_pos rfl]; exact Behind.refl _ _)
    (h.apart.keep hl.toRoom hagree fun _ _ sl hne => absurd (Dinode.slot_eq_zero rfl sl) hne)
  · apply h.step hheld h.inums fun j _ => hdin j
    apply h.cons.step hheld.apart hsame
    · exact fun b hb hu => Or.inl ((hl.used_congr (hagree _ (Or.inl rfl)) hb.1).mp hu)
    · exact fun sl hne => absurd (if_neg fun hc => hc.2 hfree) hne
    · exact fun _ _ => Dinode.ok_of_size_zero rfl
  · -- an entry that is valid is for an inode with a type
    intro l hpos hv heq
    have hcopy := h.copy l hpos hv
    rw [heq] at hcopy
    exact hcopy.2 ((congrArg Dinode.type hcopy.1).trans hfree)

theorem Owned.iallocLoop (hl : Layout sb) (h : Owned sb T L s) {type : BitVec 16}
    (htype : type ≠ 0) (n inum : ℕ) (hn : n = 0 ∨ inum + n ≤ sb.ninodes) :
    wp (iallocLoop rootdev type n inum)
      (fun k s' => Owned sb ((k, decide (type ≠ tDir)) ::ₘ T) L s') notFreeing s := by
  obtain ⟨v, hgood, hflags⟩ := h.fs
  induction n generalizing inum with
  | zero => exact wp_throw fun he => by cases he
  | succ n ih =>
    have hinum : inum < sb.ninodes := by omega
    have hd : readDinode (s.disk (iblock sb inum)) (inum % ipb) = v inum :=
      hgood.stored inum hinum
    refine wp_get (wp_bread ?_)
    rw [hgood.sb_eq, hd]
    refine wp_ite (fun hfree => wp_modify_bind ?_) fun _ => ih (inum + 1) (by omega)
    have hgood' := hgood.allocInode hl hinum hfree type
    have hcounted : Counted T L (setBlock s (iblock sb inum)
      (writeDinode (s.disk (iblock sb inum)) (inum % ipb) (.fresh type))) :=
      h.counted.of_idents rfl
    refine Owned.iget hcounted hgood' (fun k hk => ?_) hinum fun hb => ?_
    · have hne : (s.inode k).inum ≠ inum := by
        intro heq
        exact (hflags k hk).2 (heq ▸ hfree)
      rw [show ((setBlock s _ _).inode k).inum = (s.inode k).inum from rfl, update_of_ne hne]
      exact hflags k hk
    · rw [update_self]
      exact ⟨of_decide_eq_true hb, htype⟩

/-! ## §5  Directories -/

theorem Owned.ok (h : Owned sb T L s) (hgood : Good sb s v) (hk : k ∈ L) :
    (s.inode k).Ok sb.ninodes s.disk := by
  have hactive := h.active hgood hk
  rw [hgood.copy_eq hactive]
  exact hgood.ok hactive

/-! ## §6  The interface of the upper half -/

/-- Changing the links of an inode. -/
theorem put_good (hl : Layout sb) (h : Good sb s v) (hk : Active s k i) {f : Inode → Inode}
    (hf : LinksOnly f) :
    wp (putInode k f) (fun _ s' => ∃ v', Good sb s' v' ∧ SameTypes v v') notFreeing s := by
  obtain ⟨major, minor, nlink, hip⟩ := hf (s.inode k)
  have hi := h.inum_lt hk
  have ht := h.type_ne hk
  have hd : (f (s.inode k)).toDinode =
      { v i with major := major, minor := minor, nlink := nlink } := by rw [hip, ← h.copy_eq hk]
  have hslot : ∀ disk sl, ({ v i with major := major, minor := minor, nlink := nlink } :
      Dinode).slot disk sl = (v i).slot disk sl := by rintro disk (j | j) <;> rfl
  refine wp_post (putInode_held hl.toRoom h.toHeld hk (fun _ _ => by simp) hd (by rw [hip]; rfl)
    (by rw [hip]; exact hk.valid) ht ?_) ?_
  · apply h.apart.keep hl.toRoom fun _ _ => rfl
    intro _ _ sl _
    rw [hslot, blockAt_eq hi ht]
  · rintro _ s' ⟨hheld, hk', hagree, hdin, hothers, -⟩
    have hsame : ∀ j, SameBlocks sb.ninodes s.disk v s'.disk j :=
      fun j sl hne => hagree _ (Or.inr (h.cons.mem hne))
    have hself := fun sl => (hslot s'.disk sl).trans ((hsame i).slot hi ht sl)
    refine ⟨_, h.step hheld (h.inums_of hothers (hk'.inum ▸ hi)) (fun j _ => hdin j) ?_,
      sameTypes_update rfl⟩
    apply h.cons.step hheld.apart fun j _ => hsame j
    · exact fun b hb hu => Or.inl ((hl.used_congr (hagree _ (Or.inl rfl)) hb.1).mp hu)
    · intro sl _ _
      rw [blockAt_eq hi ht, blockAt_eq hi (by rw [update_self]; exact ht), update_self, hself]
    · refine fun _ _ => (h.ok hk).grow rfl rfl (fun bn _ => hself _) fun bn hne => ?_
      have hdata := hsame i (fileSlot bn)
      rw [blockAt_eq hi ht] at hdata
      exact hdata hne

/-- Ownership of blocks is an invariant of the calls on paths. -/
theorem owned_kept (hl : Layout sb) : Kept (Owned sb) (· < sb.ninodes) notFreeing where
  err _ he := he
  root h := by
    obtain ⟨v, hgood, hflags⟩ := h.fs
    exact Owned.iget h.counted hgood hflags hl.root fun hb => by cases hb
  idup h hk := h.idup hk
  iput h hk := h.iput hl hk
  ilock h := h.ilock hl
  iunlock h := h.iunlock
  learn h hk htype := h.learn hk htype
  forget h := h.forget
  ialloc h hdp htype := by
    obtain ⟨v, hgood, -⟩ := h.fs
    rw [hgood.dev _ (h.active hgood hdp).ref]
    refine wp_get (h.iallocLoop hl htype _ _ ?_)
    rw [hgood.sb_eq]
    omega
  put h hk hf := h.keeps (keeps_putInode fun ip => by
    obtain ⟨_, _, _, hip⟩ := hf ip
    rw [hip]
    rfl) fun v hgood _ => put_good hl hgood (h.active hgood hk) hf
  itrunc h hk := h.keeps (keeps_itrunc _) fun v hgood _ => by
    refine wp_post (itrunc_held hl.toRoom hgood.toHeld (h.active hgood hk)) ?_
    rintro _ s' ⟨he, -⟩
    exact ⟨_, hgood.emptied he (h.active hgood hk) rfl, sameTypes_update rfl⟩
  writei h hk hT := h.keeps (keeps_writei _ _ _ _) fun v hgood hflags =>
    writei_good hl hgood (h.active hgood hk) _ _ _ fun hdir => absurd hdir (hflags _ hT).1
  readDirent h hdp hoff he := by
    obtain ⟨v, hgood, -⟩ := h.fs
    refine wp_post (readDirent_spec (h.ok hgood hdp) hoff he) ?_
    rintro de _ ⟨rfl, hde⟩
    exact ⟨h, fun hdir => ⟨hdir, hdir.elim hde fun hall => hall _⟩⟩
  iget h hdp hinum := by
    obtain ⟨v, hgood, hflags⟩ := h.fs
    rw [hgood.dev _ (h.active hgood hdp).ref]
    exact Owned.iget h.counted hgood hflags hinum fun hb => by cases hb
  inum h hk := by
    obtain ⟨v, hgood, -⟩ := h.fs
    exact hgood.inums _ (h.counted.ref_pos hk)
  writeDirent h hdp hoff hde he := h.keeps (keeps_writeDirent _ _ _ _) fun v hgood _ =>
    writeDirent_spec hl hgood (h.active hgood hdp) hoff hde he

end RiscvBm.Fs

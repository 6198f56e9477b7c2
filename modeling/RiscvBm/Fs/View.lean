import RiscvBm.Fs.Cached

/-!
# Entries of `itable`, and inodes that come and go

What `iget`, `ilock`, `iput` and `itrunc` do to the inodes a state stands for. An entry
that is filled from the disk loses the blocks that only the copy in memory had; `iput` of the
last reference frees an inode without links.
-/

namespace RiscvBm.Fs

open Bio (bsize Data)
open Bytes Ownership Slots Wp Function

variable {sb : Superblock} {n : ℕ} {disk disk' : ℕ → Data} {v v' : ℕ → Dinode} {d : Dinode}
  {i j b : ℕ} {s s' : St} {k : Ptr} {dirty : Option ℕ} {E : Panic → Prop}

/-! ## §1  What the inodes show -/

/-- The inode `i` as a user sees it. -/
def shows (n : ℕ) (disk : ℕ → Data) (v : ℕ → Dinode) (i : ℕ) : Ino :=
  if i < n ∧ (v i).type ≠ 0 then (v i).ino disk else Ino.free

theorem shows_eq (hi : i < n) (ht : (v i).type ≠ 0) : shows n disk v i = (v i).ino disk :=
  if_pos ⟨hi, ht⟩

theorem shows_congr (h : ∀ j < n, (v' j).ino disk' = (v j).ino disk) :
    shows n disk' v' = shows n disk v := by
  funext j
  unfold shows
  by_cases hj : j < n
  · have htype : (v' j).type = (v j).type := congrArg Ino.type (h j hj)
    rw [h j hj, htype]
  · rw [if_neg fun hc => hj hc.1, if_neg fun hc => hj hc.1]

/-- The inodes that the entries of `itable` are for. -/
def inums (s : St) : Ptr → ℕ := fun k => (s.inode k).inum

/-! ## §2  Entries of `itable` -/

theorem Held.setEntry (h : Held sb n dirty s v) {ip : Inode}
    (hdev : 0 < ip.ref → ip.dev = rootdev) (hinum : 0 < ip.ref → ip.valid = true → ip.inum < n)
    (hcopy : 0 < ip.ref → ip.valid = true → ip.toDinode = v ip.inum ∧ ip.type ≠ 0)
    (huniq : Uniq (setInode s k ip))
    (hlocked : ip.locked = true → 0 < ip.ref ∧ ip.valid = true) :
    Held sb n dirty (setInode s k ip) v :=
  h.put h.disk (fun _ _ _ _ => rfl) hdev hinum hcopy huniq hlocked h.apart

/-- An entry in use gets another count, another state of its lock, or is no longer valid. -/
theorem Held.setFlags (h : Held sb n dirty s v) (hpos : 0 < (s.inode k).ref) {ip : Inode}
    (hdev : ip.dev = (s.inode k).dev) (hinum : ip.inum = (s.inode k).inum)
    (hcopy : ip.valid = true → ip.toDinode = (s.inode k).toDinode ∧ (s.inode k).valid = true)
    (hlocked : ip.locked = true → 0 < ip.ref ∧ ip.valid = true) :
    Held sb n dirty (setInode s k ip) v := by
  apply h.setEntry _ _ _ (h.uniq.setInode_same (fun _ => hpos) hdev hinum) hlocked
  · intro _
    rw [hdev]
    exact h.dev k hpos
  · intro _ hv
    rw [hinum]
    exact h.inum k hpos (hcopy hv).2
  · intro _ hv
    obtain ⟨hd, hvalid⟩ := hcopy hv
    rw [hd, hinum]
    exact h.copy k hpos hvalid

/-- The dinode of an inode without a valid entry is replaced. -/
theorem Held.replace (h : Held sb n none s v)
    (hno : ∀ k, 0 < (s.inode k).ref → (s.inode k).valid = true → (s.inode k).inum ≠ i)
    (hino : ∀ j < n, j ≠ i → dinode sb disk' j = dinode sb s.disk j)
    (hsame : ∀ j, j ≠ i → SameBlocks n s.disk v disk' j)
    (hself : Behind disk' (dinode sb disk' i) d) (hapart : Apart sb n disk' (update v i d)) :
    Held sb n none { s with disk := disk' } (update v i d) := by
  refine ⟨h.sb_eq, ?_, h.dev, h.inum, ?_, h.uniq, h.locked, hapart⟩
  · intro j hj _
    show Behind disk' (dinode sb disk' j) (update v i d j)
    by_cases hji : j = i
    · rw [hji, update_self]
      exact hself
    · rw [update_of_ne hji, hino j hj hji]
      exact (h.disk j hj (by simp)).grow (fun ht => (hsame j hji).grows hj ht) rfl rfl rfl
        fun _ => Or.inl rfl
  · intro l hl hv
    show (s.inode l).toDinode = update v i d (s.inode l).inum ∧ _
    rw [update_of_ne (hno l hl hv)]
    exact h.copy l hl hv

/-- Only the entry `k` was changed, which is for the inode `i` now. -/
structure Touched (sb : Superblock) (n : ℕ) (k : Ptr) (i : ℕ) (s s' : St) (v : ℕ → Dinode) :
    Prop where
  held : Held sb n none s' v
  disk : s'.disk = s.disk
  others : ∀ l, l ≠ k → s'.inode l = s.inode l
  inum : (s'.inode k).inum = i

theorem inums_of_others (hothers : ∀ l, l ≠ k → s'.inode l = s.inode l)
    (hinum : (s'.inode k).inum = i) : inums s' = update (inums s) k i := by
  funext l
  by_cases hl : l = k
  · rw [hl, update_self, ← hinum]
    rfl
  · rw [update_of_ne hl]
    exact congrArg Inode.inum (hothers l hl)

theorem Touched.inums_eq (h : Touched sb n k (inums s k) s s' v) : inums s' = inums s := by
  rw [inums_of_others h.others h.inum, update_eq_self]

theorem Held.setUse (h : Held sb n dirty s v) (hpos : 0 < (s.inode k).ref) {r : ℤ} {l : Bool}
    (hlocked : l = true → 0 < r ∧ (s.inode k).valid = true) :
    Held sb n dirty (setInode s k { s.inode k with ref := r, locked := l }) v :=
  h.setFlags hpos rfl rfl (fun hv => ⟨rfl, hv⟩) hlocked

theorem Held.touch (h : Held sb n none s v) (hpos : 0 < (s.inode k).ref) {r : ℤ} {l : Bool}
    (hlocked : l = true → 0 < r ∧ (s.inode k).valid = true) :
    Touched sb n k (inums s k) s (setInode s k { s.inode k with ref := r, locked := l }) v :=
  ⟨h.setUse hpos hlocked, rfl, fun _ hl => setInode_of_ne s hl _, by rw [setInode_same]; rfl⟩

/-- `iget` of any number. -/
theorem Held.got (h : Held sb n dirty s v) {ip : Inode} (hgot : Got s rootdev i k ip) :
    Held sb n dirty (setInode s k ip) v := by
  rcases hgot.entry with ⟨rfl, hpos⟩ | ⟨hvalid, href⟩
  · exact h.setUse hpos fun hl => ⟨by omega, (h.locked k hl).2⟩
  · apply h.setEntry
    · exact fun _ => hgot.dev_eq
    · intro _ hv
      rw [hvalid] at hv
      cases hv
    · intro _ hv
      rw [hvalid] at hv
      cases hv
    · apply h.uniq.setInode
      intro _ l hl hpos hdev
      rw [hgot.inum_eq]
      exact hgot.other l hl hpos (hdev.trans hgot.dev_eq)
    · intro hl
      rw [hgot.locked] at hl
      have hpos := (h.locked k hl).1
      omega

theorem Held.touched_got (h : Held sb n none s v) {ip : Inode} (hgot : Got s rootdev i k ip) :
    Touched sb n k i s (setInode s k ip) v ∧ (0 < (s.inode k).ref → inums s k = i) := by
  refine ⟨⟨h.got hgot, rfl, fun _ hl => setInode_of_ne s hl ip, ?_⟩, ?_⟩
  · rw [setInode_same, hgot.inum_eq]
  · intro hpos
    rcases hgot.entry with ⟨hip, -⟩ | ⟨-, href⟩
    · rw [← hgot.inum_eq, hip]
      rfl
    · omega

theorem iget_held (h : Held sb n none s v) (i : ℕ) :
    wp (iget rootdev i) (fun k s' => Touched sb n k i s s' v ∧
      (0 < (s.inode k).ref → inums s k = i)) notFreeing s := by
  refine wp_mono (iget_spec h.uniq rootdev i) ?_ ?_
  · rintro k _ ⟨ip, hgot, rfl⟩
    exact h.touched_got hgot
  · rintro _ ⟨rfl, -⟩ he
    cases he

theorem idup_held (h : Held sb n none s v) (hpos : 0 < (s.inode k).ref) :
    wp (idup k) (fun _ s' => Touched sb n k (inums s k) s s' v) E s := by
  refine wp_modify_bind (wp_pure ?_)
  exact h.touch hpos fun hl => ⟨by omega, (h.locked k hl).2⟩

theorem iunlock_held (h : Held sb n none s v) (hE : (s.inode k).locked = false → E .iunlock) :
    wp (iunlock k) (fun _ s' => 0 < (s.inode k).ref ∧ Touched sb n k (inums s k) s s' v) E s := by
  apply wp_get
  refine wp_require_bind (fun hb => ?_) fun hno => hE ?_
  · have hb : (s.inode k).locked = true ∧ 1 ≤ (s.inode k).ref := by simpa using hb
    have hpos : 0 < (s.inode k).ref := by omega
    exact wp_modify ⟨hpos, h.touch hpos fun hl => by cases hl⟩
  · by_contra hl
    have hl := Bool.eq_true_of_not_eq_false hl
    exact of_decide_eq_false hno ⟨hl, (h.locked k hl).1⟩

/-- `ilock`. An inode without a valid entry is the one on the disk. -/
theorem ilock_held (hr : Room sb n) (h : Held sb n none s v)
    (hi : 0 < (s.inode k).ref → inums s k < n) (href : (s.inode k).ref < 1 → E .ilock)
    (hfree : (s.inode k).locked = true → E .stuck)
    (htype : (dinode sb s.disk (inums s k)).type = 0 → E .noType) :
    wp (ilock k) (fun _ s' => 0 < (s.inode k).ref ∧ ∃ v', Touched sb n k (inums s k) s s' v' ∧
      (v' = v ∨ v' = update v (inums s k) (dinode sb s.disk (inums s k)))) E s := by
  apply wp_get
  refine wp_require_bind (fun hb => ?_) fun hno => href (by simpa using hno)
  have hpos : 0 < (s.inode k).ref := Int.lt_of_lt_of_le Int.one_pos (by simpa using hb)
  apply wp_bind_state (acquiresleep_spec hfree)
  apply wp_ite
  · intro hv
    exact wp_pure ⟨hpos, v, h.touch hpos fun _ => ⟨hpos, hv⟩, .inl rfl⟩
  · intro hv
    have hi := hi hpos
    have hbehind := h.disk _ hi (by simp)
    have hload : Held sb n none s (update v (inums s k) (dinode sb s.disk (inums s k))) := by
      apply h.replace _ (fun _ _ _ => rfl) (fun _ _ _ _ => rfl) (Behind.refl _ _)
      · apply h.apart.keep hr (fun _ _ => rfl)
        intro _ ht sl hne
        rw [hbehind.type] at ht
        rw [blockAt_eq hi ht, hbehind.slot ht hne]
      · intro l hl hlv heq
        have hlk := h.uniq l k hl hpos ((h.dev l hl).trans (h.dev k hpos).symm) heq
        exact hv (hlk ▸ hlv)
    have hd : readDinode (s.disk (iblock s.sb (s.inode k).inum)) ((s.inode k).inum % ipb) =
        dinode sb s.disk (s.inode k).inum := by
      rw [h.sb_eq]
      rfl
    refine wp_get (wp_bread (wp_modify_bind ?_))
    rw [setInode_setInode, setInode_same]
    refine wp_require (fun hused => ⟨hpos, _, ⟨hload.setEntry ?_ ?_ ?_ ?_ ?_, rfl,
      fun _ hl => setInode_of_ne s hl _, by rw [setInode_same]; rfl⟩, .inr rfl⟩) ?_
    · exact fun _ => h.dev k hpos
    · exact fun _ _ => hi
    · intro _ _
      refine ⟨hd.trans ?_, by simpa using hused⟩
      exact (update_self (s.inode k).inum (dinode sb s.disk (s.inode k).inum) v).symm
    · exact h.uniq.setInode_same (fun _ => hpos) rfl rfl
    · exact fun _ => ⟨hpos, rfl⟩
    · intro hno
      exact htype ((congrArg Dinode.type hd).symm.trans (not_not.mp (of_decide_eq_false hno)))

/-! ## §3  `itrunc` -/

theorem Dinode.ents_of_size (h : d.size = 0) : d.ents disk = [] := by
  unfold Dinode.ents
  split_ifs
  · simp [h]
  · rfl

/-- An inode without blocks. -/
def Dinode.bare (d : Dinode) : Dinode := { d with addrs := fun _ => 0 }

/-- All blocks of the inode `i`, whose entry is `k`, were given back; it is `d` now. -/
structure Emptied (sb : Superblock) (n : ℕ) (k : Ptr) (i : ℕ) (d : Dinode) (s s' : St)
    (v : ℕ → Dinode) : Prop where
  held : Held sb n none s' (update v i d)
  others : ∀ l, l ≠ k → s'.inode l = s.inode l
  inum : (s'.inode k).inum = i
  agree : ∀ c ∈ dataBlocks sb, s'.disk c = s.disk c
  used : ∀ c ∈ dataBlocks sb, c ∈ usedBlocks sb s'.disk ↔
    c ∈ usedBlocks sb s.disk ∧ ∀ sl, (v i).slot s.disk sl ≠ c
  dinodes : ∀ j < n, dinode sb s'.disk j = if j = i then d else dinode sb s.disk j

theorem Held.apartOf (h : Held sb n dirty s v) (hk : Active s k i) :
    Owns ((s.inode k).slot s.disk) (dataBlocks sb) (usedBlocks sb s.disk) := by
  have hat : ∀ sl, blockAt n s.disk v (i, sl) = _ := blockAt_eq (h.inum_lt hk) (h.type_ne hk)
  rw [h.copy_eq hk]
  refine ⟨fun {sl sl'} => ?_, fun {sl} => ?_, fun {sl} => ?_⟩ <;> rw [← hat]
  · rw [← hat]
    exact fun hne heq => congrArg Prod.snd (h.apart.inj hne heq)
  · exact h.apart.mem
  · exact h.apart.used

theorem Apart.truncate (h : Apart sb n disk v) (hi : i < n) (ht : (v i).type ≠ 0)
    (hagree : ∀ c ∈ dataBlocks sb, disk' c = disk c)
    (hused : ∀ c ∈ dataBlocks sb, c ∈ usedBlocks sb disk' ↔
      c ∈ usedBlocks sb disk ∧ ∀ sl, (v i).slot disk sl ≠ c)
    (hreserved : ∀ c < sb.size, Meta sb c → c ∈ usedBlocks sb disk')
    (ha : d.addrs = fun _ => 0) : Apart sb n disk' (update v i d) := by
  apply h.shrink
  · exact fun j _ sl hne => hagree _ (h.mem hne)
  · exact fun _ _ sl hne => absurd (Dinode.slot_eq_zero ha sl) hne
  · rintro ⟨j, sl'⟩ hne' hne
    refine (hused _ (h.mem hne)).mpr ⟨h.used hne, fun sl heq => hne' ?_⟩
    rw [← blockAt_eq hi ht] at heq
    obtain ⟨rfl, -⟩ := Prod.mk.inj (h.inj hne heq.symm)
    unfold blockAt
    split_ifs
    · rw [update_self, Dinode.slot_eq_zero ha]
    · rfl
  · exact hreserved

theorem itrunc_held (hr : Room sb n) (h : Held sb n none s v) (hk : Active s k i) :
    wp (itrunc k) (fun _ s' => Emptied sb n k i { (v i).bare with size := 0 } s s' v ∧
      Active s' k i) E s := by
  have hi := h.inum_lt hk
  have ht := h.type_ne hk
  have hcopy := h.copy_eq hk
  apply wp_itrunc hr.toLayout h.sb_eq (h.apartOf hk)
  intro t hs
  have hagree : ∀ c ∈ dataBlocks sb, t.disk c = s.disk c := by
    intro c hc
    apply hs.agree
    exact fun hbm => bmapstart_notMem sb (hbm ▸ hc)
  have hused : ∀ c ∈ dataBlocks sb, c ∈ usedBlocks sb t.disk ↔
      c ∈ usedBlocks sb s.disk ∧ ∀ sl, (v i).slot s.disk sl ≠ c := by
    intro c hc
    rw [hs.used c hc, hcopy]
    simp
  have hdinode : ∀ j < n, dinode sb t.disk j = dinode sb s.disk j := by
    intro j hj
    unfold dinode
    rw [hs.agree _ (hr.room j hj).ne]
  have hapart : ∀ d : Dinode, (d.addrs = fun _ => 0) → Apart sb n t.disk (update v i d) :=
    fun d => h.apart.truncate hi ht hagree hused
      fun c hc hm => hs.reserved c hc hm (h.apart.reserved c hc hm)
  have hd : ({ s.inode k with addrs := fun _ => 0 } : Inode).toDinode = (v i).bare := by
    rw [← hcopy]
    rfl
  have hheld : Held sb n (some i) t (update v i (v i).bare) := by
    rw [hs.state]
    apply h.change hk _ hd (by rfl) hk.valid (h.inode_type_ne hk)
    · exact fun j hj _ => hdinode j hj
    · exact fun j _ sl hne => hagree _ (h.apart.mem hne)
    · exact fun hne => absurd rfl hne
    · exact fun _ _ _ => by simp
    · exact hapart _ rfl
  have hinode : t.inode k = _ := (congrFun hs.inode k).trans (update_self ..)
  have hk' := hs.active hk
  refine wp_post (putInode_held hr hheld hk' (fun j hj heq => hj (Option.some.inj heq).symm)
    (d := { (v i).bare with size := 0 }) ?_ (by rfl) hk'.valid ht ?_) ?_
  · rw [hinode, ← hcopy]
    rfl
  · rw [update_idem]
    exact hapart _ rfl
  · rintro _ s' ⟨hheld', hactive, hdisk, hdin, hothers, -⟩
    rw [update_idem] at hheld'
    refine ⟨⟨hheld', fun l hl => ?_, hactive.inum, fun c hc => ?_, fun c hc => ?_, fun j hj => ?_⟩,
      hactive⟩
    · rw [hothers l hl, hs.inode, update_of_ne hl]
    · rw [hdisk c (Or.inr hc), hagree c hc]
    · rw [hr.used_congr (hdisk _ (Or.inl rfl)) hc.1]
      exact hused c hc
    · rw [hdin, hdinode j hj]

/-! ## §4  `iput` -/

/-- `ip->type = 0; iupdate(ip); ip->valid = 0; releasesleep(&ip->lock);` -/
theorem Held.retire (hr : Room sb n) (h : Held sb n none s v) (hk : Active s k i)
    (hd : d.type = 0) (ip : Inode) (hdev : ip.dev = (s.inode k).dev)
    (hinum : ip.inum = (s.inode k).inum) (hvalid : ip.valid = false) (hlocked : ip.locked = false) :
    Held sb n none (Fs.setBlock (setInode s k ip) (iblock sb i)
      (writeDinode (s.disk (iblock sb i)) (i % ipb) d)) (update v i d) := by
  have hagree : ∀ c, c = sb.bmapstart ∨ c ∈ dataBlocks sb → update s.disk (iblock sb i)
      (writeDinode (s.disk (iblock sb i)) (i % ipb) d) c = s.disk c :=
    fun c hc => update_of_ne (hr.ne_iblock (h.inum_lt hk) hc) _ _
  have hflags : Held sb n none (setInode s k ip) v := by
    apply h.setFlags hk.ref hdev hinum
    · intro hv
      rw [hvalid] at hv
      cases hv
    · intro hl
      rw [hlocked] at hl
      cases hl
  apply hflags.replace
  · intro l hpos hv
    by_cases hlk : l = k
    · rw [hlk, setInode_same, hvalid] at hv
      cases hv
    · rw [setInode_of_ne s hlk] at hpos ⊢
      rw [← hk.inum]
      exact h.inum_ne hk.ref hlk hpos
  · intro j _ hji
    exact (dinode_update sb s.disk i j d).trans (if_neg hji)
  · exact fun j _ sl hne => hagree _ (Or.inr (h.apart.mem hne))
  · change Behind (update s.disk _ _) (dinode sb (update s.disk _ _) i) d
    rw [dinode_update, if_pos rfl]
    exact Behind.refl _ _
  · exact h.apart.keep hr hagree fun _ ht => absurd hd ht

theorem iputLast_held (hr : Room sb n) (h : Held sb n none s v) (hk : Active s k i) :
    wp (iputLast k) (fun _ s' =>
      Emptied sb n k i { (v i).bare with size := 0, type := 0 } s s' v ∧
      (s'.inode k).ref = (s.inode k).ref ∧ (s'.inode k).locked = false) notFreeing s := by
  apply wp_bind_state (acquiresleep_spec fun _ he => by cases he)
  have h₁ : Held sb n none (setInode s k { s.inode k with locked := true }) v :=
    h.setUse hk.ref fun _ => ⟨hk.ref, hk.valid⟩
  have hk₁ : Active (setInode s k { s.inode k with locked := true }) k i := by
    constructor <;> rw [setInode_same]
    · exact hk.ref
    · exact hk.valid
    · exact hk.inum
  refine wp_bind (wp_error (wp_and (itrunc_held hr h₁ hk₁) (keeps_itrunc k _)) fun _ hE => hE.1) ?_
  rintro _ s₂ ⟨⟨h₂, hk₂⟩, hidents⟩
  have href : (s₂.inode k).ref = (s.inode k).ref := by
    have href := congrArg Ident.ref (congrFun hidents k)
    simpa [idents, Inode.ident, setInode_same] using href
  have hcopy := h₂.held.copy_eq hk₂
  rw [update_self] at hcopy
  -- the rest is computed: between the two assignments the entry is valid, but has no type
  refine wp_bind (Q := fun _ s' => s' = setBlock (setInode s₂ k { s₂.inode k with type := 0 })
    (iblock sb i) (writeDinode (s₂.disk (iblock sb i)) (i % ipb)
      { (v i).bare with size := 0, type := 0 })) ?_ ?_
  · refine wp_modify_bind (wp_get (wp_bread (wp_modify ?_)))
    rw [setInode_same, ← hk₂.inum, ← h₂.held.sb_eq]
    show setBlock _ _ (writeDinode _ _ { (s₂.inode k).toDinode with type := 0 }) = _
    rw [hcopy, hk₂.inum]
    rfl
  · rintro _ _ rfl
    refine wp_modify_bind (wp_modify ?_)
    rw [setInode_setBlock, setInode_setInode, setInode_setBlock, setInode_setInode, inode_setBlock,
      inode_setBlock, setInode_same, setInode_same]
    have hretire := h₂.held.retire hr hk₂ (d := { (v i).bare with size := 0, type := 0 }) rfl
      { s₂.inode k with type := 0, valid := false, locked := false } rfl rfl rfl rfl
    have hagree : ∀ c, c = sb.bmapstart ∨ c ∈ dataBlocks sb → update s₂.disk (iblock sb i)
        (writeDinode (s₂.disk (iblock sb i)) (i % ipb) { (v i).bare with size := 0, type := 0 }) c =
        s₂.disk c := fun c hc => update_of_ne (hr.ne_iblock (h.inum_lt hk) hc) _ _
    rw [update_idem] at hretire
    refine ⟨⟨hretire, fun l hl => ?_, ?_, fun c hc => ?_, fun c hc => ?_, fun j hj => ?_⟩, ?_, ?_⟩
    · rw [inode_setBlock, setInode_of_ne s₂ hl, h₂.others l hl, setInode_of_ne s hl]
    · rw [inode_setBlock, setInode_same]
      exact hk₂.inum
    · exact (hagree c (Or.inr hc)).trans (h₂.agree c hc)
    · exact (hr.used_congr (hagree _ (Or.inl rfl)) hc.1).trans (h₂.used c hc)
    · refine (dinode_update sb s₂.disk i j _).trans ?_
      rw [h₂.dinodes j hj]
      split_ifs <;> rfl
    · rw [inode_setBlock, setInode_same]
      exact href
    · rw [inode_setBlock, setInode_same]

/-- `iput` frees the inode with the last reference, if it has no links. -/
theorem iput_held (hr : Room sb n) (h : Held sb n none s v) (hpos : 0 < (s.inode k).ref)
    (hlock : (s.inode k).locked = true → 1 < (s.inode k).ref)
    (hE : (s.inode k).ref = 1 ∧ (s.inode k).valid = true ∧ (s.inode k).nlink = 0 →
      ∀ e, notFreeing e → E e) :
    wp (iput k) (fun _ s' => Touched sb n k (inums s k) s s' v ∨
      (s.inode k).ref = 1 ∧ Active s k (inums s k) ∧ (v (inums s k)).nlink = 0 ∧
      Emptied sb n k (inums s k) { (v (inums s k)).bare with size := 0, type := 0 }
        s s' v) E s := by
  refine wp_get (wp_bind (Q := fun _ t => t = s ∨
    (s.inode k).ref = 1 ∧ Active s k (inums s k) ∧ (v (inums s k)).nlink = 0 ∧
    Emptied sb n k (inums s k) { (v (inums s k)).bare with size := 0, type := 0 } s t v ∧
      (t.inode k).ref = 1 ∧ (t.inode k).locked = false) ?_ ?_)
  · apply wp_ite
    · rintro ⟨hone, hvalid, hnlink⟩
      have hk : Active s k (inums s k) := ⟨hpos, hvalid, rfl⟩
      refine wp_mono (iputLast_held hr h hk) ?_ (hE ⟨hone, hvalid, hnlink⟩)
      rintro _ t ⟨hempty, href, hlocked⟩
      have hnlink' : (v (inums s k)).nlink = 0 := by
        rw [← h.copy_eq hk]
        exact hnlink
      exact Or.inr ⟨hone, hk, hnlink', hempty, href.trans hone, hlocked⟩
    · exact fun _ => wp_pure (Or.inl rfl)
  · rintro _ t (rfl | ⟨hone, hk, hnlink, hempty, href, hlocked⟩)
    · refine wp_modify (Or.inl ?_)
      apply h.touch hpos
      intro hl
      have hmore := hlock hl
      exact ⟨by omega, (h.locked k hl).2⟩
    · refine wp_modify (Or.inr ⟨hone, hk, hnlink, ?_, fun l hl => ?_, ?_, hempty.agree, hempty.used,
        hempty.dinodes⟩)
      · apply hempty.held.setUse (by omega)
        intro hl
        rw [hlocked] at hl
        cases hl
      · rw [setInode_of_ne t hl, hempty.others l hl]
      · rw [setInode_same]
        exact hempty.inum

end RiscvBm.Fs

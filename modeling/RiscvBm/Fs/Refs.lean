import RiscvBm.Fs.Upper

/-!
# Reference counts of inodes

`ip->ref` counts the references to `ip`, and no inode has two entries in use. This
is an invariant in the sense of `Kept`, whatever the disk contains: most of the
lower half leaves the counts alone (`Keeps idents`), and `iget`, `idup` and `iput`
change them by one.
-/

namespace RiscvBm.Fs

open Wp Function

/-! ## §1  What changes no reference count -/

/-- What the counts are about: the number of references to an entry of `itable`,
which inode it is for and whether it is locked. -/
structure Ident where
  ref : ℤ
  dev : ℕ
  inum : ℕ
  locked : Bool

def Inode.ident (ip : Inode) : Ident := ⟨ip.ref, ip.dev, ip.inum, ip.locked⟩

def idents (s : St) : Ptr → Ident := fun k => (s.inode k).ident

variable {k : Ptr} {ip : Inode}

theorem idents_setInode {s : St} (h : ip.ident = (s.inode k).ident) :
    idents (setInode s k ip) = idents s := by
  funext j
  by_cases hj : j = k
  · subst hj
    simp [idents, setInode, h]
  · simp [idents, setInode, hj]

theorem keeps_bread (dev bno : ℕ) : Keeps idents (bread dev bno) :=
  keeps_get fun _ => keeps_pure _

theorem keeps_logWrite (bno : ℕ) (data : Bio.Data) : Keeps idents (logWrite bno data) :=
  keeps_modify fun _ => rfl

theorem keeps_ballocLoop (dev n b : ℕ) : Keeps idents (ballocLoop dev n b) := by
  induction n generalizing b with
  | zero => exact keeps_get fun _ => keeps_throw _
  | succ n ih =>
    refine keeps_get fun s => keeps_bind (keeps_bread _ _) fun bp => ?_
    cases findClear s.sb.size b bp bpb 0 with
    | none => exact ih _
    | some bi =>
      exact keeps_bind (keeps_logWrite _ _) fun _ =>
        keeps_bind (keeps_logWrite _ _) fun _ => keeps_pure _

theorem keeps_balloc (dev : ℕ) : Keeps idents (balloc dev) :=
  keeps_get fun _ => keeps_ballocLoop _ _ _

theorem keeps_bfree (dev bn : ℕ) : Keeps idents (bfree dev bn) :=
  keeps_get fun _ => keeps_bind (keeps_bread _ _) fun _ =>
    keeps_bind (keeps_require _ _) fun _ => keeps_logWrite _ _

theorem keeps_setAddr (k : Ptr) (i : Fin 13) (addr : ℕ) :
    Keeps idents (modify fun s => setAddr s k i addr : Prog Unit) :=
  keeps_modify fun _ => idents_setInode rfl

theorem keeps_putInode {f : Inode → Inode} (hf : ∀ ip, (f ip).ident = ip.ident) :
    Keeps idents (putInode k f) :=
  keeps_bind (keeps_modify fun _ => idents_setInode (hf _)) fun _ =>
    keeps_get fun _ => keeps_bind (keeps_bread _ _) fun _ => keeps_logWrite _ _

theorem keeps_truncDirect (k : Ptr) (i : ℕ) : Keeps idents (truncDirect k i) :=
  keeps_get fun _ => keeps_ite (keeps_pure _) <|
    keeps_bind (keeps_bfree _ _) fun _ => keeps_setAddr _ _ _

theorem keeps_truncEntry (dev : ℕ) (a : Bio.Data) (j : ℕ) : Keeps idents (truncEntry dev a j) :=
  keeps_ite (keeps_pure _) (keeps_bfree _ _)

theorem keeps_truncIndirect (k : Ptr) : Keeps idents (truncIndirect k) :=
  keeps_get fun _ => keeps_ite (keeps_pure _) <| keeps_bind (keeps_bread _ _) fun bp =>
    keeps_bind (keeps_forRange (keeps_truncEntry _ bp) _ _) fun _ =>
      keeps_bind (keeps_bfree _ _) fun _ => keeps_setAddr _ _ _

theorem keeps_itrunc (k : Ptr) : Keeps idents (itrunc k) :=
  keeps_bind (keeps_forRange (keeps_truncDirect k) _ _) fun _ =>
    keeps_bind (keeps_truncIndirect k) fun _ => keeps_putInode fun _ => rfl

theorem keeps_bmapAddr (k : Ptr) (i : Fin 13) : Keeps idents (bmapAddr k i) :=
  keeps_get fun _ => keeps_ite
    (keeps_bind (keeps_balloc _) fun _ => keeps_bind (keeps_setAddr _ _ _) fun _ => keeps_pure _)
    (keeps_pure _)

theorem keeps_bmap (k : Ptr) (bn : ℕ) : Keeps idents (bmap k bn) := by
  refine keeps_ite (keeps_bmapAddr _ _) (keeps_ite ?_ (keeps_throw _))
  refine keeps_bind (keeps_bmapAddr _ _) fun ind => keeps_get fun s => ?_
  refine keeps_bind (keeps_bread _ _) fun bp => keeps_ite ?_ (keeps_pure _)
  exact keeps_bind (keeps_balloc _) fun _ => keeps_bind (keeps_logWrite _ _) fun _ => keeps_pure _

theorem keeps_readiLoop (k : Ptr) (fuel off n : ℕ) : Keeps idents (readiLoop k fuel off n) := by
  induction fuel generalizing off n with
  | zero => exact keeps_pure _
  | succ fuel ih =>
    refine keeps_ite (keeps_pure _) (keeps_get fun s => keeps_bind (keeps_bmap _ _) fun bno => ?_)
    exact keeps_bind (keeps_bread _ _) fun _ => keeps_bind (ih _ _) fun _ => keeps_pure _

theorem keeps_readi (k : Ptr) (off n : ℕ) : Keeps idents (readi k off n) :=
  keeps_get fun _ => keeps_ite (keeps_pure _) (keeps_readiLoop _ _ _ _)

theorem keeps_writeiLoop (k : Ptr) (src : Src) (n fuel tot off : ℕ) :
    Keeps idents (writeiLoop k src n fuel tot off) := by
  induction fuel generalizing tot off with
  | zero => exact keeps_pure _
  | succ fuel ih =>
    refine keeps_ite (keeps_get fun s => keeps_bind (keeps_bmap _ _) fun bno => ?_) (keeps_pure _)
    refine keeps_bind (keeps_bread _ _) fun bp => keeps_bind (keeps_logWrite _ _) fun _ => ?_
    exact keeps_ite (ih _ _) (keeps_pure _)

theorem keeps_writei (k : Ptr) (src : Src) (off n : ℕ) : Keeps idents (writei k src off n) := by
  refine keeps_get fun s => keeps_ite (keeps_pure _) (keeps_ite (keeps_pure _) ?_)
  refine keeps_bind (keeps_writeiLoop _ _ _ _ _ _) fun r => ?_
  refine keeps_bind (keeps_putInode fun ip => ?_) fun _ => keeps_pure _
  split_ifs <;> rfl

theorem keeps_readDirent (dp : Ptr) (off : ℕ) (e : Panic) : Keeps idents (readDirent dp off e) :=
  keeps_bind (keeps_readi _ _ _) fun _ => keeps_bind (keeps_require _ _) fun _ => keeps_pure _

theorem keeps_writeDirent (dp : Ptr) (de : List UInt8) (off : ℕ) (e : Panic) :
    Keeps idents (writeDirent dp de off e) :=
  keeps_bind (keeps_writei _ _ _ _) fun _ => keeps_require _ _

theorem keeps_load (k : Ptr) : Keeps idents (load k) := by
  refine keeps_get fun s => keeps_bind (keeps_bread _ _) fun bp => ?_
  exact keeps_bind (keeps_modify fun _ => idents_setInode rfl) fun _ => keeps_require _ _

/-! ## §2  Counting -/

theorem setInode_same (s : St) (k : Ptr) (ip : Inode) : (setInode s k ip).inode k = ip :=
  update_self ..

theorem setInode_of_ne (s : St) {j k : Ptr} (h : j ≠ k) (ip : Inode) :
    (setInode s k ip).inode j = s.inode j :=
  update_of_ne h ..

/-- No inode has two entries in use. -/
def Uniq (s : St) : Prop :=
  ∀ j k, 0 < (s.inode j).ref → 0 < (s.inode k).ref → (s.inode j).dev = (s.inode k).dev →
    (s.inode j).inum = (s.inode k).inum → j = k

theorem Uniq.of_idents {s s' : St} (h : Uniq s) (hs : idents s' = idents s) : Uniq s' := by
  have hk : ∀ k, (s'.inode k).ident = (s.inode k).ident := congrFun hs
  intro i j hi hj hd hn
  refine h i j ?_ ?_ ?_ ?_
  · exact lt_of_lt_of_eq hi (congrArg Ident.ref (hk i))
  · exact lt_of_lt_of_eq hj (congrArg Ident.ref (hk j))
  · exact ((congrArg Ident.dev (hk i)).symm.trans hd).trans (congrArg Ident.dev (hk j))
  · exact ((congrArg Ident.inum (hk i)).symm.trans hn).trans (congrArg Ident.inum (hk j))

/-- An entry is set, and no other entry is for its inode. -/
theorem Uniq.setInode {s : St} (h : Uniq s)
    (hnew : 0 < ip.ref → ∀ j, j ≠ k → 0 < (s.inode j).ref → (s.inode j).dev = ip.dev →
      (s.inode j).inum ≠ ip.inum) : Uniq (setInode s k ip) := by
  intro i j hi hj hd hn
  by_cases hik : i = k
  · by_cases hjk : j = k
    · rw [hik, hjk]
    · subst hik
      simp only [Fs.setInode, update_self, update_of_ne hjk] at hi hj hd hn
      exact absurd hn.symm (hnew hi j hjk hj hd.symm)
  · by_cases hjk : j = k
    · subst hjk
      simp only [Fs.setInode, update_self, update_of_ne hik] at hi hj hd hn
      exact absurd hn (hnew hj i hik hi hd)
    · simp only [Fs.setInode, update_of_ne hik, update_of_ne hjk] at hi hj hd hn
      exact h i j hi hj hd hn

/-- The entry stays for the same inode. -/
theorem Uniq.setInode_same {s : St} (h : Uniq s)
    (hpos : 0 < ip.ref → 0 < (s.inode k).ref) (hdev : ip.dev = (s.inode k).dev)
    (hinum : ip.inum = (s.inode k).inum) : Uniq (Fs.setInode s k ip) :=
  h.setInode fun hip j hj hjpos hd hn =>
    hj (h j k hjpos (hpos hip) (hd.trans hdev) (hn.trans hinum))

/-- Every count is the number of references. -/
structure Counted (T : Multiset Ref) (L : Finset Ptr) (s : St) : Prop where
  ref : ∀ k, (s.inode k).ref = T.countP fun x => x.1 = k
  uniq : Uniq s
  locked : ∀ k, (s.inode k).locked = true ↔ k ∈ L

variable {T : Multiset Ref} {L : Finset Ptr} {s s' : St}

/-- Any error may end a call. -/
def anyError : Panic → Prop := fun _ => True

section

variable (h : Counted T L s)

include h

/-- The entry `k` gets another count or lock, and the counts and locks are right. -/
theorem Counted.set {T' : Multiset Ref} {L' : Finset Ptr}
    (href : ip.ref = T'.countP fun x => x.1 = k) (hlocked : ip.locked = true ↔ k ∈ L')
    (hT : ∀ j, j ≠ k → (T'.countP fun x => x.1 = j) = T.countP fun x => x.1 = j)
    (hL : ∀ j, j ≠ k → (j ∈ L ↔ j ∈ L')) (huniq : Uniq (setInode s k ip)) :
    Counted T' L' (setInode s k ip) := by
  refine ⟨fun j => ?_, huniq, fun j => ?_⟩ <;> by_cases hj : j = k
  · rw [hj, setInode_same, href]
  · rw [setInode_of_ne s hj, hT j hj, h.ref]
  · rw [hj, setInode_same, hlocked]
  · rw [setInode_of_ne s hj, h.locked, hL j hj]

theorem Counted.of_idents (hs : idents s' = idents s) : Counted T L s' := by
  have hk : ∀ k, (s'.inode k).ident = (s.inode k).ident := congrFun hs
  refine ⟨fun k => ?_, h.uniq.of_idents hs, fun k => ?_⟩
  · rw [← h.ref k]
    exact congrArg Ident.ref (hk k)
  · rw [← h.locked k]
    exact Iff.of_eq (congrArg (fun x => x.locked = true) (hk k))

theorem Counted.keeps {α : Type} {c : Prog α} (hc : Keeps idents c) :
    wp c (fun _ s' => Counted T L s') anyError s :=
  wp_post (hc s) fun _ _ hs' => h.of_idents hs'

/-- One more reference to `k`, for which the identity of its entry may be new. -/
theorem Counted.add (b : Bool)
    (hr : ip.ref = (s.inode k).ref + 1) (hl : ip.locked = (s.inode k).locked)
    (hnew : ∀ j, j ≠ k → 0 < (s.inode j).ref → (s.inode j).dev = ip.dev →
      (s.inode j).inum ≠ ip.inum) :
    Counted ((k, b) ::ₘ T) L (setInode s k ip) := by
  refine h.set ?_ ?_ (fun j hj => ?_) (fun _ _ => Iff.rfl) (h.uniq.setInode fun _ => hnew)
  · rw [Multiset.countP_cons, if_pos rfl, hr, h.ref, Nat.cast_succ]
  · rw [hl, h.locked]
  · exact Multiset.countP_cons_of_neg _ (Ne.symm hj)

/-- The lock of `k` is taken or released. -/
theorem Counted.setLocked {L' : Finset Ptr} (b : Bool)
    (hk : b = true ↔ k ∈ L') (hL : ∀ j, j ≠ k → (j ∈ L ↔ j ∈ L')) :
    Counted T L' (setInode s k { s.inode k with locked := b }) :=
  h.set (h.ref k) hk (fun _ _ => rfl) hL (h.uniq.setInode_same (fun hpos => hpos) rfl rfl)

theorem Counted.acquiresleep (k : Ptr) :
    wp (acquiresleep k) (fun _ s' => k ∉ L ∧ Counted T (insert k L) s') anyError s := by
  refine wp_get (wp_require_bind (fun hl => wp_modify ⟨fun hk => ?_, ?_⟩) fun _ => trivial)
  · rw [(h.locked k).mpr hk] at hl
    cases hl
  · exact h.setLocked true (by simp) fun j hj => by simp [hj]

theorem Counted.releasesleep (k : Ptr) :
    wp (releasesleep k) (fun _ s' => Counted T (L.erase k) s') anyError s :=
  wp_modify (h.setLocked false (by simp) fun j hj => by simp [hj])

theorem Counted.ilock (k : Ptr) :
    wp (ilock k) (fun _ s' => k ∉ L ∧ Counted T (insert k L) s') anyError s := by
  refine wp_get (wp_bind (h.keeps (keeps_require _ _)) fun _ s hs => ?_)
  refine wp_bind (hs.acquiresleep k) ?_
  rintro _ s ⟨hk, hs⟩
  refine wp_ite (fun _ => wp_pure ⟨hk, hs⟩) (fun _ => ?_)
  exact wp_post (hs.keeps (keeps_load k)) fun _ s hs => ⟨hk, hs⟩

theorem Counted.iunlock (k : Ptr) :
    wp (iunlock k) (fun _ s' => Counted T (L.erase k) s') anyError s :=
  wp_get (wp_bind (h.keeps (keeps_require _ _)) fun _ _ hs => hs.releasesleep k)

theorem Counted.iputLast (k : Ptr) :
    wp (iputLast k) (fun _ s' => Counted T L s') anyError s := by
  refine wp_bind (h.acquiresleep k) ?_
  rintro _ s ⟨hk, hs⟩
  refine wp_bind (hs.keeps (keeps_itrunc k)) fun _ s hs => ?_
  refine wp_bind (hs.keeps (keeps_putInode fun _ => rfl)) fun _ s hs => ?_
  refine wp_bind (hs.keeps (keeps_modify fun _ => idents_setInode rfl)) fun _ s hs => ?_
  refine wp_post (hs.releasesleep k) fun _ s hs => ?_
  rwa [Finset.erase_insert hk] at hs

/-- What `iget` does: another reference to the entry for the inode, or a new entry. -/
structure Got (s : St) (dev inum : ℕ) (k : Ptr) (ip : Inode) : Prop where
  dev_eq : ip.dev = dev
  inum_eq : ip.inum = inum
  ref : ip.ref = (s.inode k).ref + 1
  locked : ip.locked = (s.inode k).locked
  entry : ip = { s.inode k with ref := (s.inode k).ref + 1 } ∧ 0 < (s.inode k).ref ∨
    ip.valid = false ∧ (s.inode k).ref = 0
  other : ∀ j, j ≠ k → 0 < (s.inode j).ref → (s.inode j).dev = dev → (s.inode j).inum ≠ inum

omit h in
theorem iget_spec (huniq : Uniq s) (dev inum : ℕ) :
    wp (iget dev inum) (fun k s' => ∃ ip, Got s dev inum k ip ∧ s' = setInode s k ip)
      (fun e => e = .iget ∧ ∀ k, (s.inode k).ref ≠ 0) s := by
  refine wp_get ?_
  cases hfind : (List.finRange ninode).find? fun k =>
      0 < (s.inode k).ref ∧ (s.inode k).dev = dev ∧ (s.inode k).inum = inum with
  | some k =>
    have hk := List.find?_some hfind
    simp only [decide_eq_true_eq] at hk
    obtain ⟨hpos, rfl, rfl⟩ := hk
    refine wp_modify_bind (wp_pure ⟨{ s.inode k with ref := (s.inode k).ref + 1 }, ?_, rfl⟩)
    refine ⟨rfl, rfl, rfl, rfl, Or.inl ⟨rfl, hpos⟩, ?_⟩
    exact fun j hj hpos' hd hn => hj (huniq j k hpos' hpos hd hn)
  | none =>
    have hnone := List.find?_eq_none.mp hfind
    cases hfree : (List.finRange ninode).find? fun k => (s.inode k).ref = 0 with
    | none =>
      refine wp_throw ⟨rfl, fun k hk => ?_⟩
      exact List.find?_eq_none.mp hfree k (List.mem_finRange k) (by simpa using hk)
    | some k =>
      have hk := List.find?_some hfree
      simp only [decide_eq_true_eq] at hk
      refine wp_modify_bind (wp_pure
        ⟨{ s.inode k with dev := dev, inum := inum, ref := 1, valid := false }, ?_, rfl⟩)
      refine ⟨rfl, rfl, by simp [hk], rfl, Or.inr ⟨rfl, hk⟩, ?_⟩
      intro j _ hpos hd hn
      exact hnone j (List.mem_finRange j) (by simpa using ⟨hpos, hd, hn⟩)

theorem Counted.got {dev inum : ℕ} (hip : Got s dev inum k ip) (b : Bool) :
    Counted ((k, b) ::ₘ T) L (setInode s k ip) := by
  refine h.add b hip.ref hip.locked fun j hj hpos hd => ?_
  rw [hip.inum_eq]
  exact hip.other j hj hpos (hd.trans hip.dev_eq)

theorem Counted.iget (dev inum : ℕ) (b : Bool) :
    wp (iget dev inum) (fun k s' => Counted ((k, b) ::ₘ T) L s') anyError s := by
  refine wp_mono (iget_spec h.uniq dev inum) ?_ (fun _ _ => trivial)
  rintro k _ ⟨ip, hip, rfl⟩
  exact h.got hip b

theorem Counted.ref_pos (hk : HasRef T k) :
    0 < (s.inode k).ref := by
  obtain ⟨b, hb⟩ := hk
  have hcount : 0 < T.countP fun x => x.1 = k := Multiset.countP_pos.mpr ⟨_, hb, rfl⟩
  rw [h.ref k]
  omega

omit h in
/-- The reference that is dropped is not the last one. -/
theorem Counted.one_lt {b : Bool} (h : Counted ((k, b) ::ₘ T) L s) (hk : HasRef T k) :
    1 < (s.inode k).ref := by
  obtain ⟨b', hb'⟩ := hk
  have hcount : 0 < T.countP fun x => x.1 = k := Multiset.countP_pos.mpr ⟨_, hb', rfl⟩
  rw [h.ref k, Multiset.countP_cons, if_pos rfl]
  omega

omit h in
theorem Counted.one_lt_of_locked {b : Bool} (h : Counted ((k, b) ::ₘ T) L s)
    (hk : k ∉ L ∨ HasRef T k) (hl : (s.inode k).locked = true) : 1 < (s.inode k).ref :=
  h.one_lt (hk.resolve_left (not_not.mpr ((h.locked k).mp hl)))

theorem Counted.idup (hk : 0 < (s.inode k).ref)
    (b : Bool) :
    wp (idup k) (fun r s' => r = k ∧ Counted ((k, b) ::ₘ T) L s') anyError s := by
  refine wp_modify_bind (wp_pure ⟨rfl, h.add b rfl rfl ?_⟩)
  intro j hj hpos hd hn
  exact hj (h.uniq j k hpos hk hd hn)

omit h in
theorem Counted.iput {b : Bool} (h : Counted ((k, b) ::ₘ T) L s) :
    wp (iput k) (fun _ s' => Counted T L s') anyError s := by
  refine wp_get (wp_bind (Q := fun _ s' => Counted ((k, b) ::ₘ T) L s') ?_ ?_)
  · exact wp_ite (fun _ => h.iputLast k) (fun _ => wp_pure h)
  · intro _ s hs
    have hcount := hs.ref k
    rw [Multiset.countP_cons, if_pos rfl, Nat.cast_succ] at hcount
    refine wp_modify (hs.set ?_ (hs.locked k) (fun j hj => ?_) (fun _ _ => Iff.rfl)
      (hs.uniq.setInode_same (fun _ => ?_) rfl rfl))
    · show (s.inode k).ref - 1 = _
      omega
    · rw [Multiset.countP_cons, if_neg (Ne.symm hj), Nat.add_zero]
    · omega

theorem Counted.iallocLoop (dev : ℕ) (type : BitVec 16) (n inum : ℕ)
    (b : Bool) :
    wp (iallocLoop dev type n inum) (fun k s' => Counted ((k, b) ::ₘ T) L s') anyError s := by
  induction n generalizing inum with
  | zero => exact wp_throw trivial
  | succ n ih =>
    refine wp_get (wp_bind (Q := fun _ s' => s = s') (wp_get (wp_pure rfl)) ?_)
    rintro bp _ rfl
    refine wp_ite (fun _ => ?_) (fun _ => ih _)
    exact wp_bind (h.keeps (keeps_logWrite _ _)) fun _ t ht => ht.iget _ _ b

end

theorem Counted.flag {b : Bool} (h : Counted ((k, b) ::ₘ T) L s) (c : Bool) :
    Counted ((k, c) ::ₘ T) L s :=
  ⟨fun j => by simpa [Multiset.countP_cons] using h.ref j, h.uniq, h.locked⟩

/-- The counts are an invariant of the calls on paths, whatever is on the disk. -/
theorem counted_kept : Kept Counted (fun _ => True) anyError where
  err _ _ := trivial
  root hs := hs.iget _ _ false
  idup hs hk := hs.idup (hs.ref_pos hk) false
  iput hs _ := hs.iput
  ilock hs := hs.ilock _
  iunlock hs := hs.iunlock _
  learn hs _ _ := hs.flag true
  forget hs := hs.flag false
  ialloc hs _ _ := wp_get (hs.iallocLoop _ _ _ _ _)
  put hs _ hf := hs.keeps (keeps_putInode fun ip => by
    obtain ⟨_, _, _, hip⟩ := hf ip
    rw [hip]
    rfl)
  itrunc hs _ := hs.keeps (keeps_itrunc _)
  writei hs _ _ := hs.keeps (keeps_writei _ _ _ _)
  readDirent hs _ _ _ := wp_post (hs.keeps (keeps_readDirent _ _ _))
    fun _ _ hs' => ⟨hs', fun _ => ⟨Or.inr fun _ => trivial, trivial⟩⟩
  iget hs _ _ := hs.iget _ _ false
  inum _ _ := trivial
  writeDirent hs _ _ _ _ := hs.keeps (keeps_writeDirent _ _ _ _)

end RiscvBm.Fs

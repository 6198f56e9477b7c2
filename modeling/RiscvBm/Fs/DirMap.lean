import RiscvBm.Fs.View
import RiscvBm.Lib.Transition

/-!
# Directories are finite maps

A directory is a list of slots for entries, and an entry with the inode number 0 is not used.
What `dirlookup`, `dirlink` and the removal of an entry do is stated with the map from names
to inode numbers that the slots stand for (`toMap`); names are cut to `DIRSIZ` bytes.

`DirAt` is what is known about a directory while the functions run, and `Read` is what reading
it may change: blocks for its holes, and nothing else. The panics that remain are "out of
blocks" with fewer free blocks than the directory lacks, and "no inodes" with a full `itable`.
-/

namespace RiscvBm.Fs

open Bio (bsize Data)
open Bytes Slots Transition Wp Function

/-! ## §1  The map of a directory -/

def isUsed (e : ℕ × List UInt8) : Bool := decide (e.1 ≠ 0)

/-- The inode number of a name. -/
def toMap (es : List (ℕ × List UInt8)) (name : List UInt8) : Option ℕ :=
  (lookup isUsed Prod.snd es name).map Prod.fst

/-- The entries of the directory at `dp`. -/
def entries (s : St) (dp : Ptr) : List (ℕ × List UInt8) := (s.inode dp).toDinode.ents s.disk

variable {sb : Superblock} {n : ℕ} {v v' : ℕ → Dinode} {i m N : ℕ} {s s' : St} {k dp : Ptr}
  {es : List (ℕ × List UInt8)} {name : List UInt8} {E : Panic → Prop}

theorem isUsed_iff {e : ℕ × List UInt8} : isUsed e = true ↔ e.1 ≠ 0 := decide_eq_true_iff

theorem toMap_eq_none : toMap es name = none ↔ ∀ e ∈ es, e.1 ≠ 0 → e.2 ≠ name := by
  rw [toMap, Option.map_eq_none_iff, lookup_eq_none]
  simp only [isUsed_iff]

theorem map_fst_update (f : List UInt8 → Option (ℕ × List UInt8)) (x : List UInt8)
    (o : Option (ℕ × List UInt8)) :
    (fun name => (update f x o name).map Prod.fst) =
      update (fun name => (f name).map Prod.fst) x (o.map Prod.fst) := by
  funext name
  exact apply_update (fun _ => Option.map Prod.fst) f x o name

theorem toMap_place (h : Distinct isUsed Prod.snd es) (hm : m ≤ es.length)
    (hfree : ∀ e, es[m]? = some e → e.1 = 0) (hi : i ≠ 0) (hfresh : toMap es name = none) :
    toMap (place es m (i, name)) = update (toMap es) name (some i) := by
  have hplace := lookup_place (a := (i, name)) h hm ?_ (isUsed_iff.mpr hi)
    (Option.map_eq_none_iff.mp hfresh)
  · refine Eq.trans ?_ (map_fst_update (lookup isUsed Prod.snd es) name (some (i, name)))
    funext x
    rw [toMap, hplace]
  · intro e he
    rw [isUsed, hfree e he]
    rfl

theorem toMap_clear (h : Distinct isUsed Prod.snd es) {e : ℕ × List UInt8}
    (hget : es[m]? = some e) (hne : e.1 ≠ 0) (x : List UInt8) :
    toMap (place es m (0, x)) = update (toMap es) e.2 none := by
  have hclear := lookup_clear (a := (0, x)) h hget (isUsed_iff.mpr hne) rfl
  refine Eq.trans ?_ (map_fst_update (lookup isUsed Prod.snd es) e.2 none)
  funext y
  rw [toMap, hclear]

/-! ## §2  Reading a directory -/

/-- `dp` is a valid entry of `itable` for the directory `i` with the entries `es`. -/
structure DirAt (sb : Superblock) (n : ℕ) (dp : Ptr) (i : ℕ) (es : List (ℕ × List UInt8)) (s : St)
    (v : ℕ → Dinode) : Prop where
  held : Held sb n none s v
  active : Active s dp i
  type : (v i).type = tDir
  shape : (v i).Shape
  ents : (v i).ents s.disk = es

section

variable (h : DirAt sb n dp i es s v)

include h

theorem DirAt.size_eq :
    (v i).size.toNat = direntSize * es.length := by
  have hmod := h.shape.mod
  rw [← h.ents, Dinode.length_ents h.type]
  rw [direntSize_eq] at *
  omega

theorem DirAt.entries_eq : entries s dp = es := by
  rw [entries, h.held.copy_eq h.active, h.ents]

theorem DirAt.direntRounds_eq : direntRounds s dp = es.length := by
  have hsize := h.size_eq
  rw [direntRounds, h.held.copy_eq h.active, hsize, direntSize_eq]
  omega

/-- The directory has the entries `es` now, and blocks for what it needs below `N`. -/
structure Settled (sb : Superblock) (n N : ℕ) (dp : Ptr) (i : ℕ) (es : List (ℕ × List UInt8))
    (s : St) (v : ℕ → Dinode) (s' : St) (v' : ℕ → Dinode) : Prop where
  dir : DirAt sb n dp i es s' v'
  same : idents s' = idents s
  space : avail sb s'.disk + lack N s.disk (v i) = avail sb s.disk + lack N s'.disk (v' i)

/-- The directory was read, and may have got blocks for its holes. -/
structure Read (sb : Superblock) (n N : ℕ) (dp : Ptr) (i : ℕ) (es : List (ℕ × List UInt8)) (s : St)
    (v : ℕ → Dinode) (s' : St)
    (v' : ℕ → Dinode) : Prop extends Settled sb n N dp i es s v s' v' where
  still : (v i).Filled s.disk (v i).size.toNat → s' = s

theorem Read.refl : Read sb n N dp i es s v s v :=
  ⟨⟨h, rfl, rfl⟩, fun _ => rfl⟩

end

theorem Read.trans {t : St} {w : ℕ → Dinode} (h₁ : Read sb n N dp i es s v s' v')
    (h₂ : Read sb n N dp i es s' v' t w) (h : DirAt sb n dp i es s v) :
    Read sb n N dp i es s v t w := by
  refine ⟨⟨h₂.dir, h₂.same.trans h₁.same, ?_⟩, ?_⟩
  · have := h₁.space
    have := h₂.space
    omega
  · intro hfilled
    obtain rfl := h₁.still hfilled
    apply h₂.still
    rw [← h₁.dir.held.copy_eq h₁.dir.active, h.held.copy_eq h.active]
    exact hfilled

/-- What `dirlookup` and `dirlink` can panic with. -/
def Exhausted (sb : Superblock) (N i : ℕ) (s : St) (v : ℕ → Dinode) (e : Panic) : Prop :=
  Short sb N s.disk (v i) e ∨ e = .iget ∧ ∀ k, (s.inode k).ref ≠ 0

theorem ref_of_idents (h : idents s' = idents s) (k : Ptr) :
    (s'.inode k).ref = (s.inode k).ref :=
  congrArg Ident.ref (congrFun h k)

theorem Settled.exhausted (h : Settled sb n N dp i es s v s' v') {e : Panic}
    (he : Exhausted sb N i s' v' e) : Exhausted sb N i s v e := by
  rcases he with ⟨he, hlt⟩ | ⟨he, hfull⟩
  · have := h.space
    exact Or.inl ⟨he, by omega⟩
  · refine Or.inr ⟨he, fun k => ?_⟩
    rw [← ref_of_idents h.same]
    exact hfull k

theorem Changed.idents_eq {dirty : Option ℕ} (h : Changed sb n dirty N dp i s v s' v') :
    idents s' = idents s := by
  funext k
  by_cases hk : k = dp
  · rw [hk]
    exact h.ident
  · exact congrArg Inode.ident (h.entries k hk)

theorem Extended.settled (h : DirAt sb n dp i es s v) (hext : Extended sb n none N dp i s v s' v') :
    Settled sb n N dp i es s v s' v' := by
  obtain ⟨hmod, hle⟩ := h.shape
  rw [← hext.size] at hmod hle
  have hino := Grows.ino (fun _ => hext.grows) hext.type hext.nlink hext.size fun _ => h.shape
  refine ⟨⟨hext.held, hext.active, hext.type.trans h.type, ⟨hmod, hle⟩, ?_⟩, hext.idents_eq,
    hext.space⟩
  exact (congrArg Ino.ents hino).trans h.ents

section Loops

variable (hr : Room sb n) (hN : N ≤ maxfile) (hlen : direntSize * es.length ≤ N * bsize)
include hr hN hlen

variable (h : DirAt sb n dp i es s v)

include h

theorem DirAt.readDirent (hm : m < es.length) (e : Panic) :
    wp (readDirent dp (direntSize * m) e) (fun de s' => ∃ v', Read sb n N dp i es s v s' v' ∧
      es[m]? = some (entryOf de)) (Exhausted sb N i s v) s := by
  have hm' : m < (v i).size.toNat / direntSize := by
    rw [h.size_eq, Nat.mul_div_cancel_left _ (by decide)]
    exact hm
  have hread := readDirent_held hr hN (h.size_eq ▸ hlen) h.held h.active hm' e
  refine wp_mono hread ?_ fun _ he => Or.inl he
  rintro _ s' ⟨⟨v', hext⟩, rfl, hstill⟩
  refine ⟨v', ⟨hext.settled h, hstill⟩, ?_⟩
  rw [← h.ents]
  exact Dinode.getElem?_ents h.type hm'

/-- What `dirlookup` returns, and the state when it has found the entry. -/
def FoundIn (es : List (ℕ × List UInt8)) (name : List UInt8) (s : St) :
    Option (Ptr × ℕ) → St → Prop
  | none, s' => s' = s ∧ ∀ e ∈ es, e.1 ≠ 0 → e.2 ≠ name
  | some (k, off), s' => ∃ m e ip, off = direntSize * m ∧ es[m]? = some e ∧
      lookup isUsed Prod.snd es name = some e ∧ Got s rootdev e.1 k ip ∧ s' = setInode s k ip

theorem DirAt.dirlookupLoop {c : ℕ} (hmc : m + c = es.length)
    (hbefore : ∀ j < m, ∀ e : ℕ × List UInt8, es[j]? = some e → e.1 ≠ 0 → e.2 ≠ canon name) :
    wp (dirlookupLoop dp name c (direntSize * m)) (fun r s' => ∃ s₁ v₁,
      Read sb n N dp i es s v s₁ v₁ ∧ FoundIn es (canon name) s₁ r s')
      (Exhausted sb N i s v) s := by
  induction c generalizing m s v with
  | zero =>
    refine wp_pure ⟨s, v, Read.refl h, rfl, ?_⟩
    intro e he
    obtain ⟨j, hj, hget⟩ := List.mem_iff_getElem.mp he
    exact hbefore j (by omega) e (List.getElem?_eq_some_iff.mpr ⟨hj, hget⟩)
  | succ c ih =>
    refine wp_bind (h.readDirent hr hN hlen (by omega) _) ?_
    rintro de s₁ ⟨v₁, hread, hget⟩
    apply wp_ite
    · rintro ⟨hne, hname⟩
      apply wp_get
      rw [hread.dir.held.dev dp hread.dir.active.ref]
      refine wp_bind (wp_error (iget_spec hread.dir.held.uniq _ _)
        fun _ he => hread.exhausted (Or.inr he)) ?_
      rintro k _ ⟨ip, hgot, rfl⟩
      refine wp_pure ⟨s₁, v₁, hread, m, _, ip, rfl, hget, ?_, hgot, rfl⟩
      refine lookup_of_first (fun j hj e he hused => ?_) hget (isUsed_iff.mpr hne)
        (nameEq_iff.mp hname).symm
      exact hbefore j hj e he (isUsed_iff.mp hused)
    · intro hno
      rw [← Nat.mul_succ]
      have hrest := ih hread.dir (m := m + 1) (by omega) ?_
      · refine wp_mono hrest ?_ fun _ he => hread.exhausted he
        rintro r s' ⟨s₂, v₂, hread₂, hfound⟩
        exact ⟨s₂, v₂, hread.trans hread₂ h, hfound⟩
      · intro j hj e hget' hne hname
        rcases Nat.lt_succ_iff_lt_or_eq.mp hj with hlt | rfl
        · exact hbefore j hlt e hget' hne hname
        · rw [hget] at hget'
          obtain rfl := Option.some.inj hget'
          exact hno ⟨hne, nameEq_iff.mpr hname.symm⟩

theorem DirAt.dirlookup (name : List UInt8) :
    wp (dirlookup dp name) (fun r s' => ∃ s₁ v₁, Read sb n N dp i es s v s₁ v₁ ∧
      FoundIn es (canon name) s₁ r s') (Exhausted sb N i s v) s := by
  have htype : (s.inode dp).type = tDir := by
    rw [h.held.copy_eq h.active]
    exact h.type
  apply wp_get
  refine wp_require_bind (fun _ => ?_) fun hne => ?_
  · rw [h.direntRounds_eq]
    exact h.dirlookupLoop hr hN hlen (m := 0) (Nat.zero_add _)
      fun j hj => absurd hj (Nat.not_lt_zero j)
  · rw [htype] at hne
    cases hne

/-- The first slot that is not used, or the end of the directory. -/
theorem DirAt.findFreeDirent {c : ℕ} (hmc : m + c = es.length) :
    wp (findFreeDirent dp c (direntSize * m)) (fun off s' => ∃ m v', off = direntSize * m ∧
      m ≤ es.length ∧ (∀ e, es[m]? = some e → e.1 = 0) ∧ Read sb n N dp i es s v s' v')
      (Exhausted sb N i s v) s := by
  induction c generalizing m s v with
  | zero =>
    refine wp_pure ⟨m, v, rfl, by omega, ?_, Read.refl h⟩
    intro e he
    rw [List.getElem?_eq_none (by omega)] at he
    cases he
  | succ c ih =>
    refine wp_bind (h.readDirent hr hN hlen (by omega) _) ?_
    rintro de s₁ ⟨v₁, hread, hget⟩
    apply wp_ite
    · intro h0
      refine wp_pure ⟨m, v₁, rfl, by omega, ?_, hread⟩
      intro e he
      rw [hget] at he
      obtain rfl := Option.some.inj he
      exact h0
    · intro _
      rw [← Nat.mul_succ]
      refine wp_mono (ih hread.dir (m := m + 1) (by omega)) ?_ fun _ he => hread.exhausted he
      rintro off s' ⟨m', v', hoff, hm', hfree, hread'⟩
      exact ⟨m', v', hoff, hm', hfree, hread.trans hread' h⟩

end Loops

/-! ## §3  Writing an entry -/

/-- An entry was written: the directory is one with other entries. -/
theorem DirAt.writeDirent (hr : Room sb n) (hN : N ≤ maxfile) (h : DirAt sb n dp i es s v)
    (hm : m ≤ es.length) (hend : direntSize * m + direntSize ≤ N * bsize) (de : List UInt8)
    (e : Panic) :
    wp (writeDirent dp de (direntSize * m) e)
      (fun _ s' => ∃ v', Changed sb n none N dp i s v s' v' ∧
      DirAt sb n dp i (place es m (entryOf de)) s' v') (Short sb N s.disk (v i)) s := by
  have hm' : m ≤ (v i).size.toNat / direntSize := by
    rw [h.size_eq, Nat.mul_div_cancel_left _ (by decide)]
    exact hm
  refine wp_post (writeDirent_held hr hN hend h.held h.active hm' de e) ?_
  rintro _ s' ⟨v', hch, hsize, hst⟩
  have htype : (v' i).type = tDir := hch.type.trans h.type
  have hle : (v' i).size.toNat ≤ maxfile * bsize := by
    rw [hsize]
    exact max_le h.shape.le (hend.trans (Nat.mul_le_mul_right _ hN))
  refine ⟨v', hch, hch.held, hch.active, htype, ⟨?_, hle⟩, ?_⟩
  · have hmod := h.shape.mod
    rw [hsize]
    rw [direntSize_eq] at *
    omega
  · rw [hst.ents h.type htype hm' hsize hle, h.ents]

/-! ## §4  The references that `dirlookup` takes -/

/-- `iput` of the entry gives a reference back and does nothing else. -/
structure Quiet (s : St) (k : Ptr) : Prop where
  ref : 0 < (s.inode k).ref
  locked : (s.inode k).locked = true → 1 < (s.inode k).ref
  last : (s.inode k).ref = 1 → (s.inode k).valid = false

theorem Held.quiet_got (h : Held sb n none s v) {ip : Inode} (hgot : Got s rootdev i k ip) :
    Quiet (setInode s k ip) k := by
  refine ⟨?_, ?_, ?_⟩ <;> rw [setInode_same]
  · rcases hgot.entry with ⟨rfl, hpos⟩ | ⟨-, href⟩
    · show 0 < (s.inode k).ref + 1
      omega
    · rw [hgot.ref, href]
      decide
  · intro hl
    rw [hgot.locked] at hl
    have hpos := (h.locked k hl).1
    rw [hgot.ref]
    omega
  · intro hone
    rcases hgot.entry with ⟨-, hpos⟩ | ⟨hvalid, -⟩
    · rw [hgot.ref] at hone
      omega
    · exact hvalid

theorem Changed.quiet {l : Ptr} (h : Changed sb n none N dp i s v s' v') (hdp : Active s dp i)
    (hq : Quiet s l) : Quiet s' l := by
  by_cases hl : l = dp
  · subst hl
    have href : (s'.inode l).ref = (s.inode l).ref := congrArg Ident.ref h.ident
    have hlocked : (s'.inode l).locked = (s.inode l).locked := congrArg Ident.locked h.ident
    refine ⟨href ▸ hq.ref, ?_, ?_⟩
    · rw [hlocked, href]
      exact hq.locked
    · intro hone
      have hvalid := hq.last (href ▸ hone)
      rw [hdp.valid] at hvalid
      cases hvalid
  · refine ⟨?_, ?_, ?_⟩ <;> rw [h.entries l hl]
    · exact hq.ref
    · exact hq.locked
    · exact hq.last

theorem DirAt.got (h : DirAt sb n dp i es s v) {j : ℕ} {ip : Inode} (hgot : Got s rootdev j k ip) :
    DirAt sb n dp i es (setInode s k ip) v := by
  refine ⟨h.held.got hgot, ?_, h.type, h.shape, h.ents⟩
  by_cases hk : dp = k
  · subst hk
    rcases hgot.entry with ⟨rfl, hpos⟩ | ⟨-, href⟩
    · refine ⟨?_, ?_, ?_⟩ <;> rw [setInode_same]
      · show 0 < (s.inode dp).ref + 1
        omega
      · exact h.active.valid
      · exact h.active.inum
    · have hpos := h.active.ref
      omega
  · refine ⟨?_, ?_, ?_⟩ <;> rw [setInode_of_ne s hk]
    · exact h.active.ref
    · exact h.active.valid
    · exact h.active.inum

theorem DirAt.iput (h : DirAt sb n dp i es s v) (hq : Quiet s k) :
    wp (iput k) (fun _ s' => DirAt sb n dp i es s' v) E s := by
  apply wp_get
  dsimp only
  rw [if_neg]
  · apply wp_pure_bind
    apply wp_modify
    have hheld : Held sb n none
        (setInode s k { s.inode k with ref := (s.inode k).ref - 1 }) v := by
      apply h.held.setUse hq.ref
      intro hl
      have hmore := hq.locked hl
      exact ⟨by omega, (h.held.locked k hl).2⟩
    refine ⟨hheld, ?_, h.type, h.shape, h.ents⟩
    by_cases hk : dp = k
    · subst hk
      refine ⟨?_, ?_, ?_⟩ <;> rw [setInode_same]
      · have hpos := hq.ref
        have hone : (s.inode dp).ref ≠ 1 := by
          intro hone
          have hvalid := hq.last hone
          rw [h.active.valid] at hvalid
          cases hvalid
        show 0 < (s.inode dp).ref - 1
        omega
      · exact h.active.valid
      · exact h.active.inum
    · refine ⟨?_, ?_, ?_⟩ <;> rw [setInode_of_ne s hk]
      · exact h.active.ref
      · exact h.active.valid
      · exact h.active.inum
  · rintro ⟨hone, hvalid, -⟩
    rw [hq.last hone] at hvalid
    cases hvalid

/-! ## §5  `dirlink` -/

/-- `dirlink`, with room for one more entry in the blocks below `N`, or `N` the maximum. -/
theorem DirAt.dirlink (hr : Room sb n) (hN : N ≤ maxfile)
    (hlen : direntSize * es.length ≤ N * bsize)
    (hroom : N < maxfile → direntSize * es.length + direntSize ≤ N * bsize)
    (h : DirAt sb n dp i es s v) (name : List UInt8) {inum : ℕ} (hinum : inum < 65536) :
    wp (dirlink dp name inum) (fun r s' =>
      (r = 0 ∧ toMap es (canon name) = none ∧ ∃ m v', m ≤ es.length ∧
        (∀ e, es[m]? = some e → e.1 = 0) ∧
        Settled sb n N dp i (place es m (inum, canon name)) s v s' v') ∨
      (r = -1 ∧ toMap es (canon name) ≠ none ∧ ∃ v', DirAt sb n dp i es s' v'))
      (fun e => Exhausted sb N i s v e ∨
        e = .dirlink ∧ maxfile * bsize < direntSize * es.length + direntSize) s := by
  refine wp_bind (wp_error (h.dirlookup hr hN hlen name) fun _ => Or.inl) ?_
  rintro (_ | ⟨k, off⟩) s' ⟨s₁, v₁, hread, hfound⟩
  · obtain ⟨rfl, hfresh⟩ := hfound
    apply wp_get
    rw [hread.dir.direntRounds_eq]
    have hfree := hread.dir.findFreeDirent hr hN hlen (m := 0) (Nat.zero_add _)
    refine wp_bind (wp_error hfree fun _ he => Or.inl (hread.exhausted he)) ?_
    rintro _ s₂ ⟨m, v₂, rfl, hm, hunused, hread₂⟩
    have hread' := hread.trans hread₂ h
    have hle : direntSize * m + direntSize ≤ direntSize * es.length + direntSize := by
      rw [direntSize_eq]
      omega
    by_cases hend : direntSize * m + direntSize ≤ N * bsize
    swap
    · have hmax : N = maxfile := le_antisymm hN (not_lt.mp fun hlt => hend (hle.trans (hroom hlt)))
      rw [hmax, not_le] at hend
      have hm' : m ≤ (v₂ i).size.toNat / direntSize := by
        rw [hread₂.dir.size_eq, Nat.mul_div_cancel_left _ (by decide)]
        exact hm
      refine wp_bind (wp_error (writeDirent_refused hread₂.dir.held hread₂.dir.active hm' hend _ _)
        fun _ he => Or.inr ⟨he, lt_of_lt_of_le hend hle⟩) fun _ _ => False.elim
    have hwrite := hread₂.dir.writeDirent hr hN hm hend (dirent name inum) .dirlink
    refine wp_bind (wp_error hwrite fun _ he =>
      Or.inl (hread'.exhausted (Or.inl he))) ?_
    rintro _ s₃ ⟨v₃, hch, hdir⟩
    rw [entryOf_dirent name hinum] at hdir
    refine wp_pure (Or.inl ⟨rfl, toMap_eq_none.mpr hfresh, m, v₃, hm, hunused, hdir, ?_, ?_⟩)
    · exact hch.idents_eq.trans hread'.same
    · have := hread'.space
      have := hch.space
      omega
  · -- the name is there: its reference is given back
    obtain ⟨m, e, ip, -, -, hlook, hgot, rfl⟩ := hfound
    refine wp_bind ((hread.dir.got hgot).iput (hread.dir.held.quiet_got hgot)) ?_
    intro _ s₂ hdir
    refine wp_pure (Or.inr ⟨rfl, ?_, v₁, hdir⟩)
    rw [toMap, hlook, Option.map_some]
    exact Option.some_ne_none _

/-! ## §6  Directories -/

/-- `dp` is a valid entry for a directory whose used entries have different names, in a state
in which blocks are owned. -/
structure Directory (sb : Superblock) (n : ℕ) (dp : Ptr) (s : St) : Prop where
  held : ∃ v, Held sb n none s v
  ref : 0 < (s.inode dp).ref
  valid : (s.inode dp).valid = true
  type : (s.inode dp).type = tDir
  shape : (s.inode dp).Shape
  distinct : Distinct isUsed Prod.snd (entries s dp)

theorem Directory.dirAt (h : Directory sb n dp s) :
    ∃ v, DirAt sb n dp (s.inode dp).inum (entries s dp) s v ∧
      v (s.inode dp).inum = (s.inode dp).toDinode := by
  obtain ⟨v, hheld⟩ := h.held
  have hactive : Active s dp (s.inode dp).inum := ⟨h.ref, h.valid, rfl⟩
  have hcopy := hheld.copy_eq hactive
  exact ⟨v, ⟨hheld, hactive, hcopy ▸ h.type, hcopy ▸ h.shape, hcopy ▸ rfl⟩, hcopy.symm⟩

theorem DirAt.directory (h : DirAt sb n dp i es s v) (hd : Distinct isUsed Prod.snd es) :
    Directory sb n dp s := by
  have hcopy := h.held.copy_eq h.active
  refine ⟨⟨v, h.held⟩, h.active.ref, h.active.valid, ?_, ?_, ?_⟩
  · exact (congrArg Dinode.type hcopy).trans h.type
  · rw [hcopy]
    exact h.shape
  · rw [h.entries_eq]
    exact hd

/-- `dirlookup` returns, with the inode number `j` of the name. -/
def Finds (dp : Ptr) (s : St) (name : List UInt8) (j : Option ℕ) : Prop :=
  ∃ r s', dirlookup dp name s = .ok (r, s') ∧ r.map (fun x => (s'.inode x.1).inum) = j

section Total

variable (hr : Room sb n) (hN : N ≤ maxfile) (h : DirAt sb n dp i es s v)
  (hspace : lack N s.disk (v i) ≤ avail sb s.disk)
include hr hN h hspace

theorem DirAt.finds (hlen : direntSize * es.length ≤ N * bsize) (htable : ∃ k, (s.inode k).ref = 0)
    (name : List UInt8) : Finds dp s name (toMap es (canon name)) := by
  have htotal := wp_error (h.dirlookup hr hN hlen name) fun e he => by
    rcases he with hshort | ⟨-, hfull⟩
    · exact not_short hspace hshort
    · obtain ⟨k, hk⟩ := htable
      exact hfull k hk
  obtain ⟨r, s', hrun, s₁, v₁, hread, hfound⟩ := exists_of_wp htotal
  refine ⟨r, s', hrun, ?_⟩
  rcases r with _ | ⟨k, off⟩
  · exact (toMap_eq_none.mpr hfound.2).symm
  · obtain ⟨m, e, ip, -, -, hlook, hgot, rfl⟩ := hfound
    rw [toMap, hlook, Option.map_some, Option.map_some]
    show some ((setInode s₁ k ip).inode k).inum = _
    rw [setInode_same, hgot.inum_eq]

/-- Clearing the entry at the offset that `dirlookup` reports. -/
theorem DirAt.clear (hd : Distinct isUsed Prod.snd es)
    (hlen : direntSize * es.length ≤ N * bsize) {off : ℕ} {s₁ : St}
    (hrun : Fs.dirlookup dp name s = .ok (some (k, off), s₁)) :
    ∃ s', Fs.writeDirent dp [] off .unlinkWritei s₁ = .ok ((), s') ∧ Directory sb n dp s' ∧
      toMap (entries s' dp) = update (toMap es) (canon name) none := by
  obtain ⟨s₀, v₀, hread, m, e, ip, rfl, hget, hlook, hgot, rfl⟩ :=
    post_of_ok (h.dirlookup hr hN hlen name) hrun
  have hm : m < es.length := (List.getElem?_eq_some_iff.mp hget).1
  have hwithin : direntSize * m + direntSize ≤ N * bsize := by
    rw [direntSize_eq] at *
    omega
  have hspace' : lack N s₀.disk (v₀ i) ≤ avail sb s₀.disk := by
    have := hread.space
    omega
  have hwrite := (hread.dir.got hgot).writeDirent hr hN hm.le hwithin [] .unlinkWritei
  obtain ⟨_, s', hrun', v', -, hdir⟩ := exists_of_wp (wp_error hwrite fun _ => not_short hspace')
  refine ⟨s', hrun', hdir.directory (hd.cleared hm.le rfl), ?_⟩
  obtain ⟨-, hused, hname⟩ := used_of_lookup hlook
  rw [hdir.entries_eq, entryOf_nil, toMap_clear hd hget (isUsed_iff.mp hused), hname]

variable (hend : direntSize * es.length + direntSize ≤ N * bsize)
  (htable : ∃ k, (s.inode k).ref = 0)
include hend htable

/-- With room for one more entry `dirlink` returns. -/
theorem DirAt.dirlink_total (name : List UInt8) {inum : ℕ} (hinum : inum < 65536) :
    ∃ r s', Fs.dirlink dp name inum s = .ok (r, s') ∧
      ((r = 0 ∧ toMap es (canon name) = none ∧ ∃ m v', m ≤ es.length ∧
        (∀ e, es[m]? = some e → e.1 = 0) ∧
        Settled sb n N dp i (place es m (inum, canon name)) s v s' v') ∨
      (r = -1 ∧ toMap es (canon name) ≠ none ∧ ∃ v', DirAt sb n dp i es s' v')) := by
  have hlen : direntSize * es.length ≤ N * bsize := le_trans (Nat.le_add_right _ _) hend
  apply exists_of_wp
  apply wp_error (h.dirlink hr hN hlen (fun _ => hend) name hinum)
  rintro e ((hshort | ⟨-, hfull⟩) | ⟨-, hlt⟩)
  · exact not_short hspace hshort
  · obtain ⟨k, hk⟩ := htable
    exact hfull k hk
  · exact absurd (hend.trans (Nat.mul_le_mul_right _ hN)) (not_le.mpr hlt)

theorem DirAt.dirlink_new (hd : Distinct isUsed Prod.snd es) {inum : ℕ} (hpos : 0 < inum)
    (hinum : inum < 65536)
    (hfresh : toMap es (canon name) = none) :
    ∃ s', Fs.dirlink dp name inum s = .ok (0, s') ∧ Directory sb n dp s' ∧
      toMap (entries s' dp) = update (toMap es) (canon name) (some inum) ∧
      ∀ other, Finds dp s' other (update (toMap es) (canon name) (some inum) (canon other)) := by
  obtain ⟨r, s', hrun, ⟨rfl, -, m, v', hm, hfree, hread⟩ | ⟨-, hold, -⟩⟩ :=
    h.dirlink_total hr hN hspace hend htable name hinum
  swap
  · exact absurd hfresh hold
  have hmap := toMap_place hd hm hfree hpos.ne' hfresh
  have hd' : Distinct isUsed Prod.snd (place es m (inum, canon name)) :=
    hd.placed hm fun _ => lookup_eq_none.mp (Option.map_eq_none_iff.mp hfresh)
  have hspace' : lack N s'.disk (v' i) ≤ avail sb s'.disk := by
    have := hread.space
    omega
  have htable' : ∃ k, (s'.inode k).ref = 0 := by
    obtain ⟨k, hk⟩ := htable
    exact ⟨k, (ref_of_idents hread.same k).trans hk⟩
  have hlen' : direntSize * (place es m (inum, canon name)).length ≤ N * bsize := by
    have hle : (place es m (inum, canon name)).length ≤ es.length + 1 := by
      rw [place, List.length_append, List.length_take, List.length_cons, List.length_drop]
      omega
    rw [direntSize_eq] at *
    omega
  refine ⟨s', hrun, hread.dir.directory hd', ?_, ?_⟩
  · rw [hread.dir.entries_eq, hmap]
  · rw [← hmap]
    exact hread.dir.finds hr hN hspace' hlen' htable'

theorem DirAt.dirlink_old (hd : Distinct isUsed Prod.snd es) {inum : ℕ} (hinum : inum < 65536)
    (hold : toMap es (canon name) ≠ none) :
    ∃ s', Fs.dirlink dp name inum s = .ok (-1, s') ∧ Directory sb n dp s' ∧ entries s' dp = es := by
  obtain ⟨r, s', hrun, ⟨-, hfresh, -⟩ | ⟨rfl, -, v', hdir⟩⟩ :=
    h.dirlink_total hr hN hspace hend htable name hinum
  · exact absurd hfresh hold
  · exact ⟨s', hrun, hdir.directory hd, hdir.entries_eq⟩

end Total

/-! ## §7  Runs -/

inductive DirOp where
  | lookup (name : List UInt8)
  | link (name : List UInt8) (inum : BitVec 16)
  | clear (name : List UInt8)

/-- An operation, with the reference that `dirlookup` takes given back. `clear` removes an
entry as `__sys_unlink` does. -/
def DirOp.run (dp : Ptr) : DirOp → Prog Unit
  | .lookup name => do
    let r ← dirlookup dp name
    match r with
    | none => return
    | some (ip, _) => iput ip
  | .link name inum => do
    let _ ← dirlink dp name inum.toNat
    return
  | .clear name => do
    let r ← dirlookup dp name
    match r with
    | none => return
    | some (ip, off) => do
      writeDirent dp [] off .unlinkWritei
      iput ip

/-- An operation that returns. -/
def dirStep (dp : Ptr) (s : St) (op : DirOp) : Option St :=
  match op.run dp s with
  | .ok (_, s') => some s'
  | .error _ => none

theorem DirAt.run (hr : Room sb n) (h : DirAt sb n dp i es s v) (hd : Distinct isUsed Prod.snd es)
    (op : DirOp) :
    wp (op.run dp) (fun _ s' => ∃ es' v', DirAt sb n dp i es' s' v' ∧ Distinct isUsed Prod.snd es')
      anyError s := by
  have hlen : direntSize * es.length ≤ maxfile * bsize := h.size_eq ▸ h.shape.le
  have hlook : ∀ name, wp (Fs.dirlookup dp name) _ anyError s := fun name =>
    wp_error (h.dirlookup hr le_rfl hlen name) fun _ _ => trivial
  cases op with
  | lookup name =>
    refine wp_bind (hlook name) ?_
    rintro (_ | ⟨k, off⟩) s' ⟨s₁, v₁, hread, hfound⟩
    · obtain ⟨rfl, -⟩ := hfound
      exact wp_pure ⟨es, v₁, hread.dir, hd⟩
    · obtain ⟨m, e, ip, -, -, -, hgot, rfl⟩ := hfound
      refine wp_post ((hread.dir.got hgot).iput (hread.dir.held.quiet_got hgot)) ?_
      exact fun _ s₂ hdir => ⟨es, v₁, hdir, hd⟩
  | link name inum =>
    have hlink := h.dirlink hr le_rfl hlen (fun hlt => absurd hlt (lt_irrefl _)) name inum.isLt
    refine wp_bind (wp_error hlink fun _ _ => trivial) ?_
    rintro r s' (⟨-, hfresh, m, v', hm, hfree, hread⟩ | ⟨-, -, v', hdir⟩)
    · refine wp_pure ⟨_, v', hread.dir, hd.placed hm fun _ => ?_⟩
      exact lookup_eq_none.mp (Option.map_eq_none_iff.mp hfresh)
    · exact wp_pure ⟨es, v', hdir, hd⟩
  | clear name =>
    refine wp_bind (hlook name) ?_
    rintro (_ | ⟨k, off⟩) s' ⟨s₁, v₁, hread, hfound⟩
    · obtain ⟨rfl, -⟩ := hfound
      exact wp_pure ⟨es, v₁, hread.dir, hd⟩
    · obtain ⟨m, e, ip, rfl, hget, -, hgot, rfl⟩ := hfound
      have hm : m < es.length := (List.getElem?_eq_some_iff.mp hget).1
      have hend : direntSize * m + direntSize ≤ maxfile * bsize := by
        rw [direntSize_eq] at *
        omega
      have hgot' := hread.dir.got hgot
      refine wp_bind (wp_error (hgot'.writeDirent hr le_rfl hm.le hend [] _) fun _ _ => trivial) ?_
      rintro _ s₂ ⟨v₂, hch, hdir⟩
      refine wp_post (hdir.iput (hch.quiet hgot'.active (hread.dir.held.quiet_got hgot))) ?_
      exact fun _ s₃ hdir₃ => ⟨_, v₂, hdir₃, hd.cleared hm.le rfl⟩

/-- Names stay different, whatever is done to the directory. -/
theorem Directory.along (hr : Room sb n) (h : Directory sb n dp s) (ops : List DirOp) :
    Along (dirStep dp) (fun s => Distinct isUsed Prod.snd (entries s dp)) s ops := by
  apply @along_of_invariant _ _ (dirStep dp) (Directory sb n dp)
  · exact fun s h => h.distinct
  · intro s op s' h hstep
    obtain ⟨v, hdir, -⟩ := h.dirAt
    unfold dirStep at hstep
    split at hstep
    · rename_i hrun
      obtain rfl := Option.some.inj hstep
      obtain ⟨es', v', hdir', hd'⟩ := post_of_ok (hdir.run hr h.distinct op) hrun
      exact hdir'.directory hd'
    · cases hstep
  · exact h

/-- There is room for one more entry: the directory is below its maximum size, there are as many
free blocks as it lacks then, and `itable` has a free entry. -/
structure Roomy (sb : Superblock) (dp : Ptr) (s : St) : Prop where
  below : (s.inode dp).size.toNat < maxfile * bsize
  blocks : lack (blocksFor ((s.inode dp).size.toNat + direntSize)) s.disk (s.inode dp).toDinode ≤
    avail sb s.disk
  table : ∃ k, (s.inode k).ref = 0

theorem Directory.roomy (h : Directory sb n dp s) (hroomy : Roomy sb dp s) :
    ∃ v N, DirAt sb n dp (s.inode dp).inum (entries s dp) s v ∧ N ≤ maxfile ∧
      direntSize * (entries s dp).length + direntSize ≤ N * bsize ∧
      lack N s.disk (v (s.inode dp).inum) ≤ avail sb s.disk := by
  obtain ⟨v, hdir, hcopy⟩ := h.dirAt
  have hmod := h.shape.mod
  have hbelow := hroomy.below
  have hblocks := hroomy.blocks
  have hsize := hdir.size_eq
  rw [hcopy] at hsize
  refine ⟨v, blocksFor ((s.inode dp).size.toNat + direntSize), hdir, ?_, ?_, ?_⟩
  · apply blocksFor_le_maxfile
    change (s.inode dp).size.toNat % 16 = 0 at hmod
    change (s.inode dp).size.toNat < 268 * 1024 at hbelow
    show (s.inode dp).size.toNat + 16 ≤ 268 * 1024
    omega
  · rw [← hsize]
    exact le_blocksFor _
  · rw [hcopy]
    exact hblocks

/-- **Directories are finite maps.** With room for one more entry, `dirlookup` finds what the
map says, `dirlink` of a new name adds it and of an old one does nothing, and clearing the
entry that `dirlookup` reports removes its name. Names stay different in every run. -/
theorem directories_are_maps (hr : Room sb n) (h : Directory sb n dp s) :
    (Roomy sb dp s →
      (∀ name, Finds dp s name (toMap (entries s dp) (canon name))) ∧
      (∀ name inum, 0 < inum → inum < 65536 → toMap (entries s dp) (canon name) = none →
        ∃ s', dirlink dp name inum s = .ok (0, s') ∧ Directory sb n dp s' ∧
          toMap (entries s' dp) = update (toMap (entries s dp)) (canon name) (some inum) ∧
          Finds dp s' name (some inum) ∧ ∀ other, canon other ≠ canon name →
            Finds dp s' other (toMap (entries s dp) (canon other))) ∧
      (∀ name inum, 0 < inum → inum < 65536 → toMap (entries s dp) (canon name) ≠ none →
        ∃ s', dirlink dp name inum s = .ok (-1, s') ∧ Directory sb n dp s' ∧
          entries s' dp = entries s dp) ∧
      ∀ name k off s₁, dirlookup dp name s = .ok (some (k, off), s₁) →
        ∃ s', writeDirent dp [] off .unlinkWritei s₁ = .ok ((), s') ∧ Directory sb n dp s' ∧
          toMap (entries s' dp) = update (toMap (entries s dp)) (canon name) none) ∧
    ∀ ops, Along (dirStep dp) (fun s => Distinct isUsed Prod.snd (entries s dp)) s ops := by
  refine ⟨fun hroomy => ?_, fun ops => h.along hr ops⟩
  have hd := h.distinct
  have htable := hroomy.table
  obtain ⟨v, N, hdir, hN, hend, hspace⟩ := h.roomy hroomy
  have hlen := le_trans (Nat.le_add_right _ _) hend
  refine ⟨?_, ?_, ?_, ?_⟩
  · exact fun name => hdir.finds hr hN hspace hlen htable name
  · intro name inum hpos hinum hfresh
    obtain ⟨s', hrun, hdir', hmap, hfinds⟩ :=
      hdir.dirlink_new hr hN hspace hend htable hd hpos hinum hfresh
    refine ⟨s', hrun, hdir', hmap, ?_, ?_⟩
    · have hname := hfinds name
      rwa [update_self] at hname
    · intro other hne
      have hother := hfinds other
      rwa [update_of_ne hne] at hother
  · exact fun name inum _ hinum => hdir.dirlink_old hr hN hspace hend htable hd hinum
  · exact fun name k off s₁ => hdir.clear hr hN hspace hd hlen

/-- An empty directory; `bits` is the bitmap. -/
def emptyDir (bits : ℕ) : St := oneInode (.fresh tDir) bits zero

theorem directory_emptyDir {bits : ℕ}
    (hbits : ∀ b < 38, Meta smallSb b → bit (setLE zero 0 5 bits : Data) (b % bpb) = true) :
    Directory smallSb 2 entry0 (emptyDir bits) := by
  refine ⟨⟨_, (files_oneInode (by decide) hbits).toHeld⟩, Int.one_pos, rfl, rfl, ?_, ?_⟩
  · exact ⟨rfl, Nat.zero_le _⟩
  · intro i j a b ha
    have hnone : entries (emptyDir bits) entry0 = [] := Dinode.ents_of_size rfl
    rw [hnone] at ha
    cases ha

/-- With four free blocks, an entry `a` can be added. -/
theorem directories_are_maps_emptyDir :
    ∃ s', dirlink entry0 [97] 1 (emptyDir fourFree) = .ok (0, s') ∧
    Finds entry0 s' [97] (some 1) := by
  have hroomy : Roomy smallSb entry0 (emptyDir fourFree) :=
    ⟨by decide, by decide +kernel, ⟨⟨1, by decide⟩, rfl⟩⟩
  obtain ⟨-, hlink, -⟩ := (directories_are_maps room_smallSb
    (directory_emptyDir (by decide +kernel))).1 hroomy
  obtain ⟨s', hrun, -, -, hfinds, -⟩ := hlink [97] 1 (by decide) (by decide) rfl
  exact ⟨s', hrun, hfinds⟩

/-- Without free blocks `dirlink` does not return. -/
theorem dirlink_out_of_blocks : Directory smallSb 2 entry0 (emptyDir (2 ^ 38 - 1)) ∧
    ((emptyDir (2 ^ 38 - 1)).inode entry0).size.toNat < maxfile * bsize ∧
    toMap (entries (emptyDir (2 ^ 38 - 1)) entry0) (canon [97]) = none ∧
    dirlink entry0 [97] 1 (emptyDir (2 ^ 38 - 1)) = .error .outOfBlocks :=
  ⟨directory_emptyDir (by decide +kernel), by decide, rfl, rfl⟩

end RiscvBm.Fs

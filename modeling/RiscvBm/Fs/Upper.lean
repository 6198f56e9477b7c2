import RiscvBm.Fs.Dir

/-!
# The calls on paths, for any invariant

`namex`, `create`, `link` and the other functions on paths only move references to
inodes around and call the functions below them. So their proofs are made once,
for an assertion `I T L` about the file system in which

- `T` are the references to inodes that exist: those of open files and processes,
  those that the running call has taken, and those that were lost earlier; each
  says whether its inode is known not to be a directory;
- `L` are the inodes whose lock the call holds.

`Kept I` says what an invariant has to show: that each function of the lower half
changes `T` and `L` as it should. The rest follows for every such `I`.
-/

namespace RiscvBm.Fs

open Wp Finset

/-! ## §1  The interface -/

/-- A reference to an inode; the flag says that it is known not to be a directory. -/
abbrev Ref := Ptr × Bool

/-- `f` changes `major`, `minor` and `nlink` at most. -/
def LinksOnly (f : Inode → Inode) : Prop :=
  ∀ ip, ∃ major minor nlink, f ip = { ip with major := major, minor := minor, nlink := nlink }

def HasRef (T : Multiset Ref) (k : Ptr) : Prop := ∃ b, (k, b) ∈ T

/-- The entries that are written to directories: cleared, or for a proper inode number. -/
def EntryOk (inumOk : ℕ → Prop) (de : List UInt8) : Prop :=
  de = [] ∨ ∃ name inum, inumOk inum ∧ de = dirent name inum

/-- The entries of `dp` are for proper inode numbers. -/
def Listing (inumOk : ℕ → Prop) (dp : Ptr) (s : St) : Prop :=
  (s.inode dp).type = tDir ∨ ∀ i, inumOk i

structure Kept (I : Multiset Ref → Finset Ptr → St → Prop) (inumOk : ℕ → Prop)
    (E : Panic → Prop) : Prop where
  err : ∀ e, e ≠ .freeingFreeBlock → E e
  root : ∀ {T L s}, I T L s →
    wp (iget rootdev rootino) (fun k s' => I ((k, false) ::ₘ T) L s') E s
  idup : ∀ {T L s k}, I T L s → HasRef T k →
    wp (idup k) (fun r s' => r = k ∧ I ((k, false) ::ₘ T) L s') E s
  iput : ∀ {T L s k b}, I ((k, b) ::ₘ T) L s → k ∉ L ∨ HasRef T k →
    wp (iput k) (fun _ s' => I T L s') E s
  ilock : ∀ {T L s k}, I T L s → wp (ilock k) (fun _ s' => k ∉ L ∧ I T (insert k L) s') E s
  iunlock : ∀ {T L s k}, I T L s → wp (iunlock k) (fun _ s' => I T (L.erase k) s') E s
  learn : ∀ {T L s k b}, I ((k, b) ::ₘ T) L s → k ∈ L → (s.inode k).type ≠ tDir →
    I ((k, true) ::ₘ T) L s
  forget : ∀ {T L s k b}, I ((k, b) ::ₘ T) L s → I ((k, false) ::ₘ T) L s
  ialloc : ∀ {T L s dp type}, I T L s → dp ∈ L → type ≠ 0 →
    wp (ialloc (s.inode dp).dev type) (fun k s' => I ((k, decide (type ≠ tDir)) ::ₘ T) L s') E s
  put : ∀ {T L s k f}, I T L s → k ∈ L → LinksOnly f →
    wp (putInode k f) (fun _ s' => I T L s') E s
  itrunc : ∀ {T L s k}, I T L s → k ∈ L → wp (itrunc k) (fun _ s' => I T L s') E s
  writei : ∀ {T L s k src off n}, I T L s → k ∈ L → (k, true) ∈ T →
    wp (writei k src off n) (fun _ s' => I T L s') E s
  readDirent : ∀ {T L s dp off e}, I T L s → dp ∈ L → off % direntSize = 0 →
    e ≠ .freeingFreeBlock → wp (readDirent dp off e) (fun de s' => I T L s' ∧
      (Listing inumOk dp s → Listing inumOk dp s' ∧ inumOk (direntInum de))) E s
  iget : ∀ {T L s dp inum}, I T L s → dp ∈ L → inumOk inum →
    wp (iget (s.inode dp).dev inum) (fun k s' => I ((k, false) ::ₘ T) L s') E s
  inum : ∀ {T L s k}, I T L s → HasRef T k → inumOk (s.inode k).inum
  writeDirent : ∀ {T L s dp de off e}, I T L s → dp ∈ L → off % direntSize = 0 →
    EntryOk inumOk de → e ≠ .freeingFreeBlock →
    wp (writeDirent dp de off e) (fun _ s' => I T L s') E s

variable {I : Multiset Ref → Finset Ptr → St → Prop} {inumOk : ℕ → Prop} {E : Panic → Prop}
variable {T : Multiset Ref} {L : Finset Ptr} {s : St} {cwd : Option Ptr}

theorem HasRef.head (k : Ptr) (b : Bool) (T : Multiset Ref) : HasRef ((k, b) ::ₘ T) k :=
  ⟨b, Multiset.mem_cons_self _ _⟩

theorem HasRef.cons {T : Multiset Ref} {k : Ptr} {x : Ref} (h : HasRef T k) :
    HasRef (x ::ₘ T) k := by
  obtain ⟨b, hb⟩ := h
  exact ⟨b, Multiset.mem_cons_of_mem hb⟩

theorem HasRef.of_cons {x : Ref} {k : Ptr} (h : HasRef (x ::ₘ T) k) : k = x.1 ∨ HasRef T k := by
  obtain ⟨b, hb⟩ := h
  rcases Multiset.mem_cons.mp hb with heq | hmem
  · exact Or.inl (congrArg Prod.fst heq)
  · exact Or.inr ⟨b, hmem⟩

/-- `current->cwd` is among the references. -/
def CwdOk (T : Multiset Ref) (cwd : Option Ptr) : Prop := ∀ k, cwd = some k → HasRef T k

theorem CwdOk.cons (h : CwdOk T cwd) (x : Ref) : CwdOk (x ::ₘ T) cwd :=
  fun k hk => HasRef.cons (h k hk)

theorem Kept.require (h : Kept I inumOk E) {b : Bool} {e : Panic} (hs : I T L s)
    (he : e ≠ .freeingFreeBlock) :
    wp (require b e : Prog Unit) (fun _ s' => b = true ∧ s = s' ∧ I T L s') E s :=
  wp_require (fun hb => ⟨hb, rfl, hs⟩) fun _ => h.err e he

theorem Kept.iunlockput (h : Kept I inumOk E) {k : Ptr} {b : Bool}
    (hs : I ((k, b) ::ₘ T) (insert k L) s) (hk : k ∉ L) :
    wp (iunlockput k) (fun _ s' => I T L s') E s := by
  refine wp_bind (h.iunlock hs) fun _ s' hs' => ?_
  rw [erase_insert hk] at hs'
  exact h.iput hs' (Or.inl hk)

theorem Kept.dirlookupLoop (h : Kept I inumOk E) {dp : Ptr} {off : ℕ} (name : List UInt8) (n : ℕ)
    (hs : I T L s) (hdp : dp ∈ L) (hdir : Listing inumOk dp s) (hoff : off % direntSize = 0) :
    wp (dirlookupLoop dp name n off) (fun r s' => match r with
      | none => I T L s'
      | some (k, off) => off % direntSize = 0 ∧ I ((k, false) ::ₘ T) L s') E s := by
  induction n generalizing s off with
  | zero => exact wp_pure hs
  | succ n ih =>
    refine wp_bind (h.readDirent hs hdp hoff (by decide)) ?_
    rintro de s ⟨hs, hread⟩
    obtain ⟨hdir, hde⟩ := hread hdir
    refine wp_ite (fun _ => wp_get (wp_bind (h.iget hs hdp hde) ?_)) fun _ => ?_
    · exact fun k s hs => wp_pure ⟨hoff, hs⟩
    · exact ih hs hdir (by rwa [Nat.add_mod_right])

theorem Kept.dirlookup (h : Kept I inumOk E) {dp : Ptr} {name : List UInt8} (hs : I T L s)
    (hdp : dp ∈ L) :
    wp (dirlookup dp name) (fun r s' => match r with
      | none => I T L s'
      | some (k, off) => off % direntSize = 0 ∧ I ((k, false) ::ₘ T) L s') E s :=
  wp_get (wp_require_bind (fun hd => h.dirlookupLoop _ _ hs hdp (Or.inl (of_decide_eq_true hd)) rfl)
    fun _ => h.err _ (by decide))

theorem Kept.findFreeDirent (h : Kept I inumOk E) {dp : Ptr} {off : ℕ} (n : ℕ) (hs : I T L s)
    (hdp : dp ∈ L) (hoff : off % direntSize = 0) :
    wp (findFreeDirent dp n off) (fun off s' => off % direntSize = 0 ∧ I T L s') E s := by
  induction n generalizing s off with
  | zero => exact wp_pure ⟨hoff, hs⟩
  | succ n ih =>
    refine wp_bind (h.readDirent hs hdp hoff (by decide)) fun de s hs => ?_
    exact wp_ite (fun _ => wp_pure ⟨hoff, hs.1⟩) fun _ => ih hs.1 (by rwa [Nat.add_mod_right])

theorem Kept.isdiremptyLoop (h : Kept I inumOk E) {dp : Ptr} {off : ℕ} (n : ℕ) (hs : I T L s)
    (hdp : dp ∈ L) (hoff : off % direntSize = 0) :
    wp (isdiremptyLoop dp n off) (fun _ s' => I T L s') E s := by
  induction n generalizing s off with
  | zero => exact wp_pure hs
  | succ n ih =>
    refine wp_bind (h.readDirent hs hdp hoff (by decide)) fun de s hs => ?_
    exact wp_ite (fun _ => wp_pure hs.1) fun _ => ih hs.1 (by rwa [Nat.add_mod_right])

theorem Kept.dirlink (h : Kept I inumOk E) {dp : Ptr} {name : List UInt8} {inum : ℕ}
    (hs : I T L s) (hdp : dp ∈ L) (hL : ∀ k ∈ L, HasRef T k) (hinum : inumOk inum) :
    wp (dirlink dp name inum) (fun _ s' => I T L s') E s := by
  refine wp_bind (h.dirlookup hs hdp) ?_
  rintro (_ | ⟨ip, off⟩) s hs
  · refine wp_get (wp_bind (h.findFreeDirent _ hs hdp rfl) fun off s hs => ?_)
    refine wp_bind (h.writeDirent hs.2 hdp hs.1 (Or.inr ⟨name, inum, hinum, rfl⟩) (by decide)) ?_
    exact fun _ s hs => wp_pure hs
  · -- the name may be that of a locked inode, which has another reference then
    refine wp_bind (h.iput hs.2 ?_) fun _ s hs => wp_pure hs
    by_cases hip : ip ∈ L
    · exact Or.inr (hL ip hip)
    · exact Or.inl hip

/-! ## §2  Path names -/

/-- What a function that returns a new reference, or NULL, leaves behind. -/
def Found (I : Multiset Ref → Finset Ptr → St → Prop) (T : Multiset Ref) {α : Type} :
    Option (Ptr × α) → St → Prop
  | none, s => I T ∅ s
  | some (k, _), s => I ((k, false) ::ₘ T) ∅ s

theorem Kept.namexLoop (h : Kept I inumOk E) {parent : Bool} {names : List (List UInt8)} :
    ∀ {ip : Ptr} {s : St}, I ((ip, false) ::ₘ T) ∅ s →
      wp (namexLoop parent ip names) (Found I T) E s := by
  induction names with
  | nil =>
    intro ip s hs
    refine wp_ite (fun _ => ?_) (fun _ => wp_pure hs)
    exact wp_bind (h.iput hs (Or.inl (notMem_empty _))) fun _ s' hs' => wp_pure hs'
  | cons name rest ih =>
    intro ip s hs
    refine wp_bind (h.ilock hs) ?_
    rintro _ s ⟨hip, hs⟩
    refine wp_get (wp_ite (fun _ => ?_) (fun _ => wp_ite (fun _ => ?_) (fun _ => ?_)))
    · exact wp_bind (h.iunlockput hs hip) fun _ s' hs' => wp_pure hs'
    · refine wp_bind (h.iunlock hs) fun _ s' hs' => wp_pure ?_
      rwa [erase_insert hip] at hs'
    · refine wp_bind (h.dirlookup hs (mem_insert_self _ _)) ?_
      rintro (_ | ⟨next, off⟩) s hs
      · exact wp_bind (h.iunlockput hs hip) fun _ s' hs' => wp_pure hs'
      · obtain ⟨-, hs⟩ := hs
        rw [Multiset.cons_swap] at hs
        exact wp_bind (h.iunlockput hs hip) fun _ s' hs' => ih hs'

theorem Kept.startInode (h : Kept I inumOk E) {path : List UInt8} (hs : I T L s)
    (hcwd : CwdOk T cwd) :
    wp (startInode cwd path) (fun k s' => I ((k, false) ::ₘ T) L s') E s := by
  refine wp_ite (fun _ => h.root hs) (fun _ => ?_)
  cases cwd with
  | none => exact wp_throw (h.err _ (by decide))
  | some ip =>
    refine wp_post (h.idup hs (hcwd ip rfl)) ?_
    rintro _ s' ⟨rfl, hs'⟩
    exact hs'

theorem Kept.namex (h : Kept I inumOk E) {path : List UInt8} {parent : Bool} (hs : I T ∅ s)
    (hcwd : CwdOk T cwd) : wp (namex cwd path parent) (Found I T) E s :=
  wp_bind (h.startInode hs hcwd) fun _ _ hs' => h.namexLoop hs'

theorem Kept.namei (h : Kept I inumOk E) {path : List UInt8} (hs : I T ∅ s)
    (hcwd : CwdOk T cwd) :
    wp (namei cwd path) (fun r s' => Found I T (r.map fun k => (k, ())) s') E s := by
  refine wp_bind (h.namex hs hcwd) ?_
  rintro (_ | ⟨k, _⟩) s' hs'
  · exact wp_pure hs'
  · exact wp_pure hs'

/-! ## §3  `create` and `open` -/

/-- The reference that `create` returns is locked; under the condition `P` it is
known not to be a directory. -/
def Created (I : Multiset Ref → Finset Ptr → St → Prop) (T : Multiset Ref) (P : Prop) :
    Option Ptr → St → Prop
  | none, s => I T ∅ s
  | some k, s => ∃ b, (P → b = true) ∧ I ((k, b) ::ₘ T) (insert k ∅) s

section

variable (h : Kept I inumOk E)

include h

theorem Kept.createFound {dp ip : Ptr} {type : BitVec 16}
    (hs : I ((ip, false) ::ₘ (dp, false) ::ₘ T) (insert dp ∅) s) :
    wp (createFound dp ip type) (Created I T (type = tFile)) E s := by
  rw [Multiset.cons_swap] at hs
  refine wp_bind (h.iunlockput hs (notMem_empty _)) fun _ s hs => ?_
  refine wp_bind (h.ilock hs) ?_
  rintro _ s ⟨hip, hs⟩
  refine wp_get (wp_ite (fun htype => wp_pure ?_) (fun _ => ?_))
  · refine ⟨true, fun _ => rfl, h.learn hs (mem_insert_self _ _) fun hdir => ?_⟩
    rw [hdir] at htype
    exact absurd htype.2 (by decide)
  · exact wp_bind (h.iunlockput hs hip) fun _ s' hs' => wp_pure hs'

theorem Kept.createDots {dp ip : Ptr} (hs : I T L s) (hdp : dp ∈ L)
    (hip : ip ∈ L) (hL : ∀ k ∈ L, HasRef T k) :
    wp (createDots dp ip) (fun _ s' => I T L s') E s := by
  refine wp_bind (h.put hs hdp fun ip => ⟨_, _, _, rfl⟩) fun _ s hs => ?_
  refine wp_get (wp_bind (h.dirlink hs hip hL (h.inum hs (hL ip hip))) fun r s hs => ?_)
  refine wp_bind (h.require hs (by decide)) ?_
  rintro _ _ ⟨-, rfl, hs⟩
  refine wp_get (wp_bind (h.dirlink hs hip hL (h.inum hs (hL dp hdp))) fun r s hs => ?_)
  exact wp_post (h.require hs (by decide)) fun _ _ hs => hs.2.2

theorem Kept.createNew {dp : Ptr} {name : List UInt8}
    {type major minor : BitVec 16} (htype : type ≠ 0)
    (hs : I ((dp, false) ::ₘ T) (insert dp ∅) s) :
    wp (createNew dp name type major minor) (Created I T (type = tFile)) E s := by
  refine wp_get (wp_bind (h.ialloc hs (mem_insert_self _ _) htype) fun ip s hs => ?_)
  refine wp_bind (h.ilock hs) ?_
  rintro _ s ⟨hip, hs⟩
  have hipL : ip ∈ insert ip (insert dp (∅ : Finset Ptr)) := mem_insert_self _ _
  have hdpL : dp ∈ insert ip (insert dp (∅ : Finset Ptr)) :=
    mem_insert_of_mem (mem_insert_self _ _)
  have hL : ∀ k ∈ insert ip (insert dp (∅ : Finset Ptr)),
      HasRef ((ip, decide (type ≠ tDir)) ::ₘ (dp, false) ::ₘ T) k := by
    intro k hk
    rw [insert_empty_eq, mem_insert, mem_singleton] at hk
    rcases hk with rfl | rfl
    · exact HasRef.head _ _ _
    · exact (HasRef.head _ _ _).cons
  refine wp_bind (h.put hs hipL fun ip => ⟨_, _, _, rfl⟩) fun _ s hs => ?_
  refine wp_bind (wp_ite (fun _ => h.createDots hs hdpL hipL hL) (fun _ => wp_pure hs))
    fun _ s hs => ?_
  refine wp_get (wp_bind (h.dirlink hs hdpL hL (h.inum hs (hL ip hipL))) fun r s hs => ?_)
  refine wp_bind (h.require hs (by decide)) ?_
  rintro _ _ ⟨-, rfl, hs⟩
  -- `dp` is unlocked and put first; `ip` stays
  have hne : dp ∉ insert ip (∅ : Finset Ptr) := by
    intro hmem
    rw [insert_empty_eq, mem_singleton] at hmem
    exact hip (by rw [hmem]; exact mem_insert_self _ _)
  rw [Multiset.cons_swap, insert_comm] at hs
  refine wp_bind (h.iunlockput hs hne) fun _ s hs => wp_pure ⟨_, fun hfile => ?_, hs⟩
  rw [hfile]
  decide

theorem Kept.create {path : List UInt8} {type major minor : BitVec 16}
    (htype : type ≠ 0) (hs : I T ∅ s) (hcwd : CwdOk T cwd) :
    wp (create cwd path type major minor)
      (Created I T (type = tFile)) E s := by
  refine wp_bind (h.namex hs hcwd) ?_
  rintro (_ | ⟨dp, name⟩) s hs
  · exact wp_pure hs
  · refine wp_bind (h.ilock hs) ?_
    rintro _ s ⟨-, hs⟩
    refine wp_bind (h.dirlookup hs (mem_insert_self _ _)) ?_
    rintro (_ | ⟨ip, off⟩) s hs
    · exact h.createNew htype hs
    · exact h.createFound hs.2

theorem Kept.openInode {path : List UInt8} {omode : BitVec 32}
    (hs : I T ∅ s) (hcwd : CwdOk T cwd) :
    wp (openInode cwd path omode) (Created I T (omode ≠ 0)) E s := by
  refine wp_ite (fun _ => ?_) (fun _ => ?_)
  · refine wp_post (h.create (by decide) hs hcwd) ?_
    rintro (_ | k) s' hs'
    · exact hs'
    · obtain ⟨b, hb, hs'⟩ := hs'
      exact ⟨b, fun _ => hb rfl, hs'⟩
  · refine wp_bind (h.namei hs hcwd) ?_
    rintro (_ | ip) s hs
    · exact wp_pure hs
    · refine wp_bind (h.ilock hs) ?_
      rintro _ s ⟨hip, hs⟩
      refine wp_get (wp_ite (fun _ => ?_) (fun hmode => wp_pure ?_))
      · exact wp_bind (h.iunlockput hs hip) fun _ s' hs' => wp_pure hs'
      · by_cases hzero : omode = 0
        · exact ⟨false, fun hne => absurd hzero hne, hs⟩
        · refine ⟨true, fun _ => rfl, h.learn hs (mem_insert_self _ _) fun hdir => ?_⟩
          exact hmode ⟨hdir, hzero⟩

end

/-! ## §4  System calls -/

section

variable (h : Kept I inumOk E)

include h

theorem Kept.createAndPut {path : List UInt8}
    {type major minor : BitVec 16} (htype : type ≠ 0) (hs : I T ∅ s)
    (hcwd : CwdOk T cwd) :
    wp (createAndPut cwd path type major minor) (fun _ s' => I T ∅ s') E s := by
  refine wp_bind (h.create htype hs hcwd) ?_
  rintro (_ | ip) s hs
  · exact wp_pure hs
  · obtain ⟨ty, -, hs⟩ := hs
    exact wp_bind (h.iunlockput hs (notMem_empty _)) fun _ s hs => wp_pure hs

theorem Kept.sysMknod {pathname : Option (List UInt8)}
    {beyond : List UInt8} {major minor : BitVec 16} (hs : I T ∅ s) (hcwd : CwdOk T cwd) :
    wp (sysMknod cwd pathname beyond major minor) (fun _ s' => I T ∅ s') E s := by
  cases pathname with
  | none => exact wp_pure hs
  | some pathname => exact h.createAndPut (by decide) hs hcwd

theorem Kept.sysMkdir {pt : Option (List UInt8)} (hs : I T ∅ s)
    (hcwd : CwdOk T cwd) : wp (sysMkdir cwd pt) (fun _ s' => I T ∅ s') E s := by
  cases pt with
  | none => exact wp_pure hs
  | some pt =>
    exact wp_ite (fun _ => wp_pure hs) (fun _ => h.createAndPut (by decide) hs hcwd)

/-- `chdir` drops the reference of `current->cwd`. When the path is no directory,
the new reference stays behind. -/
theorem Kept.sysChdir {path : Option (List UInt8)} {T₀ : Multiset Ref}
    (hs : I T ∅ s) (hT : ∀ k, cwd = some k → ∃ b, T = (k, b) ::ₘ T₀) :
    wp (sysChdir cwd path) (fun r s' =>
      (r = (-einval, cwd) ∧ I T ∅ s') ∨
      (r = (-enoent, cwd) ∧ ∃ ip, I ((ip, false) ::ₘ T) ∅ s') ∨
      ∃ ip, r = (0, some ip) ∧ I ((ip, false) ::ₘ T₀) ∅ s') E s := by
  have hcwd : CwdOk T cwd := by
    intro k hk
    obtain ⟨b, hb⟩ := hT k hk
    exact hb ▸ HasRef.head _ _ _
  cases path with
  | none => exact wp_pure (Or.inl ⟨rfl, hs⟩)
  | some path =>
    refine wp_bind (h.namei hs hcwd) ?_
    rintro (_ | ip) s hs
    · exact wp_throw (h.err _ (by decide))
    · refine wp_bind (h.ilock hs) ?_
      rintro _ s ⟨hip, hs⟩
      refine wp_get (wp_ite (fun _ => ?_) (fun _ => ?_))
      · refine wp_bind (h.iunlock hs) fun _ s hs => wp_pure (Or.inr (Or.inl ⟨rfl, ip, ?_⟩))
        rwa [erase_insert hip] at hs
      · refine wp_bind (h.iunlock hs) fun _ s hs => ?_
        rw [erase_insert hip] at hs
        cases cwd with
        | none => exact wp_throw (h.err _ (by decide))
        | some old =>
          obtain ⟨b, rfl⟩ := hT old rfl
          rw [Multiset.cons_swap] at hs
          refine wp_bind (h.iput hs (Or.inl (notMem_empty _))) fun _ s hs => ?_
          exact wp_pure (Or.inr (Or.inr ⟨ip, rfl, hs⟩))

/-- `unlink` returns 0 with the reference to the directory not dropped. -/
def Unlinked (I : Multiset Ref → Finset Ptr → St → Prop) (T : Multiset Ref) (r : ℤ) (s : St) :
    Prop :=
  (r ≠ 0 ∧ I T ∅ s) ∨ (r = 0 ∧ ∃ dp, I ((dp, false) ::ₘ T) ∅ s)

theorem Kept.unlinkBad {dp : Ptr}
    (hs : I ((dp, false) ::ₘ T) (insert dp ∅) s) : wp (unlinkBad dp) (Unlinked I T) E s :=
  wp_bind (h.iunlockput hs (notMem_empty _)) fun _ _ hs =>
    wp_pure (Or.inl ⟨by decide, hs⟩)

theorem Kept.unlinkEntry {dp ip : Ptr} {off : ℕ}
    (hoff : off % direntSize = 0) (hne : ip ≠ dp)
    (hs : I ((ip, false) ::ₘ (dp, false) ::ₘ T) (insert ip (insert dp ∅)) s) :
    wp (unlinkEntry dp ip off) (Unlinked I T) E s := by
  have hdpL : dp ∈ insert ip (insert dp (∅ : Finset Ptr)) :=
    mem_insert_of_mem (mem_insert_self _ _)
  refine wp_bind (h.writeDirent hs hdpL hoff (Or.inl rfl) (by decide)) fun _ s hs => ?_
  refine wp_get (wp_bind (wp_ite (fun _ => h.put hs hdpL fun ip => ⟨_, _, _, rfl⟩)
    (fun _ => wp_pure hs)) fun _ s hs => ?_)
  refine wp_bind (h.iunlock hs) fun _ s hs => ?_
  have herase : (insert ip (insert dp (∅ : Finset Ptr))).erase dp = insert ip ∅ := by
    rw [erase_insert_of_ne hne, erase_insert (notMem_empty _)]
  rw [herase] at hs
  refine wp_bind (h.put hs (mem_insert_self _ _) fun ip => ⟨_, _, _, rfl⟩) fun _ s hs => ?_
  refine wp_bind (h.iunlockput hs (notMem_empty _)) fun _ s hs => ?_
  exact wp_pure (Or.inr ⟨rfl, dp, hs⟩)

theorem Kept.unlinkInode {dp ip : Ptr} {off : ℕ}
    (hoff : off % direntSize = 0) (hne : ip ≠ dp)
    (hs : I ((ip, false) ::ₘ (dp, false) ::ₘ T) (insert ip (insert dp ∅)) s) :
    wp (unlinkInode dp ip off) (Unlinked I T) E s := by
  refine wp_get (wp_bind (h.require hs (by decide)) ?_)
  rintro _ _ ⟨-, rfl, hs⟩
  refine wp_ite (fun _ => ?_) (fun _ => h.unlinkEntry hoff hne hs)
  refine wp_bind (wp_get (h.isdiremptyLoop _ hs (mem_insert_self _ _) rfl)) fun empty s hs => ?_
  refine wp_ite (fun _ => h.unlinkEntry hoff hne hs) (fun _ => ?_)
  refine wp_bind (h.iunlockput hs ?_) fun _ s hs => h.unlinkBad hs
  rwa [insert_empty_eq, mem_singleton]

theorem Kept.sysUnlink {path : Option (List UInt8)} (hs : I T ∅ s)
    (hcwd : CwdOk T cwd) : wp (sysUnlink cwd path) (Unlinked I T) E s := by
  cases path with
  | none => exact wp_pure (Or.inl ⟨by decide, hs⟩)
  | some path =>
    refine wp_bind (h.namex hs hcwd) ?_
    rintro (_ | ⟨dp, name⟩) s hs
    · exact wp_pure (Or.inl ⟨by decide, hs⟩)
    · refine wp_bind (h.ilock hs) ?_
      rintro _ s ⟨-, hs⟩
      refine wp_ite (fun _ => h.unlinkBad hs) (fun _ => ?_)
      refine wp_bind (h.dirlookup hs (mem_insert_self _ _)) ?_
      rintro (_ | ⟨ip, off⟩) s hs
      · exact h.unlinkBad hs
      · refine wp_bind (h.ilock hs.2) ?_
        rintro _ s' ⟨hip, hs'⟩
        refine h.unlinkInode hs.1 (fun heq => hip ?_) hs'
        rw [heq]
        exact mem_insert_self _ _

theorem Kept.linkBad {ip : Ptr} (hs : I ((ip, false) ::ₘ T) ∅ s) :
    wp (linkBad ip) (fun _ s' => I T ∅ s') E s := by
  refine wp_bind (h.ilock hs) ?_
  rintro _ s ⟨hip, hs⟩
  refine wp_bind (h.put hs (mem_insert_self _ _) fun ip => ⟨_, _, _, rfl⟩) fun _ s hs => ?_
  exact wp_bind (h.iunlockput hs hip) fun _ s hs => wp_pure hs

theorem Kept.linkEntry {dp ip : Ptr} {name : List UInt8}
    (hs : I ((dp, false) ::ₘ (ip, false) ::ₘ T) ∅ s) :
    wp (linkEntry dp ip name) (fun _ s' => I T ∅ s') E s := by
  refine wp_bind (h.ilock hs) ?_
  rintro _ s ⟨hdp, hs⟩
  have hipT : HasRef ((dp, false) ::ₘ (ip, false) ::ₘ T) ip := (HasRef.head _ _ _).cons
  refine wp_get (wp_ite (fun _ => ?_) (fun _ => ?_))
  · exact wp_bind (h.iunlockput hs hdp) fun _ s hs => h.linkBad hs
  · have hL : ∀ k ∈ insert dp (∅ : Finset Ptr), HasRef ((dp, false) ::ₘ (ip, false) ::ₘ T) k := by
      intro k hk
      rw [insert_empty_eq, mem_singleton] at hk
      exact hk ▸ HasRef.head _ _ _
    refine wp_bind (h.dirlink hs (mem_insert_self _ _) hL (h.inum hs hipT)) fun r s hs => ?_
    refine wp_ite (fun _ => ?_) (fun _ => ?_)
    · exact wp_bind (h.iunlockput hs hdp) fun _ s hs => h.linkBad hs
    · refine wp_bind (h.iunlockput hs hdp) fun _ s hs => ?_
      exact wp_bind (h.iput hs (Or.inl (notMem_empty _))) fun _ s hs => wp_pure hs

theorem Kept.sysLink {old new : Option (List UInt8)} (hs : I T ∅ s)
    (hcwd : CwdOk T cwd) : wp (sysLink cwd old new) (fun _ s' => I T ∅ s') E s := by
  cases old with
  | none => exact wp_pure hs
  | some old =>
    cases new with
    | none => exact wp_pure hs
    | some new =>
      refine wp_bind (h.namei hs hcwd) ?_
      rintro (_ | ip) s hs
      · exact wp_pure hs
      · refine wp_bind (h.ilock hs) ?_
        rintro _ s ⟨hip, hs⟩
        refine wp_get (wp_ite (fun _ => ?_) (fun _ => ?_))
        · exact wp_bind (h.iunlockput hs hip) fun _ s hs => wp_pure hs
        · refine wp_bind (h.put hs (mem_insert_self _ _) fun ip => ⟨_, _, _, rfl⟩)
            fun _ s hs => ?_
          refine wp_bind (h.iunlock hs) fun _ s hs => ?_
          rw [erase_insert hip] at hs
          refine wp_bind (h.namex hs (hcwd.cons _)) ?_
          rintro (_ | ⟨dp, name⟩) s hs
          · exact h.linkBad hs
          · exact h.linkEntry hs

end

end RiscvBm.Fs

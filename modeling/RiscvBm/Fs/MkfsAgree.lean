import Mathlib.Data.List.TakeWhile
import RiscvBm.Fs.Calls
import RiscvBm.Fs.MkfsImage
import RiscvBm.Fs.Names

/-!
# `mkfs` and the kernel agree

The kernel finds every file of an image that `mkfs` wrote, and reads the bytes that the
file had on the host (`mkfs_agrees`). A file whose name is empty once the leading `_` is
taken off is the exception: `/` is the root directory (`not_agrees_underscore`).
-/

namespace RiscvBm.Mkfs

open Bio (bsize Data)
open Fs Bytes Wp Function

variable {disk : ℕ → Data} {bytes : List UInt8} {s : St} {k : Ptr} {m : ℕ} {e : Prop}
  {E : Panic → Prop}

/-! ## §1  Reading a file without holes -/

theorem Stored.slice {d : Dinode} (h : Stored disk d m e bytes) {bn o n : ℕ} (hbn : bn < m)
    (ho : o + n ≤ bsize) (hn : bn * bsize + o + n ≤ bytes.length) :
    slice (disk (d.block disk bn)) o n = (bytes.drop (bn * bsize + o)).take n := by
  rw [← List.takeD_eq_take 0 (by rw [List.length_drop]; omega), ← map_getD_range]
  apply List.map_congr_left
  intro i hi
  have hi : i < n := List.mem_range.mp hi
  rw [h.data bn hbn (o + i) (by omega), UInt8.ofNat_toNat]
  simp only [List.getD_eq_getElem?_getD, List.getElem?_drop, Nat.add_assoc]

/-- The zeroes behind the bytes belong to the last block. -/
theorem Stored.pad {d : Dinode} (h : Stored disk d m e bytes) :
    Stored disk d m e (bytes ++ List.replicate (m * bsize - bytes.length) 0) ∧
      (bytes ++ List.replicate (m * bsize - bytes.length) 0).length = m * bsize := by
  have hlen : (bytes ++ List.replicate (m * bsize - bytes.length) 0).length = m * bsize := by
    rw [List.length_append, List.length_replicate, Nat.add_sub_cancel' h.fits]
  refine ⟨⟨hlen.le, h.le, h.block, h.ind, fun bn hbn o ho => ?_⟩, hlen⟩
  rw [h.data bn hbn o ho]
  by_cases hlt : bn * bsize + o < bytes.length
  · rw [List.getD_append _ _ _ _ hlt]
  · rw [List.getD_eq_default _ _ (Nat.le_of_not_lt hlt),
      List.getD_append_right _ _ _ _ (Nat.le_of_not_lt hlt)]
    rw [List.getD_eq_getElem?_getD, List.getElem?_replicate]
    split_ifs <;> rfl

/-- The loop of `readi` on a file without holes. -/
theorem wp_readiLoop (h : Stored s.disk (s.inode k).toDinode m e bytes) {fuel off n : ℕ}
    (hfuel : n ≤ fuel) (hn : off + n ≤ bytes.length) :
    wp (readiLoop k fuel off n) (fun r s' => r = (bytes.drop off).take n ∧ s' = s) E s := by
  induction fuel generalizing off n with
  | zero =>
    cases Nat.le_zero.mp hfuel
    exact wp_pure ⟨rfl, rfl⟩
  | succ fuel ih =>
    apply wp_ite
    · rintro rfl
      exact wp_pure ⟨rfl, rfl⟩
    intro hpos
    have hfits := h.fits
    have hbn : off / bsize < m := by
      apply Nat.div_lt_of_lt_mul
      rw [Nat.mul_comm]
      omega
    have hmax : off / bsize < maxfile := lt_of_lt_of_le hbn h.le
    apply wp_get
    apply wp_bind_eq (bmap_found hmax ((h.block _ hmax).mpr hbn))
    apply wp_bread
    generalize hm : min n (bsize - off % bsize) = n1
    have hdiv : off / bsize * bsize + off % bsize = off := Nat.div_add_mod' off bsize
    have hmod : off % bsize < bsize := Nat.mod_lt _ (by decide)
    apply wp_bind_eq (ih (by omega) (by omega))
    refine wp_pure ⟨?_, rfl⟩
    rw [h.slice hbn (by omega) (by omega), hdiv, ← List.drop_drop, ← List.take_add]
    congr 1
    omega

theorem wp_readi (h : ∃ m e, Stored s.disk (s.inode k).toDinode m e bytes)
    (hsize : bytes.length ≤ (s.inode k).size.toNat) {off n : ℕ} (hn : off + n ≤ bytes.length) :
    wp (readi k off n) (fun r s' => r = (bytes.drop off).take n ∧ s' = s) E s := by
  obtain ⟨m, e, h⟩ := h
  have hlt := (s.inode k).size.isLt
  have hmod : (off + n) % 2 ^ 32 = off + n := Nat.mod_eq_of_lt (by omega)
  apply wp_get
  rw [hmod]
  apply wp_ite
  · intro hc
    omega
  intro _
  rw [if_neg (by omega)]
  exact wp_readiLoop h le_rfl hn

/-! ## §2  Names -/

variable {name name' : List UInt8} {inum : ℕ}

theorem direntInum_direntBytes (h : inum < 65536) : direntInum (direntBytes name inum) = inum := by
  have hentry : entryOf (direntBytes name inum) = _ :=
    (entryOf_takeD _).trans (entryOf_dirent name h)
  exact congrArg Prod.fst hentry

theorem canon_direntBytes : canon (direntName (direntBytes name inum)) = canon name :=
  (congrArg Prod.snd (entryOf_takeD (dirent name inum))).trans (canon_take name)

theorem canon_of_notMem (h : 0 ∉ name) : canon name = name.take dirsiz := by
  apply List.takeWhile_eq_self_iff.mpr
  intro x hx
  simp only [decide_eq_true_eq]
  rintro rfl
  exact h (List.mem_of_mem_take hx)

theorem nameEq_direntBytes (h : 0 ∉ name) (h' : 0 ∉ name') :
    nameEq (name.take dirsiz) (direntName (direntBytes name' inum)) = true ↔
      name.take dirsiz = name'.take dirsiz := by
  rw [nameEq_iff, canon_take, canon_direntBytes, canon_of_notMem h, canon_of_notMem h']

/-- The path `/name` has one element. -/
theorem elems_rooted (hne : name ≠ []) (hslash : slash ∉ name) :
    elems (slash :: name).length (slash :: name) = [name.take dirsiz] := by
  have hall : ∀ x ∈ name, x ≠ slash := by
    rintro x hx rfl
    exact hslash hx
  rw [elems_eq_components le_rfl, components, words_slash]
  cases name with
  | nil => exact absurd rfl hne
  | cons a name =>
    have htake : (a :: name).takeWhile (· ≠ slash) = a :: name :=
      List.takeWhile_eq_self_iff.mpr fun x hx => by simpa using hall x hx
    have hrest : (a :: name).dropWhile (· ≠ slash) = [] :=
      List.dropWhile_eq_nil_iff.mpr fun x hx => by simpa using hall x hx
    rw [words_word (hall a List.mem_cons_self), htake, hrest]
    rfl

/-! ## §3  Looking a name up -/

theorem flatten_chunk {es : List (List UInt8)} {w n : ℕ} (h : ∀ de ∈ es, de.length = w)
    (hn : n < es.length) : (es.flatten.drop (w * n)).take w = es[n] := by
  induction es generalizing n with
  | nil => exact absurd hn (Nat.not_lt_zero n)
  | cons de es ih =>
    have hde : de.length = w := h de List.mem_cons_self
    cases n with
    | zero =>
      rw [Nat.mul_zero, List.drop_zero, List.flatten_cons, ← hde]
      exact List.take_left
    | succ n =>
      have hn' : n < es.length := Nat.lt_of_succ_lt_succ hn
      have hdrop : w * (n + 1) = de.length + w * n := by
        rw [hde, Nat.mul_succ, Nat.add_comm]
      rw [List.flatten_cons, hdrop, List.drop_append, List.drop_eq_nil_of_le (by omega),
        List.nil_append, Nat.add_sub_cancel_left]
      exact ih (fun x hx => h x (List.mem_cons_of_mem _ hx)) hn'

/-- An inode whose blocks hold these directory entries. -/
structure Lists (s : St) (dp : Ptr) (es : List (List UInt8)) : Prop where
  stored : ∃ m e, Stored s.disk (s.inode dp).toDinode m e es.flatten
  size : es.flatten.length ≤ (s.inode dp).size.toNat
  width : ∀ de ∈ es, de.length = direntSize

variable {es : List (List UInt8)} {dp : Ptr}

theorem Lists.length (h : Lists s dp es) : es.flatten.length = direntSize * es.length := by
  rw [List.length_flatten, List.map_congr_left h.width, List.map_const', List.sum_replicate]
  exact Nat.mul_comm _ _

theorem wp_readDirent (h : Lists s dp es) {n : ℕ} (hn : n < es.length) {err : Panic} :
    wp (readDirent dp (direntSize * n) err) (fun de s' => de = es[n] ∧ s' = s) E s := by
  have hlen : direntSize * n + direntSize ≤ es.flatten.length := by
    rw [h.length, ← Nat.mul_succ]
    exact Nat.mul_le_mul_left _ hn
  refine wp_bind (wp_readi h.stored h.size hlen) ?_
  rintro _ t ⟨rfl, rfl⟩
  rw [flatten_chunk h.width hn]
  exact wp_require_bind (fun _ => wp_pure ⟨rfl, rfl⟩) fun hf =>
    absurd (h.width _ (List.getElem_mem hn)) (of_decide_eq_false hf)

/-- The entry with the index `j` is the first one with the name. -/
theorem wp_dirlookupLoop (h : Lists s dp es) {j : ℕ} (hj : j < es.length)
    (hbefore : ∀ n (hn : n < j), ¬ nameEq name (direntName es[n]))
    (hinum : direntInum es[j] ≠ 0) (hname : nameEq name (direntName es[j]))
    {Q : Option (Ptr × ℕ) → St → Prop} {E : Panic → Prop}
    (hQ : wp (iget (s.inode dp).dev (direntInum es[j])) (fun k s' =>
      Q (some (k, direntSize * j)) s') E s) {fuel n : ℕ} (hn : n ≤ j) (hfuel : j < n + fuel) :
    wp (dirlookupLoop dp name fuel (direntSize * n)) Q E s := by
  induction fuel generalizing n with
  | zero => exact absurd hfuel (by omega)
  | succ fuel ih =>
    apply wp_bind_eq (wp_readDirent h (by omega))
    rcases Nat.eq_or_lt_of_le hn with rfl | hlt
    · rw [if_pos ⟨hinum, hname⟩]
      exact wp_get (wp_bind hQ fun k s' hs' => wp_pure hs')
    · rw [if_neg fun hc => hbefore n hlt hc.2]
      exact ih hlt (by omega)

/-! ## §4  The kernel on the image

The kernel uses two entries of its inode table: the root directory, and the file.
-/

theorem one_lt_ninode : 1 < ninode := by decide

def rootPtr : Ptr := ⟨0, by decide⟩
def filePtr : Ptr := ⟨1, one_lt_ninode⟩

def table (disk : ℕ → Data) (root file : Inode) : St :=
  ⟨sb, disk, update (update (fun _ => default) rootPtr root) filePtr file⟩

/-- An entry of the table, without its lock. -/
def entry (d : Dinode) (inum : ℕ) (ref : ℤ) (valid : Bool) : Inode :=
  ⟨d, rootdev, inum, ref, false, valid⟩

variable {root file a : Inode}

@[simp] theorem table_root : (table disk root file).inode rootPtr = root := by
  simp [table, update_of_ne (show rootPtr ≠ filePtr by decide)]

@[simp] theorem table_file : (table disk root file).inode filePtr = file := by
  simp [table]

theorem table_other {k : Ptr} (h : k ≠ rootPtr) (h' : k ≠ filePtr) :
    (table disk root file).inode k = default := by
  simp [table, h, h']

@[simp] theorem setInode_root :
    setInode (table disk root file) rootPtr a = table disk a file := by
  simp [setInode, table, update_comm (show rootPtr ≠ filePtr by decide)]

@[simp] theorem setInode_file :
    setInode (table disk root file) filePtr a = table disk root a := by
  simp [setInode, table]

theorem finRange_ninode : ∃ rest, List.finRange ninode = rootPtr :: filePtr :: rest := ⟨_, rfl⟩

theorem wp_iget_root (hdev : root.dev = rootdev) (hinum : root.inum = rootino)
    (href : 0 < root.ref) :
    wp (iget rootdev rootino) (fun k s' => k = rootPtr ∧
      s' = table disk { root with ref := root.ref + 1 } file) E (table disk root file) := by
  obtain ⟨rest, hlist⟩ := finRange_ninode
  apply wp_get
  rw [hlist, List.find?_cons_of_pos (by simp [hdev, hinum, href])]
  refine wp_modify_bind (wp_pure ⟨rfl, ?_⟩)
  simp

/-- The first reference to an inode, in the entry `k`. -/
theorem wp_iget_new {k : Ptr} {inum : ℕ}
    (hnone : ∀ j, ¬ (0 < (s.inode j).ref ∧ (s.inode j).inum = inum))
    (hfind : (List.finRange ninode).find? (fun j => (s.inode j).ref = 0) = some k)
    (hk : s.inode k = default) :
    wp (iget rootdev inum) (fun j s' => j = k ∧
      s' = setInode s k (entry (.fresh 0) inum 1 false)) E s := by
  apply wp_get
  rw [List.find?_eq_none.mpr, hfind]
  · refine wp_modify_bind (wp_pure ⟨rfl, ?_⟩)
    dsimp only
    rw [hk]
    rfl
  · intro j _ hc
    simp only [decide_eq_true_eq] at hc
    exact hnone j ⟨hc.1, hc.2.2⟩

theorem wp_iget_file (href : 0 < root.ref) (hinum : root.inum ≠ inum) :
    wp (iget rootdev inum) (fun k s' => k = filePtr ∧
      s' = table disk root (entry (.fresh 0) inum 1 false)) E (table disk root default) := by
  have hnone : ∀ j, ¬ (0 < ((table disk root default).inode j).ref ∧
      ((table disk root default).inode j).inum = inum) := by
    rintro j ⟨hpos, hj⟩
    by_cases hroot : j = rootPtr
    · subst hroot
      rw [table_root] at hj
      exact hinum hj
    · by_cases hfile : j = filePtr
      · subst hfile
        rw [table_file] at hpos
        exact absurd hpos (by decide)
      · rw [table_other hroot hfile] at hpos
        exact absurd hpos (by decide)
  refine wp_post (wp_iget_new hnone (k := filePtr) ?_ table_file) ?_
  · obtain ⟨rest, hlist⟩ := finRange_ninode
    rw [hlist, List.find?_cons_of_neg (by simp; omega), List.find?_cons_of_pos]
    simp
    rfl
  · rintro k s' ⟨rfl, rfl⟩
    exact ⟨rfl, setInode_file⟩

/-- `ilock` of an entry that was not loaded yet. -/
theorem wp_ilock_load (d : Dinode) (ref : ℤ) (hk : s.inode k = entry d inum ref false)
    (href : 1 ≤ ref) (htype : (dinode s.sb s.disk inum).type ≠ 0) :
    wp (ilock k) (fun _ s' => s' = setInode s k
      { entry (dinode s.sb s.disk inum) inum ref true with locked := true }) E s := by
  have hacquire := @acquiresleep_spec s E k fun hl => by rw [hk] at hl; cases hl
  rw [hk] at hacquire
  apply wp_get
  rw [hk]
  refine wp_require_bind (fun _ => ?_) fun hf => absurd href (of_decide_eq_false hf)
  apply wp_bind_state hacquire
  rw [if_neg (show ¬ (entry d inum ref false).valid = true from Bool.false_ne_true)]
  apply wp_get
  apply wp_bread
  apply wp_modify_bind
  refine wp_require (fun _ => ?_) fun hf => ?_
  · simp [setInode, entry, dinode]
  · simp [setInode, entry] at hf
    exact absurd hf htype

/-- The root directory keeps one reference, so `iput` frees nothing. -/
theorem wp_iunlockput_root {d : Dinode} {ref : ℤ} (href : 2 ≤ ref) :
    wp (iunlockput rootPtr) (fun _ s' => s' = table disk (entry d rootino (ref - 1) true) file) E
      (table disk { entry d rootino ref true with locked := true } file) := by
  have hunlock : wp (iunlock rootPtr) (fun _ s' => s' = table disk (entry d rootino ref true) file)
      E (table disk { entry d rootino ref true with locked := true } file) := by
    apply wp_get
    refine wp_require_bind (fun _ => wp_modify (by simp [entry])) fun hf => ?_
    simp only [table_root, entry, true_and, decide_eq_false_iff_not] at hf
    omega
  apply wp_bind_state hunlock
  apply wp_get
  have hlast : ¬ (((table disk (entry d rootino ref true) file).inode rootPtr).ref = 1 ∧
      ((table disk (entry d rootino ref true) file).inode rootPtr).valid ∧
      ((table disk (entry d rootino ref true) file).inode rootPtr).nlink = 0) := by
    rw [table_root]
    rintro ⟨hone, _⟩
    change ref = 1 at hone
    omega
  dsimp only
  rw [if_neg hlast]
  apply wp_pure_bind
  apply wp_modify
  rw [table_root]
  exact setInode_root

/-! ## §5  Every file is found and read -/

/-- `namei("/" + name)`, `ilock`, and `readi` over `[0, size)`; the result has the size. -/
def readFile (cwd : Option Ptr) (name : List UInt8) : Fs.Prog (Option (ℕ × List UInt8)) := do
  let ip ← namei cwd (slash :: name)
  match ip with
  | none => return none
  | some ip => do
    ilock ip
    let s ← get
    let size := (s.inode ip).size.toNat
    let data ← readi ip 0 size
    return some (size, data)

variable {files : List InputFile} {used : ℕ} {v : ℕ → Dinode}

theorem getElem_rootEntries {j : ℕ} (hj : j < files.length)
    (h : j + 2 < (rootEntries files).length) :
    (rootEntries files)[j + 2] = direntBytes files[j].name (j + 2) := by
  simp [rootEntries]

/-- The names of the files tell their entries apart from each other and from the dots. -/
structure Named (files : List InputFile) : Prop where
  distinct : files.Pairwise fun f g => f.name.take dirsiz ≠ g.name.take dirsiz
  noDot : ∀ f ∈ files, f.name ≠ dot ∧ f.name ≠ dotdot

theorem take_ne_of_short {x y : List UInt8} (hy : y.length < dirsiz) (h : x ≠ y) :
    x.take dirsiz ≠ y := by
  intro heq
  have hlen := congrArg List.length heq
  rw [List.length_take] at hlen
  rw [List.take_of_length_le (by omega)] at heq
  exact h heq

theorem InputFile.zero_notMem_name (f : InputFile) : 0 ∉ f.name := by
  have hshort : 0 ∉ shortname f.path := by
    unfold shortname
    split_ifs
    · exact fun h => f.noNul (List.mem_of_mem_drop h)
    · exact f.noNul
  unfold InputFile.name
  split_ifs
  · exact fun h => hshort (List.mem_of_mem_tail h)
  · exact hshort

/-- No entry before the one of a file has its name. -/
theorem Named.before (h : Named files) {j : ℕ} (hj : j < files.length) {n : ℕ} (hn : n < j + 2)
    (hn' : n < (rootEntries files).length) :
    ¬ nameEq (files[j].name.take dirsiz) (direntName (rootEntries files)[n]) := by
  have hzero := files[j].zero_notMem_name
  have hdots := h.noDot files[j] (List.getElem_mem hj)
  match n with
  | 0 =>
    show ¬ nameEq _ (direntName (direntBytes dot rootino))
    rw [nameEq_direntBytes hzero (by decide)]
    exact take_ne_of_short (by decide) hdots.1
  | 1 =>
    show ¬ nameEq _ (direntName (direntBytes dotdot rootino))
    rw [nameEq_direntBytes hzero (by decide)]
    exact take_ne_of_short (by decide) hdots.2
  | n + 2 =>
    have hlt : n < j := by omega
    rw [getElem_rootEntries (by omega), nameEq_direntBytes hzero (InputFile.zero_notMem_name _)]
    exact fun heq => List.pairwise_iff_getElem.mp h.distinct n j _ hj hlt heq.symm

theorem wp_namei_slash {cwd : Option Ptr} {s' : St}
    (h : wp (iget rootdev rootino) (fun i t => i = k ∧ t = s') E s) :
    wp (namei cwd [slash]) (fun r t => r = some k ∧ t = s') E s :=
  wp_bind_eq (wp_bind_eq h (wp_pure ⟨rfl, rfl⟩)) (wp_pure ⟨rfl, rfl⟩)

theorem readsb_sbBlock : readsb sbBlock = sb := by
  rfl

section

variable (h : Written files used v disk)

include h

theorem Written.lists_root (root file : Inode)
    (hd : root.toDinode = v rootino) :
    Lists (table disk root file) rootPtr (rootEntries files) where
  stored := by
    rw [table_root, hd]
    exact ⟨_, _, h.exact.files rootino⟩
  size := by
    have hlen := Nat.div_add_mod' (contents files rootino).length bsize
    have hmod := Nat.mod_lt (contents files rootino).length (show 0 < bsize by decide)
    rw [table_root, hd, h.rootSize, Nat.succ_mul]
    show (contents files rootino).length ≤ _
    omega
  width _ := width_rootEntries

theorem Written.type_root : (v rootino).type = tDir :=
  congrArg Prod.fst (h.kind rootino)

theorem Written.type_file {j : ℕ} (hj : j < files.length) :
    (v (j + 2)).type = tFile := by
  have hkind := congrArg Prod.fst (h.kind (j + 2))
  rwa [kinds, if_pos hj] at hkind

theorem wp_dirlookup_file (hn : Named files) {j : ℕ}
    (hj : j < files.length) (hinum : j + 2 < 65536) (hd : root.toDinode = v rootino)
    (hdev : root.dev = rootdev) (hroot : root.inum = rootino) (href : 0 < root.ref) :
    wp (dirlookup rootPtr (files[j].name.take dirsiz)) (fun r s' =>
      r = some (filePtr, direntSize * (j + 2)) ∧
      s' = table disk root (entry (.fresh 0) (j + 2) 1 false)) E (table disk root default) := by
  have hlists := h.lists_root root default hd
  have hlen : j + 2 < (rootEntries files).length := by
    rw [length_rootEntries]
    omega
  have hentry := getElem_rootEntries hj hlen
  have hnum : direntInum (rootEntries files)[j + 2] = j + 2 := by
    rw [hentry, direntInum_direntBytes hinum]
  apply wp_get
  refine wp_require_bind (fun _ => ?_) fun hf => ?_
  swap
  · rw [table_root, hd, h.type_root] at hf
    exact absurd hf (by decide)
  refine wp_dirlookupLoop (n := 0) hlists hlen (fun n hlt => hn.before hj hlt _)
    (by omega) ?_ ?_ (Nat.zero_le _) ?_
  · rw [hentry, nameEq_direntBytes (InputFile.zero_notMem_name _) (InputFile.zero_notMem_name _)]
  · rw [hnum, table_root, hdev]
    have hne : root.inum ≠ j + 2 := by
      rw [hroot]
      show 1 ≠ j + 2
      omega
    refine wp_post (wp_iget_file href hne) ?_
    rintro _ _ ⟨rfl, rfl⟩
    exact ⟨rfl, rfl⟩
  · -- the size of the directory is at least that of its entries
    have hsize := hlists.size
    rw [hlists.length] at hsize
    unfold direntRounds
    unfold direntSize at hsize ⊢
    omega

/-- The kernel after the boot on the image: one reference to the root directory. -/
def booted (disk : ℕ → Data) : SysFile.St where
  fs := table disk (entry (.fresh 0) rootino 1 false) default
  file _ := default
  ntask := 1
  task pid := if pid = 0 then ⟨true, fun _ => none, some rootPtr⟩ else default

theorem Written.boot : SysFile.boot disk = .ok (booted disk) := by
  have hstate : (⟨sb, disk, fun _ => default⟩ : St) = table disk default default := by
    unfold table
    rw [update_eq_self_iff.mpr, update_eq_self_iff.mpr] <;> rfl
  have hnamei : wp (namei none [slash]) (fun r s' => r = some rootPtr ∧ s' = (booted disk).fs)
      noError (table disk default default) := by
    have hget : wp (iget rootdev rootino) (fun k s' => k = rootPtr ∧ s' = (booted disk).fs) noError
        (table disk default default) := by
      have hdefault : ∀ k, (table disk default default).inode k = default := by
        rw [← hstate]
        exact fun _ => rfl
      have hnone : ∀ j, ¬ (0 < ((table disk default default).inode j).ref ∧
          ((table disk default default).inode j).inum = rootino) := by
        rintro j ⟨hpos, _⟩
        rw [hdefault] at hpos
        exact absurd hpos (by decide)
      refine wp_post (wp_iget_new hnone (k := rootPtr) ?_ (hdefault _)) ?_
      · obtain ⟨rest, hlist⟩ := finRange_ninode
        rw [hlist, List.find?_cons_of_pos]
        rw [hdefault]
        rfl
      · rintro _ _ ⟨rfl, rfl⟩
        exact ⟨rfl, setInode_root⟩
    exact wp_namei_slash hget
  obtain ⟨_, _, hrun, rfl, rfl⟩ := exists_of_wp hnamei
  unfold SysFile.boot
  rw [h.super, readsb_sbBlock]
  dsimp only
  rw [if_pos (show sb.magic = fsmagic from rfl), hstate, hrun]
  rfl

/-- An entry that is loaded and locked. -/
def held (v : ℕ → Dinode) (inum : ℕ) (ref : ℤ) : Inode :=
  { entry (v inum) inum ref true with locked := true }

theorem Written.wp_ilock_root :
    wp (ilock rootPtr) (fun _ s' => s' = table disk (held v rootino 2) default) E
      (table disk (entry (.fresh 0) rootino 2 false) default) := by
  have hsaved : dinode sb disk rootino = v rootino := h.saved _ (by decide)
  have htype : (dinode sb disk rootino).type ≠ 0 := by
    rw [hsaved, h.type_root]
    decide
  refine wp_post (wp_ilock_load (.fresh 0) 2 table_root (by decide) htype) ?_
  rintro _ _ rfl
  rw [setInode_root, held, ← hsaved]
  rfl

theorem Written.wp_namei (hfits : Fits files)
    (hn : Named files) {j : ℕ} (hj : j < files.length) (hne : files[j].name ≠ [])
    (hslash : slash ∉ files[j].name) :
    wp (namei (some rootPtr) (slash :: files[j].name)) (fun r s' => r = some filePtr ∧
      s' = table disk (entry (v rootino) rootino 1 true) (entry (.fresh 0) (j + 2) 1 false)) E
      (booted disk).fs := by
  have hinodes : files.length + 1 ≤ 200 := hfits.inodes
  refine wp_bind (wp_bind_eq (wp_iget_root rfl rfl (by decide)) ?_) fun r s' hr => wp_pure hr
  rw [elems_rooted hne hslash]
  apply wp_bind_state h.wp_ilock_root
  apply wp_get
  rw [table_root, if_neg (show ¬ (held v rootino 2).type ≠ tDir from not_not_intro h.type_root),
    if_neg (by simp)]
  apply wp_bind_eq (wp_dirlookup_file h hn hj (by omega) rfl rfl rfl two_pos)
  apply wp_bind_state (wp_iunlockput_root (by decide))
  exact wp_pure ⟨rfl, rfl⟩

theorem Written.wp_readFile (hfits : Fits files)
    (hn : Named files) {j : ℕ} (hj : j < files.length) (hne : files[j].name ≠ [])
    (hslash : slash ∉ files[j].name) :
    wp (readFile (some rootPtr) files[j].name)
      (fun r _ => r = some (files[j].bytes.length, files[j].bytes)) E (booted disk).fs := by
  have hinodes : files.length + 1 ≤ 200 := hfits.inodes
  have hsaved : dinode sb disk (j + 2) = v (j + 2) := h.saved _ (by show j + 2 < 208; omega)
  have htype : (dinode sb disk (j + 2)).type ≠ 0 := by
    rw [hsaved, h.type_file hj]
    decide
  have hroot : j + 2 ≠ rootino := by
    show j + 2 ≠ 1
    omega
  have hbytes : contents files (j + 2) = files[j].bytes := by
    simp [contents, hj]
  have hread : wp (readi filePtr 0 files[j].bytes.length) (fun r _ => r = files[j].bytes) E
      (table disk (entry (v rootino) rootino 1 true) (held v (j + 2) 1)) := by
    have hstored := h.exact.files (j + 2)
    have hsize := h.size (j + 2) hroot
    rw [hbytes] at hstored hsize
    refine wp_post (wp_readi ?_ ?_ (Nat.zero_add _).le) ?_
    · rw [table_file]
      exact ⟨_, _, hstored⟩
    · rw [table_file]
      exact hsize.ge
    · rintro r _ ⟨hr, _⟩
      rw [hr, List.drop_zero, List.take_length]
  apply wp_bind_eq (h.wp_namei hfits hn hj hne hslash)
  apply wp_bind_state (wp_ilock_load (.fresh 0) 1 table_file (by decide) htype)
  rw [setInode_file]
  change wp _ _ E (table disk _ {
    entry (dinode sb disk (j + 2)) (j + 2) 1 true with locked := true })
  rw [hsaved]
  change wp _ _ E (table disk _ (held v (j + 2) 1))
  have hsize : (held v (j + 2) 1).size.toNat = files[j].bytes.length := hbytes ▸ h.size _ hroot
  apply wp_get
  rw [table_file, hsize]
  refine wp_bind hread ?_
  rintro _ _ rfl
  exact wp_pure rfl

end

/-- `mkfs` and the kernel agree: the kernel finds each file by its name, with the size and the
bytes that the file had on the host. -/
theorem mkfs_agrees (files : List InputFile) (hfits : Fits files) (hnamed : Named files)
    (hplain : ∀ f ∈ files, f.name ≠ [] ∧ slash ∉ shortname f.path) :
    ∃ disk s, mkfs files = .ok disk ∧ SysFile.boot disk = .ok s ∧
      ∀ f ∈ files, ∃ fs, readFile (s.task 0).cwd f.name s.fs =
        .ok (some (f.bytes.length, f.bytes), fs) := by
  obtain ⟨disk, v, hmkfs, hw⟩ := mkfs_written hfits fun f hf => (hplain f hf).2
  refine ⟨disk, booted disk, hmkfs, hw.boot, ?_⟩
  intro f hf
  obtain ⟨j, hj, rfl⟩ := List.getElem_of_mem hf
  have hslash : slash ∉ files[j].name := by
    unfold InputFile.name
    split_ifs
    · exact fun hc => (hplain _ hf).2 (List.mem_of_mem_tail hc)
    · exact (hplain _ hf).2
  obtain ⟨r, fs, hrun, rfl⟩ := exists_of_wp (hw.wp_readFile hfits hnamed hj (hplain _ hf).1 hslash)
  exact ⟨fs, hrun⟩

/-- A file of one byte. -/
def byteFile (path : List UInt8) (h : 0 ∉ path) : InputFile where
  path := path
  reads := [[7]]
  noNul := h
  reads_ok := by decide

/-- `user/_cat` -/
def catPath : List UInt8 := [117, 115, 101, 114, 47, 95, 99, 97, 116]

theorem mkfs_agrees_cat : ∃ disk s, mkfs [byteFile catPath (by decide)] = .ok disk ∧
    SysFile.boot disk = .ok s ∧ ∃ fs, readFile (s.task 0).cwd [99, 97, 116] s.fs =
      .ok (some (1, [7]), fs) := by
  have hfits : Fits [byteFile catPath (by decide)] := ⟨by decide, by decide, by decide⟩
  have hnamed : Named [byteFile catPath (by decide)] := ⟨by simp, by decide⟩
  have hname : (byteFile catPath (by decide)).name = [99, 97, 116] := by decide
  have hbytes : (byteFile catPath (by decide)).bytes = [7] := rfl
  obtain ⟨disk, s, hmkfs, hboot, hread⟩ := mkfs_agrees _ hfits hnamed (by decide)
  have hcat := hread _ List.mem_cons_self
  rw [hname, hbytes] at hcat
  exact ⟨disk, s, hmkfs, hboot, hcat⟩

/-- The file `_` gets the empty name, and `/` is the root directory, which has the size of a
block. -/
theorem not_agrees_underscore : ∃ f : InputFile, Fits [f] ∧ Named [f] ∧
    slash ∉ shortname f.path ∧ ∃ disk s data fs, mkfs [f] = .ok disk ∧
      SysFile.boot disk = .ok s ∧
      readFile (s.task 0).cwd f.name s.fs = .ok (some (1024, data), fs) ∧ f.bytes = [7] := by
  have hfits : Fits [byteFile [underscore] (by decide)] := ⟨by decide, by decide, by decide⟩
  obtain ⟨disk, v, hmkfs, hw⟩ := mkfs_written hfits (by decide)
  have hroot : (v rootino).size.toNat = 1024 := by
    rw [hw.rootSize]
    decide
  have hread : wp (readFile (some rootPtr) []) (fun r _ => ∃ data, r = some (1024, data)) noError
      (booted disk).fs := by
    obtain ⟨hstored, hlen⟩ := (hw.exact.files rootino).pad
    rw [show blocksFor _ * bsize = 1024 by decide] at hlen
    apply wp_bind_eq (wp_namei_slash (wp_iget_root rfl rfl (by decide)))
    apply wp_bind_state hw.wp_ilock_root
    apply wp_get
    rw [table_root]
    dsimp only [held, entry]
    rw [hroot]
    refine wp_bind (wp_readi ⟨_, _, hstored⟩ ?_ hlen.ge) ?_
    · rw [table_root]
      exact hlen.trans_le hroot.ge
    · rintro data _ -
      exact wp_pure ⟨data, rfl⟩
  obtain ⟨_, fs, hrun, data, rfl⟩ := exists_of_wp hread
  exact ⟨_, hfits, ⟨by simp, by decide⟩, by decide, disk, _, data, fs, hmkfs, hw.boot, hrun, rfl⟩

end RiscvBm.Mkfs

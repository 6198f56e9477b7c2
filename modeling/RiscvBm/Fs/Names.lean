import RiscvBm.Fs.Contents
import RiscvBm.Lib.Slots

/-!
# What the directories contain

A file system as names and links: `Ino` is an inode with its type, its link count and, for a
directory, its entries. A block that a directory does not have (`mkfs` rounds the size of the
root directory up) reads as zeroes, which are entries that are not used.

Two inodes show the same if one has more blocks than the other and those blocks are zero
(`Behind`): a lookup in a directory gives it such blocks in memory, without a change of the
inode on the disk. A path is followed name by name; the names are its `components`.
-/

namespace RiscvBm.Fs

open Bio (bsize Data)
open Bytes Slots Function

/-! ## §1  Entries -/

/-- A name as `namecmp` sees it. -/
def canon (name : List UInt8) : List UInt8 := (name.take dirsiz).takeWhile (· ≠ 0)

theorem nameEq_iff {s t : List UInt8} : nameEq s t = true ↔ canon s = canon t := by
  rw [nameEq, beq_iff_eq]
  rfl

theorem canon_take (name : List UInt8) : canon (name.take dirsiz) = canon name := by
  rw [canon, List.take_take, Nat.min_self, canon]

/-- What an entry says: the inode and its name. -/
def entryOf (de : List UInt8) : ℕ × List UInt8 := (direntInum de, canon (direntName de))

/-- The bytes of the `m`-th entry. -/
def Dinode.direntAt (disk : ℕ → Data) (d : Dinode) (m : ℕ) : List UInt8 :=
  if d.block disk (direntSize * m / bsize) = 0 then List.replicate direntSize 0
  else slice (disk (d.block disk (direntSize * m / bsize))) (direntSize * m % bsize) direntSize

def Dinode.ents (disk : ℕ → Data) (d : Dinode) : List (ℕ × List UInt8) :=
  if d.type = tDir then
    (List.range (d.size.toNat / direntSize)).map fun m => entryOf (d.direntAt disk m)
  else []

/-- An inode as a set of names. -/
structure Ino where
  type : BitVec 16
  nlink : BitVec 16
  ents : List (ℕ × List UInt8)

def Ino.free : Ino := ⟨0, 0, []⟩

def Dinode.ino (disk : ℕ → Data) (d : Dinode) : Ino := ⟨d.type, d.nlink, d.ents disk⟩

/-- The size of a directory. -/
structure Dinode.Shape (d : Dinode) : Prop where
  mod : d.size.toNat % direntSize = 0
  le : d.size.toNat ≤ maxfile * bsize

theorem takeWhile_takeD_zero (l : List UInt8) (n : ℕ) :
    (l.takeD n 0).takeWhile (· ≠ 0) = (l.take n).takeWhile (· ≠ 0) := by
  induction n generalizing l with
  | zero => simp
  | succ n ih =>
    cases l with
    | nil => simp
    | cons a l =>
      rw [List.takeD_succ, List.take_succ_cons, List.head?_cons, Option.getD_some,
        List.tail_cons, List.takeWhile_cons, List.takeWhile_cons, ih]

/-- The bytes that `readi` gets back after `writei` of `de`. -/
theorem entryOf_takeD (de : List UInt8) : entryOf (de.takeD direntSize 0) = entryOf de := by
  have hinum : direntInum (de.takeD direntSize 0) = direntInum de := by
    rcases de with _ | ⟨a, _ | ⟨b, de⟩⟩ <;> rfl
  have hname : direntName (de.takeD direntSize 0) = (direntName de).takeD dirsiz 0 := by
    rcases de with _ | ⟨a, _ | ⟨b, de⟩⟩ <;> rfl
  unfold entryOf
  rw [hinum, hname]
  congr 1
  unfold canon
  rw [List.take_of_length_le (by rw [List.takeD_length]), takeWhile_takeD_zero]

theorem entryOf_nil : entryOf [] = (0, []) := rfl

theorem entryOf_dirent (name : List UInt8) {inum : ℕ} (h : inum < 65536) :
    entryOf (dirent name inum) = (inum, canon name) := by
  have hlo : (UInt8.ofNat inum).toNat = inum % 256 := UInt8.toNat_ofNat'
  have hhi : (UInt8.ofNat (inum / 256)).toNat = inum / 256 % 256 := UInt8.toNat_ofNat'
  unfold entryOf
  congr 1
  · simp only [direntInum, dirent, List.getD_cons_zero, List.getD_cons_succ]
    omega
  · exact canon_take name

theorem slice_zero (off m : ℕ) : slice zero off m = List.replicate m 0 := by
  apply List.eq_replicate_iff.mpr
  refine ⟨length_slice _ _ _, ?_⟩
  intro x hx
  obtain ⟨i, -, rfl⟩ := List.mem_map.mp hx
  rw [byteAt_zero]
  rfl

variable {disk disk' : ℕ → Data} {d d₀ d' : Dinode} {m bn : ℕ}

theorem Dinode.length_ents (h : d.type = tDir) :
    (d.ents disk).length = d.size.toNat / direntSize := by
  rw [Dinode.ents, if_pos h, List.length_map, List.length_range]

theorem Dinode.getElem?_ents (h : d.type = tDir) (hm : m < d.size.toNat / direntSize) :
    (d.ents disk)[m]? = some (entryOf (d.direntAt disk m)) := by
  rw [Dinode.ents, if_pos h, List.getElem?_map, List.getElem?_range hm, Option.map_some]

/-- The entries are inside of the blocks that a file can have. -/
theorem Dinode.Shape.block_lt (h : d.Shape) (hm : m < d.size.toNat / direntSize) :
    direntSize * m / bsize < maxfile := by
  have hle : d.size.toNat ≤ 268 * 1024 := h.le
  have hm : m < d.size.toNat / 16 := hm
  show 16 * m / 1024 < 268
  omega

/-! ## §2  Inodes that show the same -/

/-- The slot of `addrs` that leads to the `bn`-th block. -/
def topSlot (bn : ℕ) : Fin 13 := if bn < ndirect then Fin.ofNat 13 bn else indirect

structure Behind (disk : ℕ → Data) (d₀ d : Dinode) : Prop where
  type : d₀.type = d.type
  nlink : d₀.nlink = d.nlink
  size : d₀.size = d.size
  addrs : d.type ≠ 0 → ∀ j, d₀.addrs j = d.addrs j ∨ d₀.addrs j = 0 ∧ ∀ bn < maxfile,
    topSlot bn = j → d.block disk bn ≠ 0 → disk (d.block disk bn) = zero

theorem Behind.refl (disk : ℕ → Data) (d : Dinode) : Behind disk d d :=
  ⟨rfl, rfl, rfl, fun _ _ => Or.inl rfl⟩

theorem Dinode.block_of_top (hbn : bn < maxfile)
    (h : d₀.addrs (topSlot bn) = d.addrs (topSlot bn)) :
    d₀.block disk bn = d.block disk bn := by
  unfold Dinode.block
  by_cases hd : bn < ndirect
  · rw [topSlot, if_pos hd] at h
    rw [fileSlot_direct hd]
    exact congrArg BitVec.toNat h
  · rw [topSlot, if_neg hd] at h
    have hlt : bn - ndirect < nindirect := by
      unfold maxfile at hbn
      omega
    rw [fileSlot_entry hd hlt, Dinode.slot, Dinode.slot, h]

theorem Dinode.block_of_top_zero (hbn : bn < maxfile) (h : d.addrs (topSlot bn) = 0) :
    d.block disk bn = 0 :=
  -- as in an inode that has just been allocated
  (Dinode.block_of_top (d := .fresh 0) hbn h).trans (Dinode.slot_eq_zero rfl _)

/-- The blocks stay, with their contents; the ones that are new are zero. -/
def Grows (disk : ℕ → Data) (d : Dinode) (disk' : ℕ → Data) (d' : Dinode) : Prop :=
  ∀ bn < maxfile, d'.block disk' bn = d.block disk bn ∧
      (d.block disk bn ≠ 0 → disk' (d.block disk bn) = disk (d.block disk bn)) ∨
    d.block disk bn = 0 ∧ (d'.block disk' bn ≠ 0 → disk' (d'.block disk' bn) = zero)

theorem Dinode.direntAt_of_zero
    (h : d.block disk (direntSize * m / bsize) ≠ 0 →
      disk (d.block disk (direntSize * m / bsize)) = zero) :
    d.direntAt disk m = List.replicate direntSize 0 := by
  unfold Dinode.direntAt
  split_ifs with h0
  · rfl
  · rw [h h0, slice_zero]

theorem Grows.direntAt (h : Grows disk d disk' d') (hbn : direntSize * m / bsize < maxfile) :
    d'.direntAt disk' m = d.direntAt disk m := by
  rcases h _ hbn with ⟨hsame, hdata⟩ | ⟨h0, hnew⟩
  · unfold Dinode.direntAt
    rw [hsame]
    split_ifs with h0
    · rfl
    · rw [hdata h0]
  · rw [Dinode.direntAt_of_zero hnew, Dinode.direntAt_of_zero fun hne => absurd h0 hne]

theorem Grows.ino (h : d.type = tDir → Grows disk d disk' d') (htype : d'.type = d.type)
    (hnlink : d'.nlink = d.nlink) (hsize : d'.size = d.size)
    (hshape : d.type = tDir → d.Shape) : d'.ino disk' = d.ino disk := by
  have hents : d'.ents disk' = d.ents disk := by
    unfold Dinode.ents
    rw [htype, hsize]
    split_ifs with hdir
    · apply List.map_congr_left
      intro m hm
      rw [(h hdir).direntAt ((hshape hdir).block_lt (List.mem_range.mp hm))]
    · rfl
  unfold Dinode.ino
  rw [htype, hnlink, hents]

theorem Behind.grows (h : Behind disk d₀ d) (ht : d.type ≠ 0) : Grows disk d₀ disk d := by
  intro bn hbn
  rcases h.addrs ht (topSlot bn) with heq | ⟨hzero, hdata⟩
  · exact Or.inl ⟨(Dinode.block_of_top hbn heq).symm, fun _ => rfl⟩
  · exact Or.inr ⟨Dinode.block_of_top_zero hbn hzero, hdata bn hbn rfl⟩

theorem Behind.ino_eq (h : Behind disk d₀ d) (hshape : d.type = tDir → d.Shape) :
    d.ino disk = d₀.ino disk := by
  apply Grows.ino _ h.type.symm h.nlink.symm h.size.symm
  · intro hdir
    obtain ⟨hmod, hle⟩ := hshape (h.type ▸ hdir)
    rw [← h.size] at hmod hle
    exact ⟨hmod, hle⟩
  · intro hdir
    apply h.grows
    rw [← h.type, hdir]
    decide

/-- The one in memory grows, with the disk. -/
theorem Behind.grow (h : Behind disk d₀ d) (hg : d.type ≠ 0 → Grows disk d disk' d')
    (htype : d'.type = d.type) (hnlink : d'.nlink = d.nlink) (hsize : d'.size = d.size)
    (haddrs : ∀ j, d'.addrs j = d.addrs j ∨ d.addrs j = 0) : Behind disk' d₀ d' := by
  refine ⟨h.type.trans htype.symm, h.nlink.trans hnlink.symm, h.size.trans hsize.symm, ?_⟩
  intro ht j
  rw [htype] at ht
  rcases haddrs j with hsame | hzero
  · rw [hsame]
    refine (h.addrs ht j).imp_right fun ⟨h0, hdata⟩ => ⟨h0, ?_⟩
    intro bn hbn htop hne
    rcases hg ht bn hbn with ⟨hblock, hcontents⟩ | ⟨-, hnew⟩
    · rw [hblock] at hne ⊢
      rw [hcontents hne, hdata bn hbn htop hne]
    · exact hnew hne
  · refine Or.inr ⟨?_, ?_⟩
    · rcases h.addrs ht j with heq | ⟨h0, -⟩
      · rw [heq, hzero]
      · exact h0
    · rintro bn hbn rfl hne
      rcases hg ht bn hbn with ⟨hblock, -⟩ | ⟨-, hnew⟩
      · rw [hblock, Dinode.block_of_top_zero hbn hzero] at hne
        exact absurd rfl hne
      · exact hnew hne

/-- The one behind has no blocks of its own. -/
theorem Behind.slot (h : Behind disk d₀ d) (ht : d.type ≠ 0) {sl : Slot}
    (hne : d₀.slot disk sl ≠ 0) : d.slot disk sl = d₀.slot disk sl := by
  cases sl with
  | addr j =>
    rcases h.addrs ht j with heq | ⟨hzero, -⟩
    · exact congrArg BitVec.toNat heq.symm
    · refine absurd ?_ hne
      rw [Dinode.slot, hzero]
      rfl
  | entry j =>
    rcases h.addrs ht indirect with heq | ⟨hzero, -⟩
    · rw [Dinode.slot, Dinode.slot, heq]
    · refine absurd ?_ hne
      rw [Dinode.slot, if_pos (by rw [hzero]; rfl)]

/-! ## §3  The components of a path -/

/-- The pieces between slashes that are not empty. -/
def words (path : List UInt8) : List (List UInt8) := (path.splitOn slash).filter (· ≠ [])

def components (path : List UInt8) : List (List UInt8) := (words path).map (List.take dirsiz)

theorem words_slash (path : List UInt8) : words (slash :: path) = words path := by
  unfold words List.splitOn
  rw [List.splitOnP_cons_eq_if_modifyHead, if_pos (by decide)]
  rfl

theorem words_dropWhile (path : List UInt8) : words (path.dropWhile (· = slash)) = words path := by
  induction path with
  | nil => rfl
  | cons a path ih =>
    by_cases ha : a = slash
    · rw [List.dropWhile_cons_of_pos (by simpa using ha), ih, ha, words_slash]
    · rw [List.dropWhile_cons_of_neg (by simpa using ha)]

/-- A path that starts with a word. -/
theorem words_word {p : List UInt8} {a : UInt8} (ha : a ≠ slash) :
    words (a :: p) = (a :: p).takeWhile (· ≠ slash) :: words ((a :: p).dropWhile (· ≠ slash)) := by
  have hword : (a :: p).takeWhile (· ≠ slash) = a :: p.takeWhile (· ≠ slash) :=
    List.takeWhile_cons_of_pos (by simpa using ha)
  have hclean : ∀ x ∈ (a :: p).takeWhile (· ≠ slash), (x == slash) = false := by
    intro x hx
    have hne := List.all_eq_true.mp List.all_takeWhile x hx
    simpa using hne
  have hsplit := List.takeWhile_append_dropWhile (p := (· ≠ slash)) (l := a :: p)
  generalize (a :: p).takeWhile (· ≠ slash) = w at *
  have hkeep : ∀ ws, List.filter (fun u : List UInt8 => decide (u ≠ [])) (w :: ws)
      = w :: ws.filter (· ≠ []) := by
    intro ws
    rw [hword]
    rfl
  cases hrest : (a :: p).dropWhile (· ≠ slash) with
  | nil =>
    rw [hrest, List.append_nil] at hsplit
    rw [← hsplit]
    unfold words List.splitOn
    rw [List.splitOnP_eq_singleton hclean, hkeep]
    rfl
  | cons b rest =>
    have hb : b = slash := by
      have hne := List.head?_dropWhile_not (fun x : UInt8 => decide (x ≠ slash)) (a :: p)
      rw [hrest] at hne
      simpa using hne
    rw [hrest] at hsplit
    rw [← hsplit, hb, words_slash]
    unfold words List.splitOn
    rw [List.splitOnP_append_cons_of_forall_mem hclean slash (by decide),
      hkeep]

/-- Repeated calls of `skipelem` give the components. -/
theorem elems_eq_components {c : ℕ} {path : List UInt8} (hc : path.length ≤ c) :
    elems c path = components path := by
  induction c generalizing path with
  | zero =>
    obtain rfl := List.length_eq_zero_iff.mp (Nat.le_zero.mp hc)
    rfl
  | succ c ih =>
    have hwords := words_dropWhile path
    have hle := (List.dropWhile_sublist (fun x : UInt8 => decide (x = slash)) (l := path)).length_le
    unfold elems skipelem
    cases hp : path.dropWhile (· = slash) with
    | nil =>
      rw [hp] at hwords
      rw [components, ← hwords]
      rfl
    | cons a p =>
      have ha : a ≠ slash := by
        have hne := List.head?_dropWhile_not (fun x : UInt8 => decide (x = slash)) path
        rw [hp] at hne
        simpa using hne
      have hdrop : (a :: p).dropWhile (· ≠ slash) = p.dropWhile (· ≠ slash) :=
        List.dropWhile_cons_of_pos (by simpa using ha)
      have hle₁ := (List.dropWhile_sublist (fun x : UInt8 => decide (x ≠ slash))
        (l := p)).length_le
      have hle₂ := (List.dropWhile_sublist (fun x : UInt8 => decide (x = slash))
        (l := p.dropWhile (· ≠ slash))).length_le
      rw [hp, List.length_cons] at hle
      rw [hp, words_word ha] at hwords
      dsimp only
      rw [components, ← hwords, List.map_cons, ih, components, words_dropWhile]
      rw [hdrop]
      omega

end RiscvBm.Fs

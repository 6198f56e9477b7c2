import RiscvBm.Fs.InodeRefs
import RiscvBm.Fs.Owned

/-!
# Block ownership over whole runs

`blocksOwned_run`: from a well-formed image, after any sequence of system calls by
any processes, the bitmap marks exactly the metadata and the blocks that one place
refers to. `bfree` never panics. The image has to be well formed in one more respect than
ownership itself: an entry of a directory that names no inode of the image makes the
kernel take other bytes for an inode (`not_blocksOwned_forged`).
-/

namespace RiscvBm.Fs

open Bio (bsize Data)
open Ownership

/-! ## §1  The property -/

/-- The block that a place refers to on the disk. -/
def diskRef (sb : Superblock) (disk : ℕ → Data) (p : Place) : ℕ :=
  blockAt sb.ninodes disk (dinode sb disk) p

structure BlocksOwned (sb : Superblock) (disk : ℕ → Data) : Prop where
  used_iff : ∀ b < sb.size, b ∈ usedBlocks sb disk ↔ Meta sb b ∨ ∃! p, diskRef sb disk p = b
  once : ∀ p q, diskRef sb disk p ≠ 0 → diskRef sb disk p = diskRef sb disk q → p = q

/-- Every block below the size of an inode is allocated. -/
def NoHoles (sb : Superblock) (disk : ℕ → Data) : Prop :=
  ∀ i < sb.ninodes, (dinode sb disk i).type ≠ 0 →
    (dinode sb disk i).Filled disk (dinode sb disk i).size.toNat

/-- The entries of directories name inodes of the image. -/
def EntriesOk (sb : Superblock) (disk : ℕ → Data) : Prop :=
  ∀ i < sb.ninodes, (dinode sb disk i).type = tDir → ∀ off, off % direntSize = 0 →
    off + direntSize ≤ (dinode sb disk i).size.toNat → off / bsize < maxfile →
      (dinode sb disk i).inumAt disk off < sb.ninodes

/-- What is asked of an image apart from the entries: `mkfs`'s layout, references to data
blocks only, and no holes. -/
structure ImageOk (sb : Superblock) (disk : ℕ → Data) : Prop where
  layout : Layout sb
  owned : BlocksOwned sb disk
  data : ∀ p, diskRef sb disk p ≠ 0 → diskRef sb disk p ∈ dataBlocks sb
  noHoles : NoHoles sb disk

variable {sb : Superblock} {disk : ℕ → Data}

theorem Consistent.congr_inodes {v w : ℕ → Dinode} (h : Consistent sb disk v)
    (hvw : ∀ i < sb.ninodes, v i = w i) : Consistent sb disk w := by
  have href : blockAt sb.ninodes disk v = blockAt sb.ninodes disk w := by
    funext p
    unfold blockAt
    by_cases hp : p.1 < sb.ninodes
    · rw [hvw _ hp]
    · rw [if_neg fun hc => hp hc.1, if_neg fun hc => hp hc.1]
  refine ⟨⟨href ▸ h.toOwns, h.reserved⟩, href ▸ h.owned, fun i hi ht => ?_⟩
  rw [← hvw i hi] at ht ⊢
  exact h.files i hi ht

theorem ImageOk.consistent (h : ImageOk sb disk) (he : EntriesOk sb disk) :
    Consistent sb disk (dinode sb disk) := by
  refine ⟨⟨⟨fun {p q} hp => h.owned.once p q hp, fun {p} => h.data p, fun {p} hp => ?_⟩,
    fun b hb hm => (h.owned.used_iff b hb).mpr (Or.inl hm)⟩, fun b hb hu => ?_,
    fun i hi ht => ⟨h.noHoles i hi ht, he i hi⟩⟩
  · refine (h.owned.used_iff _ (h.data p hp).1).mpr (Or.inr ⟨p, rfl, fun q hq => ?_⟩)
    exact (h.owned.once p q hp hq.symm).symm
  · obtain ⟨p, hp, -⟩ := ((h.owned.used_iff b hb.1).mp hu).resolve_left hb.2
    exact ⟨p, hp⟩

theorem Consistent.blocksOwned (h : Consistent sb disk (dinode sb disk)) :
    BlocksOwned sb disk := by
  refine ⟨fun b hb => ?_, fun p q hp => h.inj hp⟩
  by_cases hm : Meta sb b
  · exact iff_of_true (h.reserved b hb hm) (Or.inl hm)
  · have hne := ne_zero_of_mem (show b ∈ dataBlocks sb from ⟨hb, hm⟩)
    constructor
    · intro hu
      obtain ⟨p, rfl⟩ := h.owned b ⟨hb, hm⟩ hu
      exact Or.inr ⟨p, rfl, fun q hq => (h.inj hne hq.symm).symm⟩
    · intro hp
      obtain ⟨p, rfl, -⟩ := hp.resolve_left hm
      exact h.used hne

theorem Owned.blocksOwned {T : Multiset Ref} {L : Finset Ptr} {s : St} (h : Owned sb T L s) :
    BlocksOwned s.sb s.disk := by
  obtain ⟨v, hgood, -⟩ := h.fs
  rw [hgood.sb_eq]
  refine (hgood.cons.congr_inodes fun i hi => ?_).blocksOwned
  exact (hgood.stored i hi).symm

/-! ## §2  A checker for images -/

def allSlots : List Slot := (List.finRange 13).map .addr ++ (List.finRange 256).map .entry

/-- The places of allocated inodes that hold a reference. -/
def livePlaces (sb : Superblock) (disk : ℕ → Data) : List Place :=
  ((List.range sb.ninodes).filter fun i => (dinode sb disk i).type ≠ 0).flatMap fun i =>
    (allSlots.filter fun sl => (dinode sb disk i).slot disk sl ≠ 0).map fun sl => (i, sl)

/-- `ImageOk` as a test. -/
def fsck (sb : Superblock) (disk : ℕ → Data) : Bool :=
  let refs := (livePlaces sb disk).map (diskRef sb disk)
  decide (sb.size ≤ bpb) && decide (∀ i < sb.ninodes, iblock sb i < sb.bmapstart) &&
    decide (rootino < sb.ninodes) && decide refs.Nodup &&
    refs.all (fun b => b < sb.size && !Meta sb b) &&
    (List.range sb.size).all (fun b =>
      Bytes.bit (disk (bblock sb b)) (b % bpb) == (decide (Meta sb b) || refs.contains b)) &&
    decide (∀ i < sb.ninodes, (dinode sb disk i).type ≠ 0 → ∀ bn < maxfile,
      bn * bsize < (dinode sb disk i).size.toNat → (dinode sb disk i).block disk bn ≠ 0)

/-- `EntriesOk` as a test. -/
def checkEntries (sb : Superblock) (disk : ℕ → Data) : Bool :=
  decide (∀ i < sb.ninodes, (dinode sb disk i).type = tDir →
    ∀ off < (dinode sb disk i).size.toNat, off % direntSize = 0 →
      (dinode sb disk i).inumAt disk off < sb.ninodes)

theorem entriesOk_of_check (h : checkEntries sb disk = true) : EntriesOk sb disk := by
  intro i hi ht off hoff hle _
  have hpos : 0 < direntSize := by decide
  exact of_decide_eq_true h i hi ht off (by omega) hoff

theorem mem_livePlaces {p : Place} : p ∈ livePlaces sb disk ↔ diskRef sb disk p ≠ 0 := by
  obtain ⟨i, sl⟩ := p
  have hsl : sl ∈ allSlots := by
    cases sl <;> simp [allSlots]
  simp only [livePlaces, List.mem_flatMap, List.mem_filter, List.mem_range, List.mem_map, diskRef,
    blockAt]
  constructor
  · rintro ⟨j, ⟨hj, ht⟩, sl', ⟨-, hne⟩, heq⟩
    cases heq
    rw [if_pos ⟨hj, by simpa using ht⟩]
    simpa using hne
  · intro hne
    split_ifs at hne with hc
    · exact ⟨i, ⟨hc.1, by simpa using hc.2⟩, sl, ⟨hsl, by simpa using hne⟩, rfl⟩
    · exact absurd rfl hne

theorem imageOk_of_fsck (h : fsck sb disk = true) : ImageOk sb disk := by
  simp only [fsck, Bool.and_eq_true, decide_eq_true_eq, List.all_eq_true, List.mem_map,
    List.mem_range, Bool.not_eq_true', decide_eq_false_iff_not, beq_iff_eq] at h
  obtain ⟨⟨⟨⟨⟨⟨hsize, hinodes⟩, hroot⟩, hnodup⟩, hdata⟩, hused⟩, hholes⟩ := h
  have honce : ∀ p q, diskRef sb disk p ≠ 0 → diskRef sb disk p = diskRef sb disk q → p = q := by
    intro p q hp hpq
    exact List.inj_on_of_nodup_map hnodup (mem_livePlaces.mpr hp)
      (mem_livePlaces.mpr (hpq ▸ hp)) hpq
  refine ⟨⟨hsize, hinodes, hroot⟩, ⟨fun b hb => ?_, honce⟩, fun p hp => ?_, fun i hi ht => ?_⟩
  · show Bytes.bit (disk (bblock sb b)) (b % bpb) = true ↔ _
    rw [hused b hb, Bool.or_eq_true, decide_eq_true_eq, List.contains_iff_mem, List.mem_map]
    refine or_congr_right' fun hm => ?_
    have hb0 : b ≠ 0 := by
      rintro rfl
      exact hm (Or.inl (by decide))
    constructor
    · rintro ⟨p, hp, rfl⟩
      exact ⟨p, rfl, fun q hq => (honce p q hb0 hq.symm).symm⟩
    · rintro ⟨p, rfl, -⟩
      exact ⟨p, mem_livePlaces.mpr hb0, rfl⟩
  · exact hdata _ ⟨p, mem_livePlaces.mpr hp, rfl⟩
  · exact fun bn hbn hlt => hholes i hi ht bn hbn hlt

end RiscvBm.Fs

namespace RiscvBm.SysFile

open Fs (Owned BlocksOwned ImageOk EntriesOk Layout)
open Transition Wp

/-! ## §3  Runs -/

/-- The blocks are owned, and no call that a process can make now frees a free block. -/
structure Safe (s : St) : Prop where
  owned : BlocksOwned s.fs.sb s.fs.disk
  bfree : ∀ pid c, Running s pid → run pid c s ≠ .error .freeingFreeBlock

theorem owned_init {disk : ℕ → Bio.Data} (h : ImageOk (Fs.readsb (disk 1)) disk)
    (he : EntriesOk (Fs.readsb (disk 1)) disk) :
    Owned (Fs.readsb (disk 1)) 0 ∅ (initFs disk) := by
  have hcons := h.consistent he
  have hnone : ∀ k, ¬ 0 < ((initFs disk).inode k).ref := fun k hk => by simp [initFs, default] at hk
  refine ⟨counted_init disk, Fs.dinode _ disk, ⟨⟨rfl, fun _ _ _ => Fs.Behind.refl _ _, ?_, ?_, ?_,
    (counted_init disk).uniq, fun k hk => ?_, hcons.toApart⟩, fun _ _ => rfl, ?_, hcons⟩,
    fun k hk => ?_⟩
  · exact fun k hk => absurd hk (hnone k)
  · exact fun k hk => absurd hk (hnone k)
  · exact fun k hk => absurd hk (hnone k)
  · simp [initFs, default] at hk
  · exact fun k hk => absurd hk (hnone k)
  · simp at hk

theorem Sound.safe {sb : Fs.Superblock} {D : Multiset Fs.Ref} {s : St} (hl : Layout sb)
    (h : Sound (Owned sb) D ∅ s) : Safe s := by
  refine ⟨h.fs.blocksOwned, fun pid c hpid herr => ?_⟩
  exact error_of_wp (run_spec (Fs.owned_kept hl) h hpid c) herr rfl

theorem sound_step {sb : Fs.Superblock} (hl : Layout sb) {s s' : St} {a : Act}
    (h : ∃ D, Sound (Owned sb) D ∅ s) (hstep : step s a = some s') :
    ∃ D, Sound (Owned sb) D ∅ s' := by
  obtain ⟨D, hs⟩ := h
  unfold step at hstep
  split_ifs at hstep with hrun
  split at hstep
  · rename_i r t hres
    cases hstep
    obtain ⟨D', hdone, -⟩ := post_of_ok (run_spec (Fs.owned_kept hl) hs hrun a.call) hres
    exact ⟨D', hdone.sound⟩
  · cases hstep

/-- **Block ownership.** From an image that is well formed and whose directory entries
name inodes, in every state of every run of system calls a bit of the bitmap is set
exactly for the metadata and the blocks that one place refers to, no block is referred to
twice, and no call can panic with "freeing free block". -/
theorem blocksOwned_run (disk : ℕ → Bio.Data) (himage : ImageOk (Fs.readsb (disk 1)) disk)
    (hentries : EntriesOk (Fs.readsb (disk 1)) disk) (s₀ : St) (hboot : boot disk = .ok s₀)
    (as : List Act) : Along step Safe s₀ as := by
  refine @along_of_invariant _ _ step (fun s => ∃ D, Sound (Owned (Fs.readsb (disk 1))) D ∅ s) Safe
    ?_ (fun s a s' => sound_step himage.layout) as s₀ ⟨0, ?_⟩
  · rintro s ⟨D, hs⟩
    exact hs.safe himage.layout
  · exact boot_spec (Fs.owned_kept himage.layout) (owned_init himage hentries) hboot

/-- The name `b`. -/
def nameB : List UInt8 := [98]

/-- A file is created, written and removed again. -/
def newFile : List Act :=
  [⟨0, .open (rooted nameB) [] (Fs.oCreate ||| Fs.oRdwr)⟩,
    ⟨0, .write 0 (some fun _ => some 7) 5 0⟩, ⟨0, .close 0⟩, ⟨0, .unlink (rooted nameB)⟩,
    ⟨0, .mkdir (rooted nameB)⟩]

theorem blocksOwned_newFile : ∃ s₀, boot smallDisk = .ok s₀ ∧
    ImageOk (Fs.readsb (smallDisk 1)) smallDisk ∧ EntriesOk (Fs.readsb (smallDisk 1)) smallDisk ∧
    (runFrom step s₀ newFile).isSome = true ∧ Along step Safe s₀ newFile := by
  have hrun : (boot smallDisk).toOption.any (fun s => (runFrom step s newFile).isSome) = true := by
    decide +kernel
  have himage := Fs.imageOk_of_fsck (show Fs.fsck (Fs.readsb (smallDisk 1)) smallDisk = true by
    decide +kernel)
  have hentries := Fs.entriesOk_of_check
    (show Fs.checkEntries (Fs.readsb (smallDisk 1)) smallDisk = true by decide +kernel)
  obtain ⟨s₀, hboot, hrun⟩ := ok_of_check hrun
  exact ⟨s₀, hboot, himage, hentries, hrun,
    blocksOwned_run smallDisk himage hentries s₀ hboot newFile⟩

/-! ## §4  An entry that names no inode -/

/-- Like `smallDisk`, but the file `a` has block 35, whose bytes look like an inode with
block 34 in its first slot, and the entry `b` has the inode number of these bytes. -/
def forgedDisk : ℕ → Bio.Data
  | 32 =>
    let b := Fs.writeDinode Bytes.zero 1
      ⟨Fs.tDir, 0, 0, 1, 64, fun i => if i.val = 0 then 34 else 0⟩
    Fs.writeDinode b 2 ⟨Fs.tFile, 0, 0, 1, 64, fun i => if i.val = 0 then 35 else 0⟩
  | 33 => Bytes.setLE Bytes.zero 0 5 (2 ^ 36 - 1)
  | 34 => dirBlock [Fs.dirent Fs.dot 1, Fs.dirent Fs.dotdot 1, Fs.dirent nameA 2,
      Fs.dirent nameB 48]
  | 35 => Fs.writeDinode Bytes.zero 0 ⟨Fs.tFile, 0, 0, 1, 16, fun i => if i.val = 0 then 34 else 0⟩
  | n => smallDisk n

/-- `open("/b", O_TRUNC)` frees the block of the root directory. -/
theorem not_blocksOwned_forged : ∃ s₀, boot forgedDisk = .ok s₀ ∧
    ImageOk (Fs.readsb (forgedDisk 1)) forgedDisk ∧
    ¬ Along step Safe s₀ [⟨0, .open (rooted nameB) [] Fs.oTrunc⟩] := by
  have hrun : (boot forgedDisk).toOption.any (fun s =>
      (runFrom step s [⟨0, .open (rooted nameB) [] Fs.oTrunc⟩]).map (fun s =>
        (decide (34 < s.fs.sb.size), Bytes.bit (s.fs.disk (Fs.bblock s.fs.sb 34)) (34 % Fs.bpb),
          Fs.diskRef s.fs.sb s.fs.disk (1, .addr 0))) == some (true, false, 34)) = true := by
    decide +kernel
  have himage := Fs.imageOk_of_fsck (show Fs.fsck (Fs.readsb (forgedDisk 1)) forgedDisk = true by
    decide +kernel)
  obtain ⟨s₀, hboot, hrun⟩ := ok_of_check hrun
  obtain ⟨s, hs, hval⟩ := Option.map_eq_some_iff.mp (eq_of_beq hrun)
  simp only [Prod.mk.injEq, decide_eq_true_eq] at hval
  obtain ⟨hsize, hbit, href⟩ := hval
  refine ⟨s₀, hboot, himage, fun halong => ?_⟩
  have howned := (halong.last hs).owned
  have hused : 34 ∈ Fs.usedBlocks s.fs.sb s.fs.disk := by
    refine (howned.used_iff 34 hsize).mpr (Or.inr ⟨(1, .addr 0), href, fun q hq => ?_⟩)
    refine (howned.once _ q ?_ (href.trans hq.symm)).symm
    rw [href]
    decide
  rw [Fs.usedBlocks, Set.mem_ofPred_eq, hbit] at hused
  cases hused

end RiscvBm.SysFile

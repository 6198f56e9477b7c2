import RiscvBm.Lib.Bytes
import RiscvBm.Lib.Wp
import RiscvBm.Param

/-!
# The buffer cache (`kernel/bio.c`)

`NBUF` buffers on one doubly linked list, most recently released first. The
list is the Lean list `lru` of buffer numbers in the order of `b->next` from
`bcache.head`; the backward scan of `bget` is the scan of its reverse.

One process runs the cache here, so the sleep lock of a buffer is the flag
`locked` and taking a lock that is already taken never returns (`Panic.stuck`).
Every disk write is recorded in `writes`, oldest first.
-/

namespace RiscvBm.Bio

open Bytes Wp Function

/-! ## §1  State -/

def bsize : ℕ := 1024

abbrev Data := Block bsize

structure Buf where
  valid : Bool
  dev : ℕ
  blockno : ℕ
  locked : Bool
  refcnt : ℕ
  data : Data

instance : Inhabited Buf := ⟨⟨false, 0, 0, false, 0, zero⟩⟩

structure St where
  buf : ℕ → Buf
  lru : List ℕ
  disk : ℕ → Data
  writes : List (ℕ × Data)

inductive Panic where
  | noBuffers            -- "bget: no buffers"
  | bwrite
  | brelse
  | stuck                -- `acquiresleep` on a lock that is never released
deriving DecidableEq, Repr

abbrev Prog := Wp.Prog St Panic

/-- `binit` on zeroed memory: each buffer is put in front of the ones before it. -/
def binit (disk : ℕ → Data) : St where
  buf := fun _ => default
  lru := (List.range nbuf).reverse
  disk := disk
  writes := []

def setBuf (s : St) (i : ℕ) (b : Buf) : St := { s with buf := update s.buf i b }

/-! ## §2  The functions of `bio.c` -/

def acquiresleep (i : ℕ) : Prog Unit := do
  let s ← get
  require (!(s.buf i).locked) .stuck
  modify fun s => setBuf s i { s.buf i with locked := true }

def bget (dev blockno : ℕ) : Prog ℕ := do
  let s ← get
  match s.lru.find? fun i => (s.buf i).dev = dev ∧ (s.buf i).blockno = blockno with
  | some i => do
    modify fun s => setBuf s i { s.buf i with refcnt := (s.buf i).refcnt + 1 }
    acquiresleep i
    return i
  | none =>
    match s.lru.reverse.find? fun i => (s.buf i).refcnt = 0 with
    | some i => do
      modify fun s => setBuf s i { s.buf i with
        dev := dev, blockno := blockno, valid := false, refcnt := 1 }
      acquiresleep i
      return i
    | none => throw .noBuffers

/-- `virtio_disk_rw(b, 0)` -/
def diskRead (i : ℕ) : Prog Unit :=
  modify fun s => setBuf s i { s.buf i with data := s.disk (s.buf i).blockno }

/-- `virtio_disk_rw(b, 1)` -/
def diskWrite (i : ℕ) : Prog Unit :=
  modify fun s => { s with
    disk := update s.disk (s.buf i).blockno (s.buf i).data
    writes := s.writes ++ [((s.buf i).blockno, (s.buf i).data)] }

def bread (dev blockno : ℕ) : Prog ℕ := do
  let i ← bget dev blockno
  let s ← get
  if (s.buf i).valid then return i
  else do
    diskRead i
    modify fun s => setBuf s i { s.buf i with valid := true }
    return i

def bwrite (i : ℕ) : Prog Unit := do
  let s ← get
  require (s.buf i).locked .bwrite
  diskWrite i

def brelse (i : ℕ) : Prog Unit := do
  let s ← get
  require (s.buf i).locked .brelse
  modify fun s => setBuf s i { s.buf i with
    locked := false, refcnt := (s.buf i).refcnt - 1 }
  modify fun s =>
    if (s.buf i).refcnt = 0 then { s with lru := i :: s.lru.erase i } else s

def bpin (i : ℕ) : Prog Unit :=
  modify fun s => setBuf s i { s.buf i with refcnt := (s.buf i).refcnt + 1 }

def bunpin (i : ℕ) : Prog Unit :=
  modify fun s => setBuf s i { s.buf i with refcnt := (s.buf i).refcnt - 1 }

/-! ## §3  The shape of the cache -/

@[simp] theorem setBuf_self (s : St) (i : ℕ) (b : Buf) : (setBuf s i b).buf i = b := by
  simp [setBuf]

variable {s : St} {i dev b : ℕ} {c : Buf}

@[simp] theorem setBuf_of_ne {j : ℕ} (b : Buf) (h : j ≠ i) :
    (setBuf s i b).buf j = s.buf j := by
  simp [setBuf, update_of_ne h]

@[simp] theorem setBuf_disk (s : St) (i : ℕ) (b : Buf) : (setBuf s i b).disk = s.disk := rfl

@[simp] theorem setBuf_writes (s : St) (i : ℕ) (b : Buf) :
    (setBuf s i b).writes = s.writes := rfl

@[simp] theorem setBuf_setBuf (s : St) (i : ℕ) (b c : Buf) :
    setBuf (setBuf s i b) i c = setBuf s i c := by
  simp [setBuf]

/-- Buffer `i` is assigned to block `b` of `dev`. -/
def Holds (s : St) (i dev b : ℕ) : Prop := (s.buf i).dev = dev ∧ (s.buf i).blockno = b

/-- The list runs once through all buffers, and no two of them are assigned to
one block of `dev`. -/
structure Cache (dev : ℕ) (s : St) : Prop where
  nodup : s.lru.Nodup
  mem_lru : ∀ i, i ∈ s.lru ↔ i < nbuf
  unique : ∀ i j b, i < nbuf → j < nbuf → Holds s i dev b → Holds s j dev b → i = j

theorem Cache.setBuf (hs : Cache dev s)
    (hc : c.dev = dev → ∀ j < nbuf, j ≠ i → ¬ Holds s j dev c.blockno) :
    Cache dev (setBuf s i c) where
  nodup := hs.nodup
  mem_lru := hs.mem_lru
  unique := by
    intro j k b hj hk hbj hbk
    by_cases hji : j = i
    · by_cases hki : k = i
      · rw [hji, hki]
      · subst hji
        rw [Holds, setBuf_self] at hbj
        rw [Holds, setBuf_of_ne c hki] at hbk
        obtain ⟨hdev, rfl⟩ := hbj
        exact absurd hbk (hc hdev k hk hki)
    · rw [Holds, setBuf_of_ne c hji] at hbj
      by_cases hki : k = i
      · subst hki
        rw [Holds, setBuf_self] at hbk
        obtain ⟨hdev, rfl⟩ := hbk
        exact absurd hbj (hc hdev j hj hji)
      · rw [Holds, setBuf_of_ne c hki] at hbk
        exact hs.unique j k b hj hk hbj hbk

/-- A buffer that keeps its block may change otherwise. -/
theorem Cache.setBuf_same (hs : Cache dev s) (hi : i < nbuf)
    (hdev : c.dev = (s.buf i).dev) (hb : c.blockno = (s.buf i).blockno) :
    Cache dev (Bio.setBuf s i c) := by
  apply hs.setBuf
  intro h j hj hji hjb
  exact hji (hs.unique j i _ hj hi hjb ⟨hdev.symm.trans h, hb.symm⟩)

theorem Cache.toFront (hs : Cache dev s) (hi : i < nbuf) :
    Cache dev { s with lru := i :: s.lru.erase i } where
  nodup := by
    rw [List.nodup_cons]
    exact ⟨hs.nodup.not_mem_erase, hs.nodup.erase i⟩
  mem_lru := by
    intro j
    by_cases hj : j = i
    · subst hj
      simp [hi]
    · rw [List.mem_cons, List.mem_erase_of_ne hj, hs.mem_lru]
      simp [hj]
  unique := hs.unique

theorem cache_binit (disk : ℕ → Data) (hdev : dev ≠ 0) : Cache dev (binit disk) where
  nodup := List.nodup_reverse.mpr List.nodup_range
  mem_lru := by simp [binit]
  unique := by
    intro i j b _ _ hb
    exact absurd hb.1.symm hdev

/-! ## §4  What each function does -/

theorem acquiresleep_spec (h : (s.buf i).locked = false) :
    wp (acquiresleep i) (fun _ s' => s' = setBuf s i { s.buf i with locked := true })
      noError s := by
  refine wp_get (wp_require_bind (fun _ => wp_modify rfl) ?_)
  simp [h]

/-- What `bget` and `bread` need: nobody holds the block's buffer and, when the
block is not cached, there is a buffer nobody uses. -/
structure Readable (s : St) (dev b : ℕ) : Prop where
  unlocked : ∀ i < nbuf, Holds s i dev b → (s.buf i).locked = false
  found : (∃ i < nbuf, Holds s i dev b) ∨ ∃ i < nbuf, (s.buf i).refcnt = 0
  idle : ∀ i < nbuf, (s.buf i).refcnt = 0 → (s.buf i).locked = false

/-- Where the buffer that `bget` returns comes from. -/
inductive Taken (s : St) (dev b i : ℕ) (c : Buf) : Prop
  | hit (hold : Holds s i dev b) (href : c.refcnt = (s.buf i).refcnt + 1)
  | miss (hnone : ∀ j < nbuf, ¬ Holds s j dev b) (hfree : (s.buf i).refcnt = 0)
      (href : c.refcnt = 1)

/-- A buffer `bget` returns: locked and assigned to the block. -/
structure Got (s : St) (dev b i : ℕ) (c : Buf) : Prop where
  lt : i < nbuf
  dev_eq : c.dev = dev
  blockno_eq : c.blockno = b
  locked : c.locked = true
  taken : Taken s dev b i c

theorem find_holds
    (h : (s.lru.find? fun i => (s.buf i).dev = dev ∧ (s.buf i).blockno = b) = some i) :
    i ∈ s.lru ∧ Holds s i dev b := by
  refine ⟨List.mem_of_find?_eq_some h, ?_⟩
  have := List.find?_some h
  simpa [Holds] using this

theorem not_holds_of_find (hs : Cache dev s)
    (h : (s.lru.find? fun i => (s.buf i).dev = dev ∧ (s.buf i).blockno = b) = none) :
    ∀ j < nbuf, ¬ Holds s j dev b := by
  intro j hj hold
  rw [List.find?_eq_none] at h
  exact h j ((hs.mem_lru j).mpr hj) (by simpa [Holds] using hold)

theorem bget_spec (hs : Cache dev s) (hr : Readable s dev b) :
    wp (bget dev b) (fun i s' => ∃ c, s' = setBuf s i c ∧ Got s dev b i c ∧
      (c.valid = true → (s.buf i).valid = true ∧ Holds s i dev b ∧ c.data = (s.buf i).data) ∧
      (Holds s i dev b → c.valid = (s.buf i).valid)) noError s := by
  refine wp_get ?_
  cases hfind : s.lru.find? fun i => (s.buf i).dev = dev ∧ (s.buf i).blockno = b with
  | some i =>
    obtain ⟨hmem, hold⟩ := find_holds hfind
    have hi := (hs.mem_lru i).mp hmem
    refine wp_modify_bind (wp_bind (acquiresleep_spec ?_) ?_)
    · simpa using hr.unlocked i hi hold
    · rintro _ _ rfl
      refine wp_pure ⟨_, setBuf_setBuf _ _ _ _, ⟨hi, ?_, ?_, rfl, .hit hold ?_⟩, ?_, ?_⟩
      · simpa using hold.1
      · simpa using hold.2
      · simp
      · simpa using fun h => ⟨h, hold⟩
      · simp
  | none =>
    have hnone := not_holds_of_find hs hfind
    have hfree : ∃ i < nbuf, (s.buf i).refcnt = 0 := by
      rcases hr.found with ⟨i, hi, hold⟩ | h
      · exact absurd hold (hnone i hi)
      · exact h
    cases hlast : s.lru.reverse.find? fun i => (s.buf i).refcnt = 0 with
    | none =>
      obtain ⟨i, hi, h0⟩ := hfree
      rw [List.find?_eq_none] at hlast
      exact absurd (by simpa using h0) (hlast i (by simpa using (hs.mem_lru i).mpr hi))
    | some i =>
      have hi : i < nbuf := by
        rw [← hs.mem_lru, ← List.mem_reverse]
        exact List.mem_of_find?_eq_some hlast
      have h0 : (s.buf i).refcnt = 0 := by simpa using List.find?_some hlast
      refine wp_modify_bind (wp_bind (acquiresleep_spec ?_) ?_)
      · simpa using hr.idle i hi h0
      · rintro _ _ rfl
        refine wp_pure ⟨_, setBuf_setBuf _ _ _ _, ⟨hi, ?_, ?_, rfl, .miss hnone h0 ?_⟩, ?_, ?_⟩
        · simp
        · simp
        · simp
        · simp
        · exact fun h => absurd h (hnone i hi)

/-- The buffer `bread` returns holds the block: the cached copy if there is a
valid one, else what is on disk. -/
structure Fresh (s : St) (dev b i : ℕ) (c : Buf) : Prop extends Got s dev b i c where
  valid : c.valid = true
  cached : Holds s i dev b → (s.buf i).valid = true → c.data = (s.buf i).data
  read : (Holds s i dev b → (s.buf i).valid = false) → c.data = s.disk b

theorem bread_spec (hs : Cache dev s) (hr : Readable s dev b) :
    wp (bread dev b) (fun i s' => ∃ c, s' = setBuf s i c ∧ Fresh s dev b i c) noError s := by
  refine wp_bind (bget_spec hs hr) ?_
  rintro i _ ⟨c, rfl, hgot, hvalid, hsame⟩
  refine wp_get (wp_ite (fun hv => ?_) (fun hv => ?_))
  · rw [setBuf_self] at hv
    obtain ⟨hv', hold, hdata⟩ := hvalid hv
    refine wp_pure ⟨c, rfl, { hgot with valid := hv, cached := fun _ _ => hdata, read := ?_ }⟩
    intro h
    rw [h hold] at hv'
    cases hv'
  · rw [setBuf_self] at hv
    refine wp_modify_bind (wp_modify_bind (wp_pure ?_))
    rw [setBuf_setBuf, setBuf_setBuf]
    refine ⟨_, rfl, ⟨hgot.lt, ?_, ?_, ?_, ?_⟩, rfl, ?_, ?_⟩
    · simpa using hgot.dev_eq
    · simpa using hgot.blockno_eq
    · simpa using hgot.locked
    · cases hgot.taken with
      | hit hold href => exact .hit hold (by simpa using href)
      | miss hnone hfree href => exact .miss hnone hfree (by simpa using href)
    · intro hold hv'
      rw [hsame hold] at hv
      exact absurd hv' hv
    · simp [hgot.blockno_eq]

/-- The state after `brelse`. -/
def release (s : St) (i : ℕ) : St :=
  let s' := setBuf s i { s.buf i with locked := false, refcnt := (s.buf i).refcnt - 1 }
  if (s'.buf i).refcnt = 0 then { s' with lru := i :: s'.lru.erase i } else s'

theorem brelse_spec (h : (s.buf i).locked = true) :
    wp (brelse i) (fun _ s' => s' = release s i) noError s := by
  refine wp_get (wp_require_bind (fun _ => wp_modify_bind (wp_modify rfl)) ?_)
  simp [h]

theorem bwrite_spec (h : (s.buf i).locked = true) :
    wp (bwrite i) (fun _ s' => s' = { s with
      disk := update s.disk (s.buf i).blockno (s.buf i).data
      writes := s.writes ++ [((s.buf i).blockno, (s.buf i).data)] }) noError s := by
  refine wp_get (wp_require_bind (fun _ => wp_modify rfl) ?_)
  simp [h]

theorem release_buf (s : St) (i j : ℕ) :
    (release s i).buf j = if j = i then
      { s.buf i with locked := false, refcnt := (s.buf i).refcnt - 1 } else s.buf j := by
  have h : ∀ s' : St, (if (s'.buf i).refcnt = 0 then
      { s' with lru := i :: s'.lru.erase i } else s').buf = s'.buf := by
    intro s'
    split_ifs <;> rfl
  rw [release, h]
  split_ifs with hj
  · rw [hj, setBuf_self]
  · rw [setBuf_of_ne _ hj]

@[simp] theorem release_disk (s : St) (i : ℕ) : (release s i).disk = s.disk := by
  unfold release
  dsimp only
  split_ifs <;> rfl

@[simp] theorem release_writes (s : St) (i : ℕ) : (release s i).writes = s.writes := by
  unfold release
  dsimp only
  split_ifs <;> rfl

theorem Cache.release (hs : Cache dev s) (hi : i < nbuf) :
    Cache dev (Bio.release s i) := by
  have h := hs.setBuf_same (c := { s.buf i with
    locked := false, refcnt := (s.buf i).refcnt - 1 }) hi rfl rfl
  unfold Bio.release
  dsimp only
  split_ifs
  · exact h.toFront hi
  · exact h

theorem Cache.fresh (hs : Cache dev s)
    (hc : Fresh s dev b i c) : Cache dev (Bio.setBuf s i c) := by
  apply hs.setBuf
  intro _ j hj hji hjb
  rw [hc.blockno_eq] at hjb
  cases hc.taken with
  | hit hold => exact hji (hs.unique j i b hj hc.lt hjb hold)
  | miss hnone => exact hnone j hj hjb

end RiscvBm.Bio

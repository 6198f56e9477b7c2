import RiscvBm.Lib.Writes
import RiscvBm.Fs.Bio

/-!
# The write-ahead log on disk (`commit` and recovery in `kernel/log.c`)

The log occupies `log.size` blocks from `log.start`: the header, then one copy
of each block of the transaction. `commit` writes the copies, the header, the
home blocks and the header again; `initlog` runs `recover_from_log` at boot.

`crashAtomic_iff` decides for every crash point whether recovery restores
all-or-nothing. It does so only before the header is on disk: `read_head`
assigns the two counters the wrong way round, so recovery never replays.
-/

namespace RiscvBm.DiskLog

open Bytes Wp Writes Bio Function

/-! ## §1  State -/

/-- The fields of `struct log` that `commit` and recovery use; `n` and `block`
are `log.lh`. -/
structure Log where
  start : ℕ
  size : ℕ
  dev : ℕ
  n : ℕ
  block : ℕ → ℕ

/-- The zeroed `log` of a kernel that has just started. -/
def Log.zero : Log := ⟨0, 0, 0, 0, fun _ => 0⟩

structure St where
  bio : Bio.St
  log : Log

abbrev Prog := Wp.Prog St Panic

def cache : Part St Bio.St := ⟨St.bio, fun s b => { s with bio := b }⟩

/-! ## §2  `log.c` -/

def setData (i : ℕ) (f : Data → Data) : Bio.Prog Unit :=
  modify fun s => setBuf s i { s.buf i with data := f (s.buf i).data }

/-- `memmove(dst->data, src->data, BSIZE)` -/
def memmove (dst src : ℕ) : Bio.Prog Unit :=
  modify fun s => setBuf s dst { s.buf dst with data := (s.buf src).data }

/-- The body of the loop of `write_log`. -/
def writeLogBlock (dev copy home : ℕ) : Bio.Prog Unit := do
  let dst ← bread dev copy
  let src ← bread dev home
  memmove dst src
  bwrite dst
  brelse src
  brelse dst

def writeLog : Prog Unit := do
  let s ← get
  zoom cache (forRange
    (fun i => writeLogBlock s.log.dev (s.log.start + i + 1) (s.log.block i)) 0 s.log.n)

/-- `struct logheader` as `write_head` fills it in: `n` at offset 0, `block[i]`
at `4 + 4 * i`. -/
def fillHead (n : ℕ) (block : ℕ → ℕ) (d : Data) : Data :=
  (List.range n).foldl (fun d i => setLE d (4 + 4 * i) 4 (block i)) (setLE d 0 4 n)

/-- `write_head` on the block `start` of `dev`. -/
def updateBlock (dev start : ℕ) (f : Data → Data) : Bio.Prog Unit := do
  let b ← bread dev start
  setData b f
  bwrite b
  brelse b

def writeHead : Prog Unit := do
  let s ← get
  zoom cache (updateBlock s.log.dev s.log.start (fillHead s.log.n s.log.block))

def readHead : Prog Unit := do
  let s ← get
  let b ← zoom cache (bread s.log.dev s.log.start)
  -- `hb->n = log.lh.n`: the header in the cache takes the counter in memory
  zoom cache (setData b fun d => setLE d 0 4 s.log.n)
  modify fun s => { s with log := { s.log with
    block := fun i =>
      if i < s.log.n then getLE (s.bio.buf b).data (4 + 4 * i) 4 else s.log.block i } }
  zoom cache (brelse b)

/-- The body of the loop of `install_trans`. -/
def installBlock (recovering : Bool) (dev copy home : ℕ) : Bio.Prog Unit := do
  let bsrc ← bread dev copy
  let bdst ← bread dev home
  memmove bdst bsrc
  bwrite bdst
  if recovering then pure () else bunpin bdst
  brelse bsrc
  brelse bdst

def installTrans (recovering : Bool) : Prog Unit := do
  let s ← get
  zoom cache (forRange
    (fun i => installBlock recovering s.log.dev (s.log.start + i + 1) (s.log.block i)) 0 s.log.n)

def clearN : Prog Unit := modify fun s => { s with log := { s.log with n := 0 } }

def commit : Prog Unit := do
  let s ← get
  if 0 < s.log.n then do
    writeLog
    writeHead
    installTrans false
    clearN
    writeHead
  else pure ()

def recoverFromLog : Prog Unit := do
  readHead
  installTrans true
  clearN
  writeHead

/-- `initlog(dev, sb)`; `sizeof(struct logheader)` is `4 + 4 * LOGSIZE < BSIZE`. -/
def initlog (dev logstart nlog : ℕ) : Prog Unit := do
  modify fun s => { s with log := { s.log with start := logstart, size := nlog, dev := dev } }
  recoverFromLog

/-! ## §3  One disk write -/

/-- Between two rounds of a loop: nobody holds a buffer, and one is unused. -/
structure Ready (dev : ℕ) (s : Bio.St) : Prop extends Cache dev s where
  unlocked : ∀ i < nbuf, (s.buf i).locked = false
  spare : ∃ i < nbuf, (s.buf i).refcnt = 0

/-- Block `b` is in the cache with contents `d` and cannot be evicted. -/
def Pinned (dev b : ℕ) (d : Data) (s : Bio.St) : Prop :=
  ∃ i < nbuf, Holds s i dev b ∧ (s.buf i).valid = true ∧ (s.buf i).refcnt ≠ 0 ∧
    (s.buf i).data = d

/-- Block `b` has contents `d` on disk and in every valid cached copy. -/
structure Synced (dev b : ℕ) (d : Data) (s : Bio.St) : Prop where
  disk : s.disk b = d
  cached : ∀ i < nbuf, Holds s i dev b → (s.buf i).valid = true → (s.buf i).data = d

/-- What may have become of one buffer while `d` was written to block `x`. -/
inductive Change (dev x : ℕ) (d : Data) (disk : ℕ → Data) (a b : Buf) : Prop
  | keep (hdev : b.dev = a.dev) (hblock : b.blockno = a.blockno) (hvalid : b.valid = a.valid)
      (hdata : b.data = a.data) (href : b.refcnt = a.refcnt)
  | wrote (hdev : b.dev = dev) (hblock : b.blockno = x) (hdata : b.data = d)
      (href : b.refcnt ≤ a.refcnt)
      (hfrom : (a.dev = dev ∧ a.blockno = x) ∨ a.refcnt = 0)
  | loaded (hdev : b.dev = dev) (hne : b.blockno ≠ x) (hdata : b.data = disk b.blockno)
      (href : b.refcnt = a.refcnt) (hfrom : a.valid = false ∨ a.refcnt = 0)

/-- `d` has been written to block `x`; other blocks are as they were. -/
structure Wrote (dev x : ℕ) (d : Data) (s s' : Bio.St) : Prop where
  ready : Ready dev s'
  writes : s'.writes = s.writes ++ [(x, d)]
  disk : s'.disk = update s.disk x d
  self : Synced dev x d s'
  pinned : ∀ b e, b ≠ x → Pinned dev b e s → Pinned dev b e s'
  synced : ∀ b e, b ≠ x → Synced dev b e s → Synced dev b e s'

variable {dev x b i : ℕ} {d : Data} {s : Bio.St} {c : Buf} {new : ℕ → Data}

theorem wrote_of_change {s' : Bio.St} (hs : Ready dev s)
    (hc : Cache dev s') (hunlocked : ∀ i < nbuf, (s'.buf i).locked = false)
    (hbuf : ∀ i < nbuf, Change dev x d s.disk (s.buf i) (s'.buf i))
    (hself : ∃ i < nbuf, Holds s' i dev x ∧ (s'.buf i).data = d)
    (hwrites : s'.writes = s.writes ++ [(x, d)]) (hdisk : s'.disk = update s.disk x d) :
    Wrote dev x d s s' where
  ready :=
    { hc with
      unlocked := hunlocked
      spare := by
        obtain ⟨i, hi, h0⟩ := hs.spare
        refine ⟨i, hi, ?_⟩
        cases hbuf i hi with
        | keep _ _ _ _ href => rw [href, h0]
        | wrote _ _ _ href => omega
        | loaded _ _ _ href => rw [href, h0] }
  writes := hwrites
  disk := hdisk
  self := by
    obtain ⟨i, hi, hold, hdata⟩ := hself
    refine ⟨by rw [hdisk, update_self], fun j hj hj' _ => ?_⟩
    rw [hc.unique j i x hj hi hj' hold, hdata]
  pinned := by
    rintro b e hbx ⟨i, hi, hold, hvalid, href, hdata⟩
    cases hbuf i hi with
    | keep hdev' hblock' hvalid' hdata' href' =>
      refine ⟨i, hi, ⟨hdev'.trans hold.1, hblock'.trans hold.2⟩, ?_, ?_, ?_⟩
      · rw [hvalid', hvalid]
      · rw [href']
        exact href
      · rw [hdata', hdata]
    | wrote _ _ _ _ hfrom =>
      rcases hfrom with h | h
      · exact absurd (hold.2.symm.trans h.2) hbx
      · exact absurd h href
    | loaded _ _ _ _ hfrom =>
      rcases hfrom with h | h
      · rw [hvalid] at h
        cases h
      · exact absurd h href
  synced := by
    rintro b e hbx hb
    refine ⟨by rw [hdisk, update_of_ne hbx, hb.disk], fun i hi hold hvalid => ?_⟩
    cases hbuf i hi with
    | keep hdev' hblock' hvalid' hdata' _ =>
      rw [hdata']
      exact hb.cached i hi ⟨hdev'.symm.trans hold.1, hblock'.symm.trans hold.2⟩
        (hvalid'.symm.trans hvalid)
    | wrote _ hblock' => exact absurd (hold.2.symm.trans hblock') hbx
    | loaded _ _ hdata' => rw [hdata', hold.2, hb.disk]

theorem Ready.readable (hs : Ready dev s) (b : ℕ) :
    Readable s dev b where
  unlocked i hi _ := hs.unlocked i hi
  found := Or.inr hs.spare
  idle i hi _ := hs.unlocked i hi

theorem refcnt_ne_zero (hc : Fresh s dev b i c) :
    c.refcnt ≠ 0 := by
  cases hc.taken with
  | hit _ href => omega
  | miss _ _ href => omega

/-- With one buffer taken, a pinned block is still found in its own buffer. -/
theorem Ready.readable_pinned
    (hs : Ready dev s) (hc : Fresh s dev x i c) (hbx : b ≠ x) (hb : Pinned dev b d s) :
    Readable (setBuf s i c) dev b ∧
    ∀ j e, Fresh (setBuf s i c) dev b j e → j ≠ i ∧ Fresh s dev b j e ∧ Holds s j dev b ∧
      (s.buf j).valid = true ∧ (s.buf j).data = d := by
  obtain ⟨p, hp, hold, hvalid, href, hdata⟩ := hb
  have hpi : p ≠ i := by
    rintro rfl
    cases hc.taken with
    | hit h => exact hbx (hold.2.symm.trans h.2)
    | miss _ hfree => exact href hfree
  have hold' : Holds (setBuf s i c) p dev b := by
    rw [Holds, setBuf_of_ne c hpi]
    exact hold
  have hcache := hs.toCache.fresh hc
  refine ⟨⟨fun j hj hj' => ?_, Or.inl ⟨p, hp, hold'⟩, fun j hj h0 => ?_⟩, fun j e he => ?_⟩
  · obtain rfl := hcache.unique j p b hj hp hj' hold'
    rw [setBuf_of_ne c hpi]
    exact hs.unlocked j hj
  · by_cases hji : j = i
    · subst hji
      rw [setBuf_self] at h0
      exact absurd h0 (refcnt_ne_zero hc)
    · rw [setBuf_of_ne c hji]
      exact hs.unlocked j hj
  · cases he.taken with
    | miss hnone => exact absurd hold' (hnone p hp)
    | hit hj hrefj =>
      obtain rfl := hcache.unique j p b he.lt hp hj hold'
      have hj' : (setBuf s i c).buf j = s.buf j := setBuf_of_ne c hpi
      have hcached := he.cached hold'
      rw [hj'] at hrefj hcached
      refine ⟨hpi, { he with taken := .hit hold hrefj, cached := fun _ => hcached, read := ?_ },
        hold, hvalid, hdata⟩
      intro h
      rw [h hold] at hvalid
      cases hvalid

theorem Cache.of_buf {s' : Bio.St} (hs : Cache dev s) (hlru : s'.lru = s.lru)
    (hbuf : s'.buf = s.buf) : Cache dev s' where
  nodup := by
    rw [hlru]
    exact hs.nodup
  mem_lru := by
    rw [hlru]
    exact hs.mem_lru
  unique := by
    unfold Holds
    rw [hbuf]
    exact hs.unique

/-- A buffer that `bread` took and `brelse` gives back unwritten. -/
theorem change_of_fresh {c' : Buf}
    (hc : Fresh s dev b i c) (hbx : b ≠ x) (hdev : c'.dev = c.dev)
    (hblock : c'.blockno = c.blockno) (hvalid : c'.valid = c.valid) (hdata : c'.data = c.data)
    (href : c'.refcnt = c.refcnt - 1) : Change dev x d s.disk (s.buf i) c' := by
  cases hc.taken with
  | hit hold hr =>
    cases hv : (s.buf i).valid with
    | true =>
      refine .keep ?_ ?_ ?_ ?_ ?_
      · rw [hdev, hc.dev_eq, hold.1]
      · rw [hblock, hc.blockno_eq, hold.2]
      · rw [hvalid, hc.valid, hv]
      · rw [hdata, hc.cached hold hv]
      · omega
    | false =>
      refine .loaded ?_ ?_ ?_ ?_ (Or.inl hv)
      · rw [hdev, hc.dev_eq]
      · rw [hblock, hc.blockno_eq]
        exact hbx
      · rw [hdata, hblock, hc.blockno_eq]
        exact hc.read fun _ => hv
      · omega
  | miss hnone hfree hr =>
    refine .loaded ?_ ?_ ?_ ?_ (Or.inr hfree)
    · rw [hdev, hc.dev_eq]
    · rw [hblock, hc.blockno_eq]
      exact hbx
    · rw [hdata, hblock, hc.blockno_eq]
      exact hc.read fun h => absurd h (hnone i hc.lt)
    · omega

/-- A buffer that `bread` took for block `x`, given back with contents `d`. -/
theorem change_of_written {c' : Buf}
    (hc : Fresh s dev x i c) (hdev : c'.dev = c.dev) (hblock : c'.blockno = c.blockno)
    (hdata : c'.data = d) (href : c'.refcnt ≤ c.refcnt - 1) :
    Change dev x d s.disk (s.buf i) c' := by
  refine .wrote (hdev.trans hc.dev_eq) (hblock.trans hc.blockno_eq) hdata ?_ ?_
  · cases hc.taken with
    | hit _ hr => omega
    | miss _ _ hr => omega
  · cases hc.taken with
    | hit hold => exact Or.inl hold
    | miss _ hfree => exact Or.inr hfree

/-- `b` with its lock and one reference given back. -/
def released (b : Buf) : Buf := { b with locked := false, refcnt := b.refcnt - 1 }

theorem Synced.data_eq (h : Synced dev b d s)
    (hc : Fresh s dev b i c) : c.data = d := by
  by_cases hv : Holds s i dev b ∧ (s.buf i).valid = true
  · rw [hc.cached hv.1 hv.2]
    exact h.cached i hc.lt hv.1 hv.2
  · rw [hc.read fun hold => by simpa using fun h => hv ⟨hold, h⟩]
    exact h.disk

/-- Two buffers were taken and are given back, `i` with the new contents of `x`. -/
theorem wrote_of_two {j : ℕ} {u : Bio.St} (hs : Ready dev s)
    (hu : Cache dev u) (hi : i < nbuf) (hj : j < nbuf) (hij : i ≠ j)
    (hbi : Change dev x d s.disk (s.buf i) (released (u.buf i)))
    (hself : Holds u i dev x ∧ (u.buf i).data = d)
    (hbj : Change dev x d s.disk (s.buf j) (released (u.buf j)))
    (hbk : ∀ k, k ≠ i → k ≠ j → u.buf k = s.buf k)
    (hwrites : u.writes = s.writes ++ [(x, d)]) (hdisk : u.disk = update s.disk x d) :
    Wrote dev x d s (release (release u j) i) := by
  have hbuf : ∀ k, (release (release u j) i).buf k =
      if k = i then released (u.buf i) else if k = j then released (u.buf j) else s.buf k := by
    intro k
    rw [release_buf, release_buf, release_buf, if_neg hij]
    split_ifs with hki hkj
    · rfl
    · rfl
    · exact hbk k hki hkj
  refine wrote_of_change hs ((hu.release hj).release hi) (fun k hk => ?_) (fun k hk => ?_)
    ⟨i, hi, ?_⟩ ?_ ?_
  · rw [hbuf]
    split_ifs with hki hkj
    · rfl
    · rfl
    · exact hs.unlocked k hk
  · rw [hbuf]
    split_ifs with hki hkj
    · rw [hki]
      exact hbi
    · rw [hkj]
      exact hbj
    · exact .keep rfl rfl rfl rfl rfl
  · rw [Holds, hbuf, if_pos rfl]
    exact hself
  · rw [release_writes, release_writes, hwrites]
  · rw [release_disk, release_disk, hdisk]

theorem writeLogBlock_spec {copy home : ℕ} (hs : Ready dev s)
    (hne : home ≠ copy) (hp : Pinned dev home d s) :
    wp (writeLogBlock dev copy home) (fun _ s' => Wrote dev copy d s s') noError s := by
  refine wp_bind (bread_spec hs.toCache (hs.readable copy)) ?_
  rintro i _ ⟨c, rfl, hc⟩
  obtain ⟨hread, hpin⟩ := hs.readable_pinned hc hne hp
  have hcache := hs.toCache.fresh hc
  refine wp_bind (bread_spec hcache hread) ?_
  rintro j _ ⟨e, rfl, he⟩
  replace hcache := hcache.fresh he
  obtain ⟨hji, he, hold, hvalid, hdata⟩ := hpin j e he
  have hd : e.data = d := (he.cached hold hvalid).trans hdata
  have hi : (setBuf (setBuf s i c) j e).buf i = c := by
    rw [setBuf_of_ne _ hji.symm, setBuf_self]
  refine wp_modify_bind ?_
  rw [hi, setBuf_self]
  apply wp_bind_state (bwrite_spec (by simpa using hc.locked))
  apply wp_bind_state (brelse_spec (by simpa [setBuf_of_ne _ hji] using he.locked))
  refine wp_post (brelse_spec (by simpa [release_buf, hji.symm] using hc.locked)) ?_
  rintro _ _ rfl
  refine wrote_of_two hs ?_ hc.lt he.lt hji.symm ?_ ?_ ?_ (fun k hki hkj => ?_) ?_ ?_
  · refine Cache.of_buf (hcache.setBuf_same (i := i) hc.lt ?_ ?_) rfl rfl
    · rw [hi]
    · rw [hi]
  · refine change_of_written hc ?_ ?_ ?_ ?_ <;> simp [released, hd]
  · simpa [Holds, hd] using ⟨hc.dev_eq, hc.blockno_eq⟩
  · refine change_of_fresh he hne ?_ ?_ ?_ ?_ ?_ <;> simp [released, setBuf_of_ne _ hji]
  · simp [setBuf_of_ne _ hki, setBuf_of_ne _ hkj]
  · simp [hd, hc.blockno_eq]
  · simp [hd, hc.blockno_eq]

theorem installBlock_spec {copy home : ℕ} (hs : Ready dev s)
    (hne : home ≠ copy) (hp : Pinned dev home d s) (hsync : Synced dev copy d s) :
    wp (installBlock false dev copy home) (fun _ s' => Wrote dev home d s s') noError s := by
  refine wp_bind (bread_spec hs.toCache (hs.readable copy)) ?_
  rintro i _ ⟨c, rfl, hc⟩
  obtain ⟨hread, hpin⟩ := hs.readable_pinned hc hne hp
  have hcache := hs.toCache.fresh hc
  refine wp_bind (bread_spec hcache hread) ?_
  rintro j _ ⟨e, rfl, he⟩
  replace hcache := hcache.fresh he
  obtain ⟨hji, he, hold, hvalid, hdata⟩ := hpin j e he
  have hd : c.data = d := hsync.data_eq hc
  have hi : (setBuf (setBuf s i c) j e).buf i = c := by
    rw [setBuf_of_ne _ hji.symm, setBuf_self]
  refine wp_modify_bind ?_
  rw [hi, setBuf_self]
  apply wp_bind_state (bwrite_spec (by simpa using he.locked))
  refine wp_modify_bind (wp_bind (brelse_spec ?_) ?_)
  · simpa [setBuf_of_ne _ hji.symm] using hc.locked
  rintro _ _ rfl
  refine wp_post (brelse_spec (by simpa [release_buf, hji] using he.locked)) ?_
  rintro _ _ rfl
  refine wrote_of_two hs ?_ he.lt hc.lt hji ?_ ?_ ?_ (fun k hkj hki => ?_) ?_ ?_
  · have hwritten := hcache.setBuf_same (c := { e with data := c.data }) he.lt
      (by rw [setBuf_self]) (by rw [setBuf_self])
    refine Cache.setBuf_same (Cache.of_buf hwritten rfl rfl) he.lt ?_ ?_ <;> simp
  · refine change_of_written he ?_ ?_ ?_ ?_ <;> simp [released, hd]
  · simpa [Holds, hd] using ⟨he.dev_eq, he.blockno_eq⟩
  · refine change_of_fresh hc hne.symm ?_ ?_ ?_ ?_ ?_ <;>
      simp [released, setBuf_of_ne _ hji.symm]
  · simp [setBuf_of_ne _ hki, setBuf_of_ne _ hkj]
  · simp [hd, he.blockno_eq]
  · simp [hd, he.blockno_eq]

theorem updateBlock_spec {f : Data → Data} (hs : Ready dev s) :
    wp (updateBlock dev x f) (fun _ s' => ∃ h, Wrote dev x h s s') noError s := by
  refine wp_bind (bread_spec hs.toCache (hs.readable x)) ?_
  rintro i _ ⟨c, rfl, hc⟩
  have hcache := hs.toCache.fresh hc
  refine wp_modify_bind ?_
  rw [setBuf_self, setBuf_setBuf]
  apply wp_bind_state (bwrite_spec (by simpa using hc.locked))
  refine wp_post (brelse_spec (by simpa using hc.locked)) ?_
  rintro _ _ rfl
  refine ⟨f c.data, wrote_of_change hs ?_ (fun k hk => ?_) (fun k hk => ?_) ⟨i, hc.lt, ?_⟩ ?_ ?_⟩
  · have hwritten := hcache.setBuf_same (c := { c with data := f c.data }) hc.lt
      (by rw [setBuf_self]) (by rw [setBuf_self])
    rw [setBuf_setBuf] at hwritten
    exact Cache.release (Cache.of_buf hwritten rfl rfl) hc.lt
  · by_cases hki : k = i
    · subst hki
      simp [release_buf]
    · simpa [release_buf, hki, setBuf_of_ne _ hki] using hs.unlocked k hk
  · by_cases hki : k = i
    · subst hki
      refine change_of_written hc ?_ ?_ ?_ ?_ <;> simp [release_buf]
    · refine .keep ?_ ?_ ?_ ?_ ?_ <;> simp [release_buf, hki]
  · simp [Holds, release_buf, hc.dev_eq, hc.blockno_eq]
  · simp [hc.blockno_eq]
  · simp [hc.blockno_eq]

/-! ## §4  `commit` -/

/-- A transaction as `commit` finds it: at most `LOGSIZE - 1` different blocks
outside the log, block `i` pinned in the cache with contents `new i`. -/
structure Transaction (s : St) (new : ℕ → Data) : Prop extends Ready s.log.dev s.bio where
  /-- the zeroed buffers of `binit` claim to hold block 0 of device 0 -/
  dev_ne : s.log.dev ≠ 0
  length : s.log.n ≤ logsize - 1
  inj : ∀ i j, i < s.log.n → j < s.log.n → s.log.block i = s.log.block j → i = j
  outside : ∀ i < s.log.n, s.log.block i < s.log.start ∨ s.log.start + logsize ≤ s.log.block i
  pinned : ∀ i < s.log.n, Pinned s.log.dev (s.log.block i) (new i) s.bio

/-- The writes of `commit`: the copies, the header, the home blocks, the header. -/
def commitWrites (log : Log) (new : ℕ → Data) (h h' : Data) : List (ℕ × Data) :=
  (List.range log.n).map (fun i => (log.start + i + 1, new i)) ++ (log.start, h) ::
    ((List.range log.n).map (fun i => (log.block i, new i)) ++ [(log.start, h')])

/-- `write_log` before its round `i`. -/
structure Copying (log : Log) (new : ℕ → Data) (s : Bio.St) (i : ℕ) (s' : Bio.St) : Prop
    extends Ready log.dev s' where
  writes : s'.writes = s.writes ++ (List.range i).map fun j => (log.start + j + 1, new j)
  pinned : ∀ j < log.n, Pinned log.dev (log.block j) (new j) s'
  synced : ∀ j < i, Synced log.dev (log.start + j + 1) (new j) s'

/-- `install_trans` before its round `i`. -/
structure Installing (log : Log) (new : ℕ → Data) (s : Bio.St) (i : ℕ) (s' : Bio.St) : Prop
    extends Ready log.dev s' where
  writes : s'.writes = s.writes ++ (List.range i).map fun j => (log.block j, new j)
  pinned : ∀ j, i ≤ j → j < log.n → Pinned log.dev (log.block j) (new j) s'
  synced : ∀ j < log.n, Synced log.dev (log.start + j + 1) (new j) s'

/-- A home block is none of the blocks the log uses. -/
theorem Transaction.block_ne {s : St} (hs : Transaction s new) {k : ℕ}
    (hi : i < s.log.n) (hk : k ≤ s.log.n) : s.log.block i ≠ s.log.start + k := by
  have hout := hs.outside i hi
  have hlen := hs.length
  simp only [logsize, maxopblocks] at hout hlen
  omega

theorem writeLog_spec {s : St} (hs : Transaction s new) :
    wp writeLog (fun _ s' => s'.log = s.log ∧ Copying s.log new s.bio s.log.n s'.bio)
      noError s := by
  refine wp_get (wp_zoom ?_)
  refine wp_post (wp_forRange (I := Copying s.log new s.bio) (fun i t _ hi ht => ?_) ?_) ?_
  · rw [Nat.zero_add] at hi
    refine wp_post (writeLogBlock_spec ht.toReady (hs.block_ne hi hi) (ht.pinned i hi)) ?_
    intro _ t' hw
    refine { hw.ready with writes := ?_, pinned := fun j hj => ?_, synced := fun j hj => ?_ }
    · rw [hw.writes, ht.writes, List.range_succ, List.map_append, ← List.append_assoc]
      rfl
    · exact hw.pinned _ _ (hs.block_ne hj hi) (ht.pinned j hj)
    · rcases Nat.lt_succ_iff_lt_or_eq.mp hj with hj' | rfl
      · exact hw.synced _ _ (by omega) (ht.synced j hj')
      · exact hw.self
  · exact { hs.toReady with
      writes := by simp [cache]
      pinned := hs.pinned
      synced := fun j hj => absurd hj (Nat.not_lt_zero j) }
  · intro _ t ht
    rw [Nat.zero_add] at ht
    exact ⟨rfl, ht⟩

theorem installTrans_spec {s : St}
    (hne : ∀ i j, i < s.log.n → j < s.log.n → s.log.block i ≠ s.log.start + j + 1)
    (hinj : ∀ i j, i < s.log.n → j < s.log.n → s.log.block i = s.log.block j → i = j)
    (hs : Installing s.log new s.bio 0 s.bio) :
    wp (installTrans false)
      (fun _ s' => s'.log = s.log ∧ Installing s.log new s.bio s.log.n s'.bio) noError s := by
  refine wp_get (wp_zoom ?_)
  refine wp_post (wp_forRange (I := Installing s.log new s.bio) (fun i t _ hi ht => ?_) hs) ?_
  · rw [Nat.zero_add] at hi
    refine wp_post (installBlock_spec ht.toReady (hne i i hi hi) (ht.pinned i le_rfl hi)
      (ht.synced i hi)) ?_
    intro _ t' hw
    refine { hw.ready with writes := ?_, pinned := fun j hij hj => ?_, synced := fun j hj => ?_ }
    · rw [hw.writes, ht.writes, List.range_succ, List.map_append, ← List.append_assoc]
      rfl
    · refine hw.pinned _ _ (fun h => ?_) (ht.pinned j (by omega) hj)
      have := hinj j i hj hi h
      omega
    · exact hw.synced _ _ (hne i j hi hj).symm (ht.synced j hj)
  · intro _ t ht
    rw [Nat.zero_add] at ht
    exact ⟨rfl, ht⟩

theorem writeHead_spec {s : St} (hs : Ready s.log.dev s.bio) :
    wp writeHead (fun _ s' => s'.log = s.log ∧
      ∃ h, Wrote s.log.dev s.log.start h s.bio s'.bio) noError s := by
  refine wp_get (wp_zoom (wp_post (updateBlock_spec hs) ?_))
  exact fun _ _ h => ⟨rfl, h⟩

theorem commit_spec {s : St} (hs : Transaction s new) :
    wp commit (fun _ s' => ∃ h h', s'.bio.writes = s.bio.writes ++
      if 0 < s.log.n then commitWrites s.log new h h' else []) noError s := by
  refine wp_get (wp_ite (fun hn => ?_) (fun hn => wp_pure ⟨zero, zero, by simp [hn]⟩))
  refine wp_bind (writeLog_spec hs) ?_
  rintro _ t₁ ⟨hlog₁, h₁⟩
  refine wp_bind (writeHead_spec (by rw [hlog₁]; exact h₁.toReady)) ?_
  rintro _ t₂ ⟨hlog₂, h, h₂⟩
  rw [hlog₁] at hlog₂ h₂
  have hstart : Installing t₂.log new t₂.bio 0 t₂.bio := by
    rw [hlog₂]
    exact { h₂.ready with
      writes := by simp
      pinned := fun j _ hj => h₂.pinned _ _ (hs.block_ne (k := 0) hj (by omega)) (h₁.pinned j hj)
      synced := fun j hj => h₂.synced _ _ (by omega) (h₁.synced j hj) }
  refine wp_bind (installTrans_spec ?_ ?_ hstart) ?_
  · rw [hlog₂]
    exact fun i j hi hj => hs.block_ne hi hj
  · rw [hlog₂]
    exact hs.inj
  rintro _ t₃ ⟨hlog₃, h₃⟩
  rw [hlog₂] at hlog₃ h₃
  refine wp_modify_bind (wp_post (writeHead_spec (by rw [hlog₃]; exact h₃.toReady)) ?_)
  rintro _ t₄ ⟨-, h', h₄⟩
  refine ⟨h, h', ?_⟩
  rw [h₄.writes, h₃.writes, h₂.writes, h₁.writes, if_pos hn, hlog₃]
  simp [commitWrites]

/-! ## §5  Recovery -/

/-- A buffer taken by `bread`, changed in the cache only, and given back. -/
theorem ready_of_fresh (hs : Ready dev s)
    (hc : Fresh s dev x i c) : Ready dev (release (setBuf s i { c with data := d }) i) := by
  have hcache := (hs.toCache.fresh hc).setBuf_same (c := { c with data := d }) hc.lt
    (by rw [setBuf_self]) (by rw [setBuf_self])
  rw [setBuf_setBuf] at hcache
  refine { hcache.release hc.lt with unlocked := fun k hk => ?_, spare := ?_ }
  · by_cases hki : k = i
    · subst hki
      simp [release_buf]
    · simpa [release_buf, hki, setBuf_of_ne _ hki] using hs.unlocked k hk
  · obtain ⟨k, hk, h0⟩ := hs.spare
    refine ⟨k, hk, ?_⟩
    by_cases hki : k = i
    · subst hki
      cases hc.taken with
      | hit _ href => simp [release_buf, href, h0]
      | miss _ _ href => simp [release_buf, href]
    · simpa [release_buf, hki, setBuf_of_ne _ hki] using h0

/-- `read_head` on a kernel that has just started: whatever the header on disk
says, `log.lh.n` stays 0. -/
theorem readHead_spec {s : St} (hs : Ready s.log.dev s.bio) (hn : s.log.n = 0) :
    wp readHead (fun _ s' => s'.log = s.log ∧ s'.bio.disk = s.bio.disk ∧
      Ready s.log.dev s'.bio) noError s := by
  refine wp_get (wp_zoom_bind (bread_spec hs.toCache (hs.readable _)) ?_)
  rintro i _ ⟨c, rfl, hc⟩
  refine wp_zoom_bind (P := fun _ t => t = setBuf s.bio i { c with
    data := setLE c.data 0 4 s.log.n }) (wp_modify ?_) ?_
  · simp [cache]
  rintro _ _ rfl
  refine wp_modify_bind (wp_zoom (wp_post (brelse_spec ?_) ?_))
  · simpa [cache] using hc.locked
  rintro _ _ rfl
  refine ⟨?_, ?_, ready_of_fresh hs hc⟩
  · simp only [cache, hn, Nat.not_lt_zero, if_false]
    rw [← hn]
  · simp [cache]

theorem ready_binit (disk : ℕ → Data) (hdev : dev ≠ 0) : Ready dev (binit disk) :=
  { cache_binit disk hdev with
    unlocked := fun _ _ => rfl
    spare := ⟨0, by decide, rfl⟩ }

/-- Recovery rewrites the header block and no other. -/
theorem initlog_spec (disk : ℕ → Data) (hdev : dev ≠ 0) (logstart nlog : ℕ) :
    wp (initlog dev logstart nlog) (fun _ s' => ∃ h, s'.bio.disk = update disk logstart h)
      noError ⟨binit disk, Log.zero⟩ := by
  refine wp_modify_bind (wp_bind (readHead_spec ?_ rfl) ?_)
  · exact ready_binit disk hdev
  rintro _ t ⟨hlog, hdisk, ht⟩
  refine wp_bind (Q := fun _ t' => t = t') ?_ ?_
  · -- `log.lh.n` is 0, so nothing is replayed
    refine wp_get (wp_zoom ?_)
    rw [hlog]
    exact wp_pure rfl
  rintro _ _ rfl
  refine wp_modify_bind (wp_post (writeHead_spec ?_) ?_)
  · rw [hlog]
    exact ht
  rintro _ t' ⟨-, h, hw⟩
  refine ⟨h, ?_⟩
  rw [hw.disk, hlog]
  show update t.bio.disk logstart h = _
  rw [hdisk]
  rfl

/-! ## §6  Crashes -/

/-- The disk after a crash that let the first `k` block writes of `commit`
through, and the recovery at the next boot. -/
def afterCrash (s : St) (k : ℕ) : Option (ℕ → Data) :=
  match commit s with
  | .error _ => none
  | .ok (_, s') =>
    let ws := s'.bio.writes.drop s.bio.writes.length
    let disk := applyWrites s.bio.disk (ws.take k)
    match initlog s.log.dev s.log.start s.log.size ⟨binit disk, Log.zero⟩ with
    | .error _ => none
    | .ok (_, s'') => some s''.bio.disk

/-- All-or-nothing: the home blocks are all old or all new, and all new once the
header (write number `n + 1`) is on disk. -/
def CrashAtomic (s : St) (new : ℕ → Data) (k : ℕ) : Prop :=
  ∃ disk, afterCrash s k = some disk ∧
    ((∀ i < s.log.n, disk (s.log.block i) = s.bio.disk (s.log.block i)) ∨
      ∀ i < s.log.n, disk (s.log.block i) = new i) ∧
    (s.log.n < k → ∀ i < s.log.n, disk (s.log.block i) = new i)

/-- Home block `i` on the disk that survives: new once its own write, number
`n + 2 + i`, is through. -/
theorem applyWrites_commit {s : St} (hs : Transaction s new) (h h' : Data)
    (k : ℕ) (hi : i < s.log.n) :
    applyWrites s.bio.disk ((commitWrites s.log new h h').take k) (s.log.block i) =
      if s.log.n + 1 + i < k then new i else s.bio.disk (s.log.block i) := by
  have hstart : s.log.start ≠ s.log.block i := (hs.block_ne (k := 0) hi (by omega)).symm
  have hcopies : ∀ d : ℕ → Data, ∀ m, applyWrites d
      (((List.range s.log.n).map fun j => (s.log.start + j + 1, new j)).take m) (s.log.block i) =
        d (s.log.block i) := by
    intro d m
    apply applyWrites_of_notMem
    intro w hw
    obtain ⟨j, hj, rfl⟩ := List.mem_map.mp (List.mem_of_mem_take hw)
    rw [List.mem_range] at hj
    exact (hs.block_ne hi hj).symm
  rw [commitWrites, List.take_append, applyWrites_append, List.length_map, List.length_range]
  cases hm : k - s.log.n with
  | zero =>
    rw [List.take_zero, applyWrites_nil, hcopies, if_neg (by omega)]
  | succ m =>
    rw [List.take_succ_cons, applyWrites_cons, List.take_append, applyWrites_append,
      applyWrites_of_notMem, applyWrites_take_range hs.inj m hi, update_of_ne hstart.symm,
      hcopies]
    · congr 1
      apply propext
      omega
    · intro w hw
      rw [List.mem_singleton.mp (List.mem_of_mem_take hw)]
      exact hstart

theorem afterCrash_eq {s : St} (hs : Transaction s new) (k : ℕ) :
    ∃ disk, afterCrash s k = some disk ∧ ∀ i < s.log.n, disk (s.log.block i) =
      if s.log.n + 1 + i < k then new i else s.bio.disk (s.log.block i) := by
  obtain ⟨_, s', hrun, h, h', hwrites⟩ := exists_of_wp (commit_spec hs)
  obtain ⟨_, s'', hrec, e, hdisk⟩ := exists_of_wp
    (initlog_spec (applyWrites s.bio.disk ((s'.bio.writes.drop s.bio.writes.length).take k))
      hs.dev_ne s.log.start s.log.size)
  refine ⟨s''.bio.disk, ?_, fun i hi => ?_⟩
  · simp only [afterCrash, hrun, hrec]
  · have hstart : s.log.block i ≠ s.log.start := hs.block_ne (k := 0) hi (by omega)
    rw [hdisk, update_of_ne hstart, hwrites, List.drop_left, if_pos (by omega)]
    exact applyWrites_commit hs h h' k hi

/-- **When the log survives a crash.** Recovery makes a transaction atomic
exactly for crashes before the header is on disk, and for those after it that
find the blocks not yet installed equal to their new contents already. -/
theorem crashAtomic_iff {s : St} {new : ℕ → Data} (hs : Transaction s new) (k : ℕ) :
    CrashAtomic s new k ↔
      k ≤ s.log.n ∨
        ∀ i < s.log.n, k ≤ s.log.n + 1 + i → s.bio.disk (s.log.block i) = new i := by
  obtain ⟨disk, hcrash, hhome⟩ := afterCrash_eq hs k
  constructor
  · rintro ⟨disk', hcrash', -, hnew⟩
    rw [hcrash] at hcrash'
    cases hcrash'
    by_cases hk : k ≤ s.log.n
    · exact Or.inl hk
    · refine Or.inr fun i hi hik => ?_
      have h := hnew (by omega) i hi
      rwa [hhome i hi, if_neg (by omega)] at h
  · intro hcond
    have hnew : s.log.n < k → ∀ i < s.log.n, disk (s.log.block i) = new i := by
      intro hk i hi
      rw [hhome i hi]
      split_ifs with hik
      · rfl
      · rcases hcond with h | h
        · omega
        · exact h i hi (by omega)
    refine ⟨disk, hcrash, ?_, hnew⟩
    by_cases hk : k ≤ s.log.n
    · refine Or.inl fun i hi => ?_
      rw [hhome i hi, if_neg (by omega)]
    · exact Or.inr (hnew (by omega))

/-- A block of ones. -/
def ones : Data := fun _ => 1

/-- One block to commit: block 100, zero on disk and `ones` in buffer 0. -/
def oneBlock : St where
  bio := setBuf (binit fun _ => zero) 0
    { valid := true, dev := rootdev, blockno := 100, locked := false, refcnt := 1, data := ones }
  log := { start := 2, size := logsize, dev := rootdev, n := 1, block := fun _ => 100 }

theorem transaction_oneBlock : Transaction oneBlock fun _ => ones where
  toReady :=
    { (cache_binit (fun _ => zero) (by decide : rootdev ≠ 0)).setBuf fun _ j _ _ h =>
        absurd h.1 (show (0 : ℕ) ≠ rootdev by decide) with
      unlocked := by
        intro i _
        by_cases hi : i = 0
        · subst hi
          rfl
        · simp only [oneBlock, setBuf_of_ne _ hi]
          rfl
      spare := ⟨1, by decide, rfl⟩ }
  dev_ne := by decide
  length := by decide
  inj := by
    intro i j hi hj _
    have h₁ : i < 1 := hi
    have h₂ : j < 1 := hj
    omega
  outside := fun _ _ => Or.inr (show 2 + logsize ≤ 100 by decide)
  pinned := fun _ _ => ⟨0, by decide, ⟨rfl, rfl⟩, rfl, by decide, rfl⟩

/-- The copy is written and nothing else: after recovery the old contents are there. -/
theorem crashAtomic_oneBlock : CrashAtomic oneBlock (fun _ => ones) 1 :=
  (crashAtomic_iff transaction_oneBlock 1).mpr (Or.inl le_rfl)

/-- The copy and the header are written: recovery should bring the new contents,
and leaves the old ones. -/
theorem not_crashAtomic_oneBlock :
    Transaction oneBlock (fun _ => ones) ∧ ¬ CrashAtomic oneBlock (fun _ => ones) 2 := by
  refine ⟨transaction_oneBlock, ?_⟩
  rintro ⟨disk, hcrash, -, hnew⟩
  obtain ⟨disk', hcrash', hhome⟩ := afterCrash_eq transaction_oneBlock 2
  rw [hcrash] at hcrash'
  cases hcrash'
  have hold : disk 100 = zero := hhome 0 (by decide)
  have h := hnew (by decide) 0 (by decide)
  have hbyte : (zero : Data) ⟨0, by decide⟩ = ones ⟨0, by decide⟩ := by
    rw [← hold]
    exact congrFun h _
  exact absurd hbyte (by decide)

end RiscvBm.DiskLog

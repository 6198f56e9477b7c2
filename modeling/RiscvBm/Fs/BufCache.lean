import RiscvBm.Fs.Bio
import RiscvBm.Fs.LogOps
import RiscvBm.Lib.DList

/-!
# The buffer cache under concurrent use (`kernel/bio.c` with the pins of `kernel/log.c`)

Where `Fs.Bio` has one process and the list of buffers as a Lean list, this module has any
number of processes and the `prev`/`next` pointers themselves. The steps are the sections
under `bcache.lock`, the taking and the giving back of a buffer's sleep lock (which is assumed to
exclude), the disk transfers, and the steps of the log of `Fs.LogOps`, to which `log_write`
and `install_trans` add what they do to `refcnt`. What one process alone does with its sections
is what `Fs.Bio` says (`seq_bget`, `seq_brelse`).
-/

namespace RiscvBm.BufCache

open Bio (Data)
open DList Transition Function

/-! ## §1  State -/

/-- `struct buf`; `owner` is the process that holds the sleep lock. -/
structure Buf where
  valid : Bool
  dev : ℕ
  blockno : ℕ
  owner : Option ℕ
  refcnt : ℕ
  data : Data

/-- The block a buffer is assigned to. -/
def Buf.ident (c : Buf) : ℕ × ℕ := (c.dev, c.blockno)

/-- Where a process is in `bread` or `brelse`. -/
inductive Pc where
  | out
  | locking (dev blockno i : ℕ)                 -- `bget` has chosen buffer `i`
  | filling (miss : Bool) (dev blockno i : ℕ)   -- it has the lock; `miss`: `valid` was 0
  | releasing (i : ℕ)                           -- in `brelse`, after `releasesleep`
deriving DecidableEq, Repr

inductive Panic where
  | noBuffers      -- "bget: no buffers"
  | bwrite
  | brelse
  | endless        -- a scan of the list that does not come back to the head
deriving DecidableEq, Repr

/-- What a `bread` returned, with what was known of its block at that moment. -/
structure Read where
  dev : ℕ
  blockno : ℕ
  got : Buf
  fromDisk : Bool
  /-- the block was log_written and not yet installed -/
  dirty : Bool
  latest : Data

structure St where
  buf : ℕ → Buf
  /-- buffers are nodes `0 .. NBUF - 1`; `bcache.head` is node `NBUF` -/
  links : Links ℕ
  disk : ℕ → Data
  log : LogOps.St
  pc : ℕ → Pc
  panicked : Option Panic
  /-- which process has a reference from `bget` to which buffer -/
  refs : List (ℕ × ℕ)
  /-- which user has pinned which buffer with `bpin` -/
  pins : List (ℕ × ℕ)
  /-- blocks between their `log_write` and the `install_trans` that unpins them -/
  dirty : List (ℕ × ℕ)
  /-- the contents a block was last given in memory -/
  latest : ℕ × ℕ → Data
  reads : List Read

/-- The loop of `binit` over the first `n` buffers. -/
def binitLinks : ℕ → Links ℕ
  | 0 => ⟨fun _ => nbuf, fun _ => nbuf⟩
  | n + 1 => pushFront (binitLinks n) nbuf n

def init (size : ℤ) (disk : ℕ → Data) : St where
  buf := fun _ => ⟨false, 0, 0, none, 0, Bytes.zero⟩
  links := binitLinks nbuf
  disk := disk
  log := LogOps.init size
  pc := fun _ => .out
  panicked := none
  refs := []
  pins := []
  dirty := []
  latest := fun b => disk b.2
  reads := []

/-! ## §2  Steps -/

/-- The section of `bget`: the buffer it chooses and what becomes of it. -/
def bget (s : St) (dev blockno : ℕ) : Except Panic (ℕ × Buf) :=
  match scan s.links.next nbuf (fun i => (s.buf i).ident = (dev, blockno)) (nbuf + 1)
      (s.links.next nbuf) with
  | none => .error .endless
  | some (some i) => .ok (i, { s.buf i with refcnt := (s.buf i).refcnt + 1 })
  | some none =>
    match scan s.links.prev nbuf (fun i => (s.buf i).refcnt = 0) (nbuf + 1)
        (s.links.prev nbuf) with
    | none => .error .endless
    | some none => .error .noBuffers
    | some (some i) => .ok (i, { s.buf i with
        dev := dev, blockno := blockno, valid := false, refcnt := 1 })

def setBuf (s : St) (i : ℕ) (c : Buf) : St := { s with buf := update s.buf i c }

def goto (s : St) (p : ℕ) (c : Pc) : St := { s with pc := update s.pc p c }

def startRead (s : St) (p dev blockno : ℕ) : St :=
  match bget s dev blockno with
  | .error e => { s with panicked := some e }
  | .ok (i, c) =>
    { goto (setBuf s i c) p (.locking dev blockno i) with refs := (p, i) :: s.refs }

/-- `bread` returns buffer `i` to `p`. -/
def return_ (s : St) (p dev blockno i : ℕ) (fromDisk : Bool) : St :=
  { goto s p .out with
    reads := s.reads ++ [⟨dev, blockno, s.buf i, fromDisk, (dev, blockno) ∈ s.dirty,
      s.latest (dev, blockno)⟩] }

/-- `p` stores `d` into the data of buffer `i`. -/
def store (s : St) (i : ℕ) (d : Data) : St :=
  { setBuf s i { s.buf i with data := d } with latest := update s.latest (s.buf i).ident d }

/-- `virtio_disk_rw(b, 0); b->valid = 1`. -/
def fill (s : St) (i : ℕ) : St :=
  let d := s.disk (s.buf i).blockno
  { setBuf s i { s.buf i with data := d, valid := true } with
    latest := update s.latest (s.buf i).ident d }

/-- The section of `brelse` under `bcache.lock`. -/
def dropRef (s : St) (p i : ℕ) : St :=
  let s' := setBuf s i { s.buf i with refcnt := (s.buf i).refcnt - 1 }
  { goto s' p .out with
    links := if (s'.buf i).refcnt = 0 then pushFront (unlink s.links i) nbuf i else s.links
    refs := s.refs.erase (p, i) }

inductive Act where
  | bread (p dev blockno : ℕ)
  | run (p : ℕ)                      -- the next step of a `bread` or `brelse`
  | store (p i : ℕ) (d : Data)       -- `p` writes to `b->data`
  | bwrite (p i : ℕ)
  | brelse (p i : ℕ)
  | bpin (p i : ℕ)
  | bunpin (p i : ℕ)
  | logWrite (p i : ℕ)
  | install (p i : ℕ)                -- `bunpin(bdst)` of `install_trans`
  | log (a : LogOps.Act)             -- the other steps of the log

/-- `holdingsleep`, between two calls of `p`. -/
def Holding (s : St) (p i : ℕ) : Prop := s.pc p = .out ∧ (s.buf i).owner = some p

instance (s : St) (p i : ℕ) : Decidable (Holding s p i) := instDecidableAnd

def addRef (s : St) (i : ℕ) : St := setBuf s i { s.buf i with refcnt := (s.buf i).refcnt + 1 }

def subRef (s : St) (i : ℕ) : St := setBuf s i { s.buf i with refcnt := (s.buf i).refcnt - 1 }

/-- `log_write`: a block that is in the header already is not pinned again. -/
def logWrite (s : St) (i : ℕ) (log : LogOps.St) : St :=
  if log.panicked.isSome then { s with log := log }
  else
    let s' := if (s.buf i).blockno ∈ s.log.lh then s else addRef s i
    { s' with
      log := log
      dirty := if (s.buf i).ident ∈ s.dirty then s.dirty else s.dirty ++ [(s.buf i).ident] }

/-- `p` is about to unpin block `k` of the header. -/
def installing (log : LogOps.St) (p : ℕ) : Option ℕ :=
  match log.pc p with
  | .commit (.install k) => log.lh[k]?
  | _ => none

/-- The log takes a step of its own; those that touch `refcnt` are `logWrite` and `install`. -/
def logStep (s : St) (a : LogOps.Act) : Option St :=
  match a with
  | .logWrite _ _ => none
  | .run p =>
    if (installing s.log p).isSome then none
    else (LogOps.step s.log a).map fun log => { s with log := log }
  | .endOp _ => (LogOps.step s.log a).map fun log => { s with log := log }

def runStep (s : St) (p : ℕ) : Option St :=
  match s.pc p with
  | .out => none
  | .locking dev blockno i =>
    -- `acquiresleep`
    if (s.buf i).owner = none then
      some (goto (setBuf s i { s.buf i with owner := some p }) p (.filling false dev blockno i))
    else none
  | .filling false dev blockno i =>
    if (s.buf i).valid then some (return_ s p dev blockno i false)
    else some (goto s p (.filling true dev blockno i))
  | .filling true dev blockno i => some (return_ (fill s i) p dev blockno i true)
  | .releasing i => some (dropRef s p i)

def step (s : St) (a : Act) : Option St :=
  if s.panicked.isSome then none
  else
    match a with
    | .bread p dev blockno => if s.pc p = .out then some (startRead s p dev blockno) else none
    | .run p => runStep s p
    | .store p i d => if Holding s p i then some (store s i d) else none
    | .bwrite p i =>
      if s.pc p ≠ .out then none
      else if (s.buf i).owner = some p then
        some { s with disk := update s.disk (s.buf i).blockno (s.buf i).data }
      else some { s with panicked := some .bwrite }
    | .brelse p i =>
      if s.pc p ≠ .out then none
      else if (s.buf i).owner = some p then
        some (goto (setBuf s i { s.buf i with owner := none }) p (.releasing i))
      else some { s with panicked := some .brelse }
    | .bpin p i =>
      if i < nbuf then some { addRef s i with pins := (p, i) :: s.pins } else none
    | .bunpin p i =>
      if i < nbuf then some { subRef s i with pins := s.pins.erase (p, i) } else none
    | .logWrite p i =>
      if Holding s p i then
        (LogOps.step s.log (.logWrite p (s.buf i).blockno)).map (logWrite s i)
      else none
    | .install p i =>
      if Holding s p i ∧ (s.buf i).dev = rootdev ∧
          installing s.log p = some (s.buf i).blockno then
        (LogOps.step s.log (.run p)).map fun log =>
          { subRef s i with log := log, dirty := s.dirty.erase (s.buf i).ident }
      else none
    | .log a => logStep s a

/-! ## §3  References -/

/-- Which process may be at which buffer. -/
structure Use (pc : ℕ → Pc) (owner : ℕ → Option ℕ) (refs : List (ℕ × ℕ)) (ident : ℕ → ℕ × ℕ)
    (valid : ℕ → Bool) : Prop where
  lt : ∀ {p i}, (p, i) ∈ refs → i < nbuf
  owned : ∀ {p i}, owner i = some p → (p, i) ∈ refs
  locking : ∀ {p d b i}, pc p = .locking d b i → (p, i) ∈ refs ∧ ident i = (d, b) ∧ d ≠ 0
  filling : ∀ {p m d b i}, pc p = .filling m d b i →
    owner i = some p ∧ ident i = (d, b) ∧ d ≠ 0
  missed : ∀ {p d b i}, pc p = .filling true d b i → valid i = false
  releasing : ∀ {p i}, pc p = .releasing i → (p, i) ∈ refs ∧ owner i ≠ some p
  /-- whoever has a buffer's lock outside `bread` has valid data in it -/
  ready : ∀ {p i}, owner i = some p → (∀ m d b, pc p ≠ .filling m d b i) → valid i = true

section Use

variable {pc : ℕ → Pc} {owner : ℕ → Option ℕ} {refs : List (ℕ × ℕ)} {ident ident' : ℕ → ℕ × ℕ}
  {valid valid' : ℕ → Bool} {p i d b : ℕ}

/-! A step moves one process; what the places of the others say is not touched by it. -/

variable (h : Use pc owner refs ident valid)

include h

/-- `bget`: a buffer in use keeps its block and its contents. -/
theorem Use.get (hp : pc p = .out) (hi : i < nbuf)
    (hd : d ≠ 0) (hident : ident' i = (d, b)) (hkeep : ∀ q j, (q, j) ∈ refs → ident' j = ident j)
    (hvalid : ∀ q j, (q, j) ∈ refs → valid' j = valid j) :
    Use (update pc p (.locking d b i)) owner ((p, i) :: refs) ident' valid' := by
  obtain ⟨hlt, howned, hlocking, hfilling, hmissed, hreleasing, hready⟩ := h
  constructor
  case missed =>
    intro q d' b' j hq
    have hq := (of_update hq (by simp)).2
    rw [hvalid q j (howned (hfilling hq).1)]
    exact hmissed hq
  case ready =>
    intro q j ho hnot
    rw [hvalid q j (howned ho)]
    apply hready ho
    grind [update_apply]
  all_goals grind [update_apply]

/-- `acquiresleep`. -/
theorem Use.lock (hp : pc p = .locking d b i)
    (hfree : owner i = none) :
    Use (update pc p (.filling false d b i)) (update owner i (some p)) refs ident valid := by
  obtain ⟨hmem, hid, hd⟩ := h.locking hp
  obtain ⟨hlt, howned, hlocking, hfilling, hmissed, hreleasing, hready⟩ := h
  constructor
  case ready =>
    intro q j ho hnot
    by_cases hj : j = i
    · rw [hj, update_self] at ho
      cases ho
      exact absurd (by rw [update_self, hj]) (hnot false d b)
    · rw [update_of_ne hj] at ho
      apply hready ho
      grind [update_apply]
  all_goals grind [update_apply]

/-- `bread` finds that the contents have to be read. -/
theorem Use.miss {m : Bool} (hp : pc p = .filling m d b i)
    (hv : valid i = false) :
    Use (update pc p (.filling true d b i)) owner refs ident valid := by
  obtain ⟨hlt, howned, hlocking, hfilling, hmissed, hreleasing, hready⟩ := h
  constructor <;> grind [update_apply]

/-- `bread` returns, and the buffer has valid data. -/
theorem Use.done {m : Bool} (hp : pc p = .filling m d b i)
    (hi : valid' i = true) (hother : ∀ j, j ≠ i → valid' j = valid j) :
    Use (update pc p .out) owner refs ident valid' := by
  obtain ⟨hlt, howned, hlocking, hfilling, hmissed, hreleasing, hready⟩ := h
  constructor
  case missed =>
    -- whoever is about to read buffer `j` holds its lock, so `j` is not `i`
    intro q d' b' j hq
    obtain ⟨hqp, hq⟩ := of_update hq (by simp)
    have hj : j ≠ i := by
      rintro rfl
      have ho := (hfilling hq).1
      rw [(hfilling hp).1] at ho
      exact hqp (Option.some.inj ho).symm
    rw [hother j hj]
    exact hmissed hq
  all_goals grind [update_apply]

/-- `releasesleep`. -/
theorem Use.unlock (hp : pc p = .out) (ho : owner i = some p) :
    Use (update pc p (.releasing i)) (update owner i none) refs ident valid := by
  obtain ⟨hlt, howned, hlocking, hfilling, hmissed, hreleasing, hready⟩ := h
  constructor <;> grind [update_apply]

/-- The reference of a process that is done with the buffer goes away. -/
theorem Use.drop (hp : pc p = .releasing i) :
    Use (update pc p .out) owner (refs.erase (p, i)) ident valid := by
  have hkeep : ∀ {q j}, (q, j) ∈ refs → (q ≠ p ∨ owner j = some q) →
      (q, j) ∈ refs.erase (p, i) := by
    intro q j hmem hor
    apply (List.mem_erase_of_ne ?_).mpr hmem
    rintro heq
    cases heq
    exact hor.elim (fun hne => hne rfl) (h.releasing hp).2
  obtain ⟨hlt, howned, hlocking, hfilling, hmissed, hreleasing, hready⟩ := h
  constructor
  case lt => exact fun hmem => hlt (List.mem_of_mem_erase hmem)
  all_goals grind [update_apply]

end Use

/-! ## §4  Contents -/

/-- What the buffers contain. -/
structure Content (ident : ℕ → ℕ × ℕ) (valid : ℕ → Bool) (data : ℕ → Data)
    (dirty : List (ℕ × ℕ)) (latest : ℕ × ℕ → Data) : Prop where
  unique : ∀ {i j}, i < nbuf → j < nbuf → (ident i).1 ≠ 0 → ident i = ident j → i = j
  current : ∀ {i}, i < nbuf → (ident i).1 ≠ 0 → valid i = true → data i = latest (ident i)
  /-- a block that waits for its installation is in the cache -/
  cached : ∀ {b}, b ∈ dirty → b.1 = rootdev ∧ ∃ i < nbuf, ident i = b ∧ valid i = true

section Content

variable {ident : ℕ → ℕ × ℕ} {valid : ℕ → Bool} {data : ℕ → Data} {dirty : List (ℕ × ℕ)}
  {latest : ℕ × ℕ → Data} {i : ℕ} {b : ℕ × ℕ}

variable (h : Content ident valid data dirty latest)

include h

/-- A buffer nobody refers to is given another block. -/
theorem Content.recycle
    (hnone : ∀ j < nbuf, ident j ≠ b) (hclean : ident i ∉ dirty) :
    Content (update ident i b) (update valid i false) data dirty latest := by
  obtain ⟨hunique, hcurrent, hcached⟩ := h
  constructor
  case cached =>
    intro c hc
    obtain ⟨hdev, j, hj, hid, hv⟩ := hcached hc
    have hji : j ≠ i := by
      rintro rfl
      exact hclean (hid ▸ hc)
    exact ⟨hdev, j, hj, by rw [update_of_ne hji]; exact hid, by rw [update_of_ne hji]; exact hv⟩
  all_goals grind [update_apply]

/-- The data of a buffer change, in the buffer and in the record of what is latest. -/
theorem Content.put (hi : i < nbuf) {v : Bool}
    (hv : valid i = true → v = true) (x : Data) :
    Content ident (update valid i v) (update data i x) dirty (update latest (ident i) x) := by
  obtain ⟨hunique, hcurrent, hcached⟩ := h
  constructor
  case cached =>
    intro c hc
    obtain ⟨hdev, j, hj, hid, hvj⟩ := hcached hc
    refine ⟨hdev, j, hj, hid, ?_⟩
    grind [update_apply]
  all_goals grind [update_apply]

theorem Content.written (hi : i < nbuf)
    (hdev : (ident i).1 = rootdev) (hv : valid i = true) :
    Content ident valid data (dirty ++ [ident i]) latest := by
  refine ⟨h.unique, h.current, fun {c} hc => ?_⟩
  rcases List.mem_append.mp hc with hc | hc
  · exact h.cached hc
  · rw [List.mem_singleton] at hc
    subst hc
    exact ⟨hdev, i, hi, rfl, hv⟩

theorem Content.installed (b : ℕ × ℕ) :
    Content ident valid data (dirty.erase b) latest :=
  ⟨h.unique, h.current, fun hc => h.cached (List.mem_of_mem_erase hc)⟩

end Content

/-! ## §5  Counts -/

/-- The references to buffer `i` in a list of users. -/
def tally (l : List (ℕ × ℕ)) (i : ℕ) : ℕ := l.countP fun x => x.2 = i

theorem tally_cons (l : List (ℕ × ℕ)) (p i j : ℕ) :
    tally ((p, i) :: l) j = tally l j + if i = j then 1 else 0 := by
  simp [tally, List.countP_cons]

theorem tally_erase {l : List (ℕ × ℕ)} {p i : ℕ} (h : (p, i) ∈ l) (j : ℕ) :
    tally (l.erase (p, i)) j + (if i = j then 1 else 0) = tally l j := by
  rw [← tally_cons]
  exact ((List.perm_cons_erase h).countP_eq _).symm

theorem tally_pos {l : List (ℕ × ℕ)} {p i : ℕ} (h : (p, i) ∈ l) : 0 < tally l i :=
  List.countP_pos_iff.mpr ⟨(p, i), h, by simp⟩

/-- `refcnt` counts the users, the pins and one for a block that waits to be installed. -/
def Counted (refcnt : ℕ → ℕ) (refs pins : List (ℕ × ℕ)) (ident : ℕ → ℕ × ℕ)
    (dirty : List (ℕ × ℕ)) : Prop :=
  ∀ i < nbuf, refcnt i = tally refs i + tally pins i + if ident i ∈ dirty then 1 else 0

section Counted

variable {refcnt : ℕ → ℕ} {refs pins : List (ℕ × ℕ)} {ident : ℕ → ℕ × ℕ}
  {dirty : List (ℕ × ℕ)} {p i : ℕ}

variable (h : Counted refcnt refs pins ident dirty)

include h

/-- What a count of 0 means. -/
theorem Counted.unused (hi : i < nbuf)
    (h0 : refcnt i = 0) : (∀ q, (q, i) ∉ refs) ∧ tally refs i = 0 ∧ tally pins i = 0 ∧
      ident i ∉ dirty := by
  have hcount := h i hi
  rw [h0] at hcount
  refine ⟨fun q hmem => ?_, by omega, by omega, fun hmem => ?_⟩
  · have := tally_pos hmem
    omega
  · rw [if_pos hmem] at hcount
    omega

theorem Counted.getRef (p : ℕ) :
    Counted (update refcnt i (refcnt i + 1)) ((p, i) :: refs) pins ident dirty := by
  intro j hj
  have hcount := h j hj
  grind [tally_cons, update_apply]

theorem Counted.recycle (hi : i < nbuf)
    (h0 : refcnt i = 0) (p : ℕ) {b : ℕ × ℕ} (hb : b ∉ dirty) :
    Counted (update refcnt i 1) ((p, i) :: refs) pins (update ident i b) dirty := by
  obtain ⟨-, hrefs, hpins, -⟩ := h.unused hi h0
  intro j hj
  have hcount := h j hj
  grind [tally_cons, update_apply]

theorem Counted.dropRef (hmem : (p, i) ∈ refs) :
    Counted (update refcnt i (refcnt i - 1)) (refs.erase (p, i)) pins ident dirty := by
  intro j hj
  have hcount := h j hj
  have htally := tally_erase hmem j
  grind [update_apply]

theorem Counted.pin (p : ℕ) :
    Counted (update refcnt i (refcnt i + 1)) refs ((p, i) :: pins) ident dirty := by
  intro j hj
  have hcount := h j hj
  grind [tally_cons, update_apply]

theorem Counted.unpin (hmem : (p, i) ∈ pins) :
    Counted (update refcnt i (refcnt i - 1)) refs (pins.erase (p, i)) ident dirty := by
  intro j hj
  have hcount := h j hj
  have htally := tally_erase hmem j
  grind [update_apply]

/-- The log pins a block that is new to it. -/
theorem Counted.written
    (huniq : ∀ j < nbuf, ident j = ident i → j = i) (hnew : ident i ∉ dirty) :
    Counted (update refcnt i (refcnt i + 1)) refs pins ident (dirty ++ [ident i]) := by
  intro j hj
  have hcount := h j hj
  have hother := huniq j hj
  grind [update_apply]

theorem Counted.installed (hnd : dirty.Nodup)
    (huniq : ∀ j < nbuf, ident j = ident i → j = i) (hold : ident i ∈ dirty) :
    Counted (update refcnt i (refcnt i - 1)) refs pins ident (dirty.erase (ident i)) := by
  intro j hj
  have hcount := h j hj
  have hother := huniq j hj
  have hgone := hnd.not_mem_erase (a := ident i)
  grind [update_apply]

end Counted

/-! ## §6  The log's pins -/

/-- The blocks that wait for their installation are those of the header that the commit in
progress has not come to. -/
def Pinned (log : LogOps.St) (dirty : List (ℕ × ℕ)) : Prop :=
  ∃ o, LogOps.At log.pc o ∧ dirty = (LogOps.left log.lh o).map fun b => (rootdev, b)

section Pinned

variable {log log' : LogOps.St} {dirty : List (ℕ × ℕ)} {p k b : ℕ} (h : Pinned log dirty)

include h

theorem Pinned.of_commit {c : LogOps.CommitPc} (hp : log.pc p = .commit c) :
    dirty = (LogOps.left log.lh (some c)).map (fun b => (rootdev, b)) ∧
      ∀ q, q ≠ p → (log.pc q).isCommit = false := by
  obtain ⟨o, hat, hdirty⟩ := h
  obtain ⟨rfl, honly⟩ := hat.of_commit hp
  exact ⟨hdirty, honly⟩

theorem Pinned.of_none (hnone : LogOps.At log.pc none) :
    dirty = log.lh.map fun b => (rootdev, b) := by
  obtain ⟨o, hat, hdirty⟩ := h
  cases o with
  | none => exact hdirty
  | some c =>
    obtain ⟨q, hq, -⟩ := hat
    have := hnone q
    rw [hq] at this
    cases this

/-- Block `k` is unpinned. -/
theorem Pinned.unpin (hp : log.pc p = .commit (.install k)) (hb : log.lh[k]? = some b) :
    (rootdev, b) ∈ dirty ∧
      Pinned (LogOps.goto log p (.commit (.install (k + 1)))) (dirty.erase (rootdev, b)) := by
  obtain ⟨hk, rfl⟩ := List.getElem?_eq_some_iff.mp hb
  obtain ⟨hdirty, honly⟩ := h.of_commit hp
  rw [LogOps.left, List.drop_eq_getElem_cons hk, List.map_cons] at hdirty
  refine ⟨by rw [hdirty]; exact List.mem_cons_self, _, LogOps.at_commit honly, ?_⟩
  rw [hdirty, List.erase_cons_head]
  rfl

variable (hlog : LogOps.Inv log)

include hlog

/-- `log_write`: nobody is in `commit`, and the header takes up the block. -/
theorem Pinned.write (hp : log.pc p = .inOp) (b : ℕ) (t : List LogOps.Event) :
    ((rootdev, b) ∈ dirty ↔ b ∈ log.lh) ∧
    Pinned { log with lh := if b ∈ log.lh then log.lh else log.lh ++ [b], trace := t }
      (if (rootdev, b) ∈ dirty then dirty else dirty ++ [(rootdev, b)]) := by
  have hnone := (hlog.recorded (hlog.not_committing hp)).1
  have hdirty := h.of_none hnone
  have hiff : (rootdev, b) ∈ dirty ↔ b ∈ log.lh := by
    rw [hdirty]
    simp
  refine ⟨hiff, none, hnone, ?_⟩
  by_cases hb : b ∈ log.lh
  · simp only [if_pos (hiff.mpr hb), if_pos hb]
    exact hdirty
  · rw [if_neg fun hmem => hb (hiff.mp hmem)]
    simp [hb, hdirty, LogOps.left]

theorem Pinned.nodup : dirty.Nodup := by
  obtain ⟨o, -, rfl⟩ := h
  have hsub : (LogOps.left log.lh o).Sublist log.lh := by
    unfold LogOps.left
    split
    · exact List.drop_sublist _ _
    · exact List.Sublist.refl _
  exact (hlog.nodup.sublist hsub).map fun a b heq => (Prod.mk.inj heq).2

theorem pinned_log {a : LogOps.Act}
    (hstep : LogOps.step log a = some log') (hw : ∀ p b, a ≠ .logWrite p b)
    (hi : ∀ p, a = .run p → installing log p = none) : Pinned log' dirty := by
  have ⟨o, hat, hdirty⟩ := h
  obtain ⟨-, hcase⟩ := LogOps.step_case hstep
  cases hcase with
  | move hpc hc => exact ⟨o, hat.move hpc.2 hc.2, hdirty⟩
  | advance hpc _ hleft =>
    obtain ⟨hdirty, honly⟩ := h.of_commit hpc
    exact ⟨_, LogOps.at_commit honly, hleft ▸ hdirty⟩
  | installed hpc hlt =>
    have hnone := hi _ rfl
    rw [installing, hpc] at hnone
    exact absurd hlt (Nat.not_lt.mpr (List.getElem?_eq_none_iff.mp hnone))
  | write => exact absurd rfl (hw _ _)
  | writeTooBig => exact absurd rfl (hw _ _)
  | writeOutside => exact absurd rfl (hw _ _)
  | endPanic => exact h
  | enterOp hpc _ _ => exact ⟨o, hat.move (by rw [hpc]; rfl) rfl, hdirty⟩
  | endIdle hpc _ _ => exact ⟨o, hat.move (by rw [hpc]; rfl) rfl, hdirty⟩
  | endCommit _ hc _ =>
    have hnone := (hlog.recorded hc).1
    exact ⟨_, LogOps.at_commit fun q _ => hnone q, h.of_none hnone⟩
  | head hpc =>
    obtain ⟨hdirty, honly⟩ := h.of_commit hpc
    exact ⟨_, LogOps.at_commit honly, hdirty⟩
  | clear hpc hend =>
    obtain ⟨hdirty, honly⟩ := h.of_commit hpc
    rw [LogOps.left, List.drop_eq_nil_of_le hend] at hdirty
    exact ⟨_, LogOps.at_commit honly, hdirty⟩
  | leave hpc =>
    obtain ⟨hdirty, honly⟩ := h.of_commit hpc
    exact ⟨_, LogOps.at_none honly rfl, hdirty⟩

end Pinned

/-! ## §7  The invariant -/

/-- A `bread` returned the block it was asked for; if the block was waiting for its
installation, it returned what was last stored in memory, and not the disk's copy. -/
def Read.Ok (r : Read) : Prop :=
  r.got.ident = (r.dev, r.blockno) ∧ r.got.valid = true ∧
    (r.dirty = true → r.fromDisk = false ∧ r.got.data = r.latest)

abbrev St.owner (s : St) (i : ℕ) : Option ℕ := (s.buf i).owner
abbrev St.ident (s : St) (i : ℕ) : ℕ × ℕ := (s.buf i).ident
abbrev St.valid (s : St) (i : ℕ) : Bool := (s.buf i).valid
abbrev St.data (s : St) (i : ℕ) : Data := (s.buf i).data
abbrev St.refcnt (s : St) (i : ℕ) : ℕ := (s.buf i).refcnt

structure Inv (s : St) : Prop where
  cycle : ∃ l, Cycle s.links nbuf l ∧ ∀ i, i ∈ l ↔ i < nbuf
  use : Use s.pc s.owner s.refs s.ident s.valid
  content : Content s.ident s.valid s.data s.dirty s.latest
  counted : Counted s.refcnt s.refs s.pins s.ident s.dirty
  log : LogOps.Inv s.log
  pinned : Pinned s.log s.dirty
  reads : ∀ r ∈ s.reads, r.Ok

/-- The invariant after a step that changes one buffer, field by field. -/
theorem Inv.of_buf {s s' : St} {i : ℕ} {c : Buf} (hbuf : s'.buf = update s.buf i c)
    (hcycle : ∃ l, Cycle s'.links nbuf l ∧ ∀ i, i ∈ l ↔ i < nbuf)
    (huse : Use s'.pc (update s.owner i c.owner) s'.refs (update s.ident i c.ident)
      (update s.valid i c.valid))
    (hcontent : Content (update s.ident i c.ident) (update s.valid i c.valid)
      (update s.data i c.data) s'.dirty s'.latest)
    (hcounted : Counted (update s.refcnt i c.refcnt) s'.refs s'.pins (update s.ident i c.ident)
      s'.dirty)
    (hlog : LogOps.Inv s'.log) (hpinned : Pinned s'.log s'.dirty)
    (hreads : ∀ r ∈ s'.reads, r.Ok) : Inv s' := by
  have hfield {β : Type} (π : Buf → β) :
      (fun j => π (s'.buf j)) = update (fun j => π (s.buf j)) i (π c) := by
    rw [hbuf]
    exact comp_update π s.buf i c
  have howner : s'.owner = update s.owner i c.owner := hfield Buf.owner
  have hident : s'.ident = update s.ident i c.ident := hfield Buf.ident
  have hvalid : s'.valid = update s.valid i c.valid := hfield Buf.valid
  have hdata : s'.data = update s.data i c.data := hfield Buf.data
  have hrefcnt : s'.refcnt = update s.refcnt i c.refcnt := hfield Buf.refcnt
  refine ⟨hcycle, ?_, ?_, ?_, hlog, hpinned, hreads⟩
  · rw [howner, hident, hvalid]
    exact huse
  · rw [hident, hvalid, hdata]
    exact hcontent
  · rw [hrefcnt, hident]
    exact hcounted

/-- The same for a buffer that keeps its block. -/
theorem Inv.of_same {s s' : St} {i : ℕ} {c : Buf} (hbuf : s'.buf = update s.buf i c)
    (hid : c.ident = s.ident i) (hcycle : ∃ l, Cycle s'.links nbuf l ∧ ∀ i, i ∈ l ↔ i < nbuf)
    (huse : Use s'.pc (update s.owner i c.owner) s'.refs s.ident (update s.valid i c.valid))
    (hcontent : Content s.ident (update s.valid i c.valid) (update s.data i c.data) s'.dirty
      s'.latest)
    (hcounted : Counted (update s.refcnt i c.refcnt) s'.refs s'.pins s.ident s'.dirty)
    (hlog : LogOps.Inv s'.log) (hpinned : Pinned s'.log s'.dirty)
    (hreads : ∀ r ∈ s'.reads, r.Ok) : Inv s' := by
  have hident : update s.ident i c.ident = s.ident := by
    rw [hid]
    exact update_eq_self i s.ident
  apply Inv.of_buf hbuf hcycle _ _ _ hlog hpinned hreads
  · rw [hident]
    exact huse
  · rw [hident]
    exact hcontent
  · rw [hident]
    exact hcounted

theorem cycle_binit (n : ℕ) (hn : n ≤ nbuf) : Cycle (binitLinks n) nbuf (List.range n).reverse := by
  induction n with
  | zero => exact cycle_nil _ _ _ rfl rfl
  | succ n ih =>
    rw [List.range_succ, List.reverse_append]
    apply (ih (Nat.le_of_succ_le hn)).pushFront
    simp only [List.mem_cons, List.mem_reverse, List.mem_range, lt_irrefl, or_false]
    omega

theorem inv_init (size : ℤ) (disk : ℕ → Data) : Inv (init size disk) where
  cycle := ⟨_, cycle_binit nbuf le_rfl, by simp⟩
  use := by constructor <;> simp [init]
  content := by
    refine ⟨fun _ _ h => absurd rfl h, fun _ h => absurd rfl h, fun h => by cases h⟩
  counted := fun i hi => rfl
  log := LogOps.inv_init size
  pinned := ⟨none, fun _ => rfl, rfl⟩
  reads := by simp [init]

/-! ## §8  What each step keeps -/

section Steps

variable {s : St} {p i d b : ℕ}

/-- What `bget` chooses: the buffer of the block, or one that nobody uses if there is none. -/
inductive Chosen (s : St) (d b : ℕ) : Except Panic (ℕ × Buf) → Prop
  | hit {i : ℕ} (hi : i < nbuf) (hid : (s.buf i).ident = (d, b)) :
      Chosen s d b (.ok (i, { s.buf i with refcnt := (s.buf i).refcnt + 1 }))
  | miss {i : ℕ} (hi : i < nbuf) (hnone : ∀ j < nbuf, (s.buf j).ident ≠ (d, b))
      (h0 : (s.buf i).refcnt = 0) :
      Chosen s d b (.ok (i, { s.buf i with
        dev := d, blockno := b, valid := false, refcnt := 1 }))
  | noBuffers : Chosen s d b (.error .noBuffers)

theorem length_lt {l : List ℕ} (hc : Cycle s.links nbuf l) (hl : ∀ i, i ∈ l ↔ i < nbuf) :
    l.length < nbuf + 1 := by
  have hsub : l ⊆ List.range nbuf := fun i hi => List.mem_range.mpr ((hl i).mp hi)
  have hle := (List.subperm_of_subset (List.nodup_cons.mp hc.nodup).2 hsub).length_le
  rw [List.length_range] at hle
  omega

/-- The section of `bget`, on the list. -/
theorem bget_find {l : List ℕ} (hc : Cycle s.links nbuf l) (hl : ∀ i, i ∈ l ↔ i < nbuf) :
    bget s d b = match l.find? fun i => (s.buf i).ident = (d, b) with
      | some i => .ok (i, { s.buf i with refcnt := (s.buf i).refcnt + 1 })
      | none => match l.reverse.find? fun i => (s.buf i).refcnt = 0 with
        | some i => .ok (i, { s.buf i with dev := d, blockno := b, valid := false, refcnt := 1 })
        | none => .error .noBuffers := by
  rw [bget, hc.scan_next _ (length_lt hc hl), hc.scan_prev _ (length_lt hc hl)]
  cases l.find? _ with
  | some i => rfl
  | none => cases l.reverse.find? _ <;> rfl

/-- A buffer that is in use keeps its block. -/
def Kept (f f' : ℕ → Buf) : Prop := ∀ i < nbuf, 0 < (f i).refcnt → (f' i).ident = (f i).ident

theorem kept_update {f : ℕ → Buf} {c : Buf} (hc : 0 < (f i).refcnt → c.ident = (f i).ident) :
    Kept f (update f i c) :=
  (forall_update_iff f fun j x => j < nbuf → 0 < (f j).refcnt → x.ident = (f j).ident).mpr
    ⟨fun _ => hc, fun _ _ _ _ => rfl⟩

variable (h : Inv s)

include h

theorem bget_chosen (d b : ℕ) : Chosen s d b (bget s d b) := by
  obtain ⟨l, hc, hl⟩ := h.cycle
  rw [bget_find hc hl]
  cases hfind : l.find? fun i => (s.buf i).ident = (d, b) with
  | some i =>
    have hi := (hl i).mp (List.mem_of_find?_eq_some hfind)
    exact .hit hi (by simpa using List.find?_some hfind)
  | none =>
    dsimp only
    cases hlast : l.reverse.find? fun i => (s.buf i).refcnt = 0 with
    | none => exact .noBuffers
    | some i =>
      have hi : i < nbuf := by
        rw [← hl, ← List.mem_reverse]
        exact List.mem_of_find?_eq_some hlast
      refine .miss hi (fun j hj hid => ?_) (by simpa using List.find?_some hlast)
      rw [List.find?_eq_none] at hfind
      exact hfind j ((hl j).mpr hj) (by simpa using hid)

/-- `bget` gives `p` a reference to a buffer that is assigned to the block. -/
theorem Inv.startRead (hp : s.pc p = .out) :
    (d ≠ 0 → Inv (startRead s p d b)) ∧ Kept s.buf (startRead s p d b).buf := by
  unfold BufCache.startRead
  have hchosen := bget_chosen h d b
  generalize bget s d b = r at hchosen
  cases hchosen with
  | noBuffers =>
    exact ⟨fun _ => { h with }, fun _ _ _ => rfl⟩
  | @hit i hi hid =>
    refine ⟨fun hd => ?_, kept_update fun _ => rfl⟩
    refine Inv.of_same (s := s) (by rfl) (by rfl) h.cycle ?_ ?_ ?_ h.log h.pinned h.reads <;>
      try simp only [update_eq_self]
    · exact h.use.get hp hi hd hid (fun _ _ _ => rfl) (fun _ _ _ => rfl)
    · exact h.content
    · exact h.counted.getRef p
  | @miss i hi hnone h0 =>
    refine ⟨fun hd => ?_, kept_update fun hpos => absurd h0 hpos.ne'⟩
    obtain ⟨hunref, -, -, hclean⟩ := h.counted.unused hi h0
    have hother : ∀ q j, (q, j) ∈ s.refs → j ≠ i := by
      rintro q j hmem rfl
      exact hunref q hmem
    have hnew : (d, b) ∉ s.dirty := by
      intro hmem
      obtain ⟨-, j, hj, hid, -⟩ := h.content.cached hmem
      exact hnone j hj hid
    refine Inv.of_buf (s := s) (by rfl) h.cycle ?_ ?_ ?_ h.log h.pinned h.reads <;>
      try simp only [update_eq_self]
    · apply h.use.get hp hi hd (update_self _ _ _)
      · exact fun q j hmem => update_of_ne (hother q j hmem) _ _
      · exact fun q j hmem => update_of_ne (hother q j hmem) _ _
    · exact h.content.recycle hnone hclean
    · exact h.counted.recycle hi h0 p hnew

/-- What a read record says when the buffer is there and valid. -/
theorem readOk (hi : i < nbuf) (hid : s.ident i = (d, b)) (hd : d ≠ 0)
    (hv : (s.buf i).valid = true) {fromDisk : Bool} (hf : fromDisk = true → (d, b) ∉ s.dirty) :
    Read.Ok ⟨d, b, s.buf i, fromDisk, (d, b) ∈ s.dirty, s.latest (d, b)⟩ := by
  refine ⟨hid, hv, fun hdirty => ⟨?_, ?_⟩⟩
  · rw [decide_eq_true_eq] at hdirty
    by_contra hdisk
    rw [Bool.not_eq_false] at hdisk
    exact hf hdisk hdirty
  · have hdev : (s.ident i).1 ≠ 0 := by rw [hid]; exact hd
    have hcur := h.content.current hi hdev hv
    rwa [hid] at hcur

theorem Inv.run {s' : St} (hrun : runStep s p = some s') : Inv s' ∧ Kept s.buf s'.buf := by
  unfold runStep at hrun
  split at hrun
  next => cases hrun
  next d b i hpc =>
    -- `acquiresleep`
    split at hrun <;> cases hrun
    rename_i hfree
    refine ⟨?_, kept_update fun _ => rfl⟩
    refine Inv.of_same (s := s) (by rfl) (by rfl) h.cycle ?_ ?_ ?_ h.log h.pinned h.reads <;>
      try simp only [update_eq_self]
    · exact h.use.lock hpc hfree
    · exact h.content
    · exact h.counted
  next d b i hpc =>
    obtain ⟨ho, hid, hd⟩ := h.use.filling hpc
    have hi := h.use.lt (h.use.owned ho)
    split at hrun <;> cases hrun <;> refine ⟨?_, fun _ _ _ => rfl⟩
    next hv =>
      refine ⟨h.cycle, h.use.done hpc hv fun _ _ => rfl, h.content, h.counted, h.log, h.pinned, ?_⟩
      intro r hr
      rcases List.mem_append.mp hr with hr | hr
      · exact h.reads r hr
      · rw [List.mem_singleton.mp hr]
        exact readOk h hi hid hd hv (by simp)
    next hv =>
      have huse := h.use.miss hpc (Bool.not_eq_true _ ▸ hv)
      exact { h with use := huse }
  next d b i hpc =>
    cases hrun
    obtain ⟨ho, hid, hd⟩ := h.use.filling hpc
    have hi := h.use.lt (h.use.owned ho)
    -- a block that waits for its installation is never read from the disk
    have hclean : (d, b) ∉ s.dirty := by
      intro hmem
      obtain ⟨-, j, hj, hidj, hv⟩ := h.content.cached hmem
      have hdev : (s.ident j).1 ≠ 0 := by rw [hidj]; exact hd
      have hji := h.content.unique hj hi hdev (hidj.trans hid.symm)
      rw [hji, h.use.missed hpc] at hv
      cases hv
    refine ⟨?_, kept_update fun _ => rfl⟩
    refine Inv.of_same (s := s) (by rfl) (by rfl) h.cycle ?_ ?_ ?_ h.log h.pinned ?_ <;>
      try simp only [update_eq_self]
    · exact h.use.done hpc (update_self _ _ _) fun j hj => update_of_ne hj _ _
    · exact h.content.put hi (fun _ => rfl) _
    · exact h.counted
    · intro r hr
      rcases List.mem_append.mp hr with hr | hr
      · exact h.reads r hr
      · rw [List.mem_singleton.mp hr]
        refine ⟨?_, ?_, fun hdirty => absurd (of_decide_eq_true hdirty) hclean⟩
        · simp only [fill, setBuf, update_self]
          exact hid
        · simp only [fill, setBuf, update_self]
  next i hpc =>
    cases hrun
    obtain ⟨hmem, -⟩ := h.use.releasing hpc
    have hi := h.use.lt hmem
    have hcycle : ∃ l, Cycle (if ((setBuf s i { s.buf i with refcnt := (s.buf i).refcnt - 1 }).buf
        i).refcnt = 0 then pushFront (unlink s.links i) nbuf i else s.links) nbuf l ∧
        ∀ j, j ∈ l ↔ j < nbuf := by
      obtain ⟨l, hc, hl⟩ := h.cycle
      split
      · refine ⟨_, hc.moveToFront ((hl i).mpr hi), fun j => ?_⟩
        by_cases hji : j = i
        · simp [hji, hi]
        · rw [List.mem_cons, List.mem_erase_of_ne hji, hl j]
          simp [hji]
      · exact ⟨l, hc, hl⟩
    refine ⟨?_, kept_update fun _ => rfl⟩
    refine Inv.of_same (s := s) (by rfl) (by rfl) hcycle ?_ ?_ ?_ h.log h.pinned h.reads <;>
      try simp only [update_eq_self]
    · exact h.use.drop hpc
    · exact h.content
    · exact h.counted.dropRef hmem

/-- Somebody else than `i`'s holder cannot be at its block. -/
theorem Inv.unique_of_dev (hi : i < nbuf) (hd : (s.ident i).1 ≠ 0) :
    ∀ j < nbuf, s.ident j = s.ident i → j = i :=
  fun _ hj heq => (h.content.unique hi hj hd heq.symm).symm

theorem Inv.store (hold : Holding s p i) (x : Data) : Inv (store s i x) := by
  have hi := h.use.lt (h.use.owned hold.2)
  refine Inv.of_same (s := s) (by rfl) (by rfl) h.cycle ?_ ?_ ?_ h.log h.pinned h.reads <;>
    try simp only [update_eq_self]
  · exact h.use
  · have hput := h.content.put hi id x
    rwa [update_eq_self] at hput
  · exact h.counted

theorem Inv.brelse (hpc : s.pc p = .out) (ho : (s.buf i).owner = some p) :
    Inv (goto (setBuf s i { s.buf i with owner := none }) p (.releasing i)) := by
  refine Inv.of_same (s := s) (by rfl) (by rfl) h.cycle ?_ ?_ ?_ h.log h.pinned h.reads <;>
    try simp only [update_eq_self]
  · exact h.use.unlock hpc ho
  · exact h.content
  · exact h.counted

/-- Only the count of a buffer changes. -/
theorem Inv.of_refcnt {s' : St} {n : ℕ}
    (hbuf : s'.buf = update s.buf i { s.buf i with refcnt := n })
    (hlinks : s'.links = s.links) (hpc : s'.pc = s.pc) (hrefs : s'.refs = s.refs)
    (hlatest : s'.latest = s.latest) (hreads : s'.reads = s.reads)
    (hcontent : Content s.ident s.valid s.data s'.dirty s.latest)
    (hcounted : Counted (update s.refcnt i n) s.refs s'.pins s.ident s'.dirty)
    (hlog : LogOps.Inv s'.log) (hpinned : Pinned s'.log s'.dirty) : Inv s' := by
  apply Inv.of_same hbuf rfl
  · rw [hlinks]
    exact h.cycle
  · simp only [update_eq_self, hpc, hrefs]
    exact h.use
  · simp only [update_eq_self, hlatest]
    exact hcontent
  · rw [hrefs]
    exact hcounted
  · exact hlog
  · exact hpinned
  · rw [hreads]
    exact h.reads

/-- `log_write` by the holder of a buffer of the log's device. -/
theorem Inv.logWrite (hold : Holding s p i) (hdev : (s.buf i).dev = rootdev)
    {log : LogOps.St} (hstep : LogOps.step s.log (.logWrite p (s.buf i).blockno) = some log) :
    Inv (logWrite s i log) := by
  have hi := h.use.lt (h.use.owned hold.2)
  have hlog := LogOps.inv_step _ _ _ h.log hstep
  have hid : s.ident i = (rootdev, (s.buf i).blockno) := Prod.ext hdev rfl
  have hvalid : s.valid i = true := by
    apply h.use.ready hold.2
    intro m d b hq
    rw [hold.1] at hq
    cases hq
  have hd : (s.ident i).1 ≠ 0 := by
    rw [hid]
    exact Nat.one_ne_zero
  obtain ⟨hpan, hcase⟩ := LogOps.step_case hstep
  unfold BufCache.logWrite
  cases hcase with
  | write hpc _ _ =>
    obtain ⟨hiff, hpinned⟩ := h.pinned.write h.log hpc (s.buf i).blockno
      (.write p (s.buf i).blockno :: s.log.trace)
    rw [← hid] at hiff hpinned
    rw [if_neg (by simp [hpan])]
    by_cases hmem : (s.buf i).blockno ∈ s.log.lh
    · simp only [if_pos hmem, if_pos (hiff.mpr hmem)] at hpinned hlog ⊢
      exact { h with log := hlog, pinned := hpinned }
    · have hnew : s.ident i ∉ s.dirty := fun hd => hmem (hiff.mp hd)
      simp only [if_neg hmem, if_neg hnew] at hpinned hlog ⊢
      refine h.of_refcnt (by rfl) rfl rfl rfl rfl rfl ?_ ?_ hlog hpinned
      · exact h.content.written hi (by rw [hid]) hvalid
      · exact h.counted.written (h.unique_of_dev hi hd) hnew
  | writeTooBig | writeOutside =>
    exact { h with log := hlog }

/-- `install_trans` unpins the block it has just written. -/
theorem Inv.install (hold : Holding s p i) (hdev : (s.buf i).dev = rootdev)
    (hat : installing s.log p = some (s.buf i).blockno) {log : LogOps.St}
    (hstep : LogOps.step s.log (.run p) = some log) :
    Inv { subRef s i with log := log, dirty := s.dirty.erase (s.buf i).ident } := by
  have hi := h.use.lt (h.use.owned hold.2)
  have hlog := LogOps.inv_step _ _ _ h.log hstep
  have hid : s.ident i = (rootdev, (s.buf i).blockno) := Prod.ext hdev rfl
  have hd : (s.ident i).1 ≠ 0 := by
    rw [hid]
    exact Nat.one_ne_zero
  unfold installing at hat
  split at hat
  next k hk =>
    obtain ⟨hlen, -⟩ := List.getElem?_eq_some_iff.mp hat
    obtain ⟨hpan, -⟩ := LogOps.step_case hstep
    simp only [LogOps.step, hpan, Option.isSome_none, Bool.false_eq_true, if_false, hk,
      LogOps.commitStep, if_pos hlen, Option.some.injEq] at hstep
    subst hstep
    obtain ⟨hmem, hpinned⟩ := h.pinned.unpin hk hat
    rw [← hid] at hmem hpinned
    refine h.of_refcnt (by rfl) rfl rfl rfl rfl rfl ?_ ?_ hlog hpinned
    · exact h.content.installed _
    · exact h.counted.installed (h.pinned.nodup h.log) (h.unique_of_dev hi hd) hmem
  next => cases hat

theorem Inv.log_step {s' : St} {a : LogOps.Act} (hstep : logStep s a = some s') :
    Inv s' ∧ Kept s.buf s'.buf := by
  have hmap : ∀ {log}, LogOps.step s.log a = some log → (∀ p b, a ≠ .logWrite p b) →
      (∀ p, a = .run p → installing s.log p = none) →
      Inv { s with log := log } ∧ Kept s.buf s.buf := by
    intro log hlog hw hi
    exact ⟨{ h with
      log := LogOps.inv_step _ _ _ h.log hlog
      pinned := pinned_log h.pinned h.log hlog hw hi }, fun _ _ _ => rfl⟩
  unfold logStep at hstep
  cases a with
  | logWrite p b => cases hstep
  | run p =>
    dsimp only at hstep
    split at hstep
    · cases hstep
    · rename_i hin
      obtain ⟨log, hlog, rfl⟩ := Option.map_eq_some_iff.mp hstep
      apply hmap hlog (by simp)
      rintro q ⟨⟩
      simpa using hin
  | endOp p =>
    obtain ⟨log, hlog, rfl⟩ := Option.map_eq_some_iff.mp hstep
    exact hmap hlog (by simp) (by simp)

end Steps

/-! ## §9  One process -/

section Alone

/-- What `Fs.Bio` has of a buffer. -/
def Buf.seq (c : Buf) : Bio.Buf := ⟨c.valid, c.dev, c.blockno, c.owner.isSome, c.refcnt, c.data⟩

/-- The cache of `Fs.Bio`, with the buffers in the order `l`. -/
def St.seq (s : St) (l : List ℕ) (writes : List (ℕ × Data)) : Bio.St :=
  ⟨fun i => (s.buf i).seq, l, s.disk, writes⟩

variable {s : St} {l : List ℕ} {w : List (ℕ × Data)} {p i d b : ℕ}

theorem seq_setBuf (c : Buf) : (setBuf s i c).seq l w = Bio.setBuf (s.seq l w) i c.seq :=
  congrArg (Bio.St.mk · l s.disk w) (comp_update Buf.seq s.buf i c)

/-- `bget` of one process is the section and then `acquiresleep`. -/
theorem seq_bget (hc : Cycle s.links nbuf l) (hl : ∀ i, i ∈ l ↔ i < nbuf) :
    Bio.bget d b (s.seq l w) =
      match bget s d b with
      | .ok (i, c) => (do Bio.acquiresleep i; return i) ((setBuf s i c).seq l w)
      | .error _ => .error .noBuffers := by
  have hfind : (l.find? fun i => (s.buf i).ident = (d, b)) =
      (s.seq l w).lru.find? fun i =>
        ((s.seq l w).buf i).dev = d ∧ ((s.seq l w).buf i).blockno = b :=
    congrArg (List.find? · l) (funext fun i => decide_eq_decide.mpr Prod.mk_inj)
  have hlast : (l.reverse.find? fun i => (s.buf i).refcnt = 0) =
      (s.seq l w).lru.reverse.find? fun i => ((s.seq l w).buf i).refcnt = 0 := rfl
  rw [bget_find hc hl, hfind, hlast, Bio.bget, Wp.bind_run rfl]
  cases (s.seq l w).lru.find? _ with
  | some i => exact (Wp.bind_run rfl).trans (congrArg _ (seq_setBuf _).symm)
  | none =>
    cases (s.seq l w).lru.reverse.find? _ with
    | none => rfl
    | some i => exact (Wp.bind_run rfl).trans (congrArg _ (seq_setBuf _).symm)

/-- `brelse` of one process is `releasesleep` and then the section. -/
theorem seq_brelse {s' : St} (hs' : s' = dropRef (setBuf s i { s.buf i with owner := none }) p i)
    (hc : Cycle s.links nbuf l) (hi : i ∈ l) (ho : (s.buf i).owner = some p) :
    ∃ l', Cycle s'.links nbuf l' ∧ l'.Perm l ∧
      Bio.brelse i (s.seq l w) = .ok ((), s'.seq l' w) := by
  have hlinks : s'.links =
      if (s.buf i).refcnt - 1 = 0 then pushFront (unlink s.links i) nbuf i else s.links := by
    simp [hs', dropRef, setBuf]
  have hseq : ∀ l', s'.seq l' w = Bio.setBuf (s.seq l' w) i
      { (s.buf i).seq with locked := false, refcnt := (s.buf i).refcnt - 1 } := by
    intro l'
    have hbuf : s'.buf =
        update s.buf i { s.buf i with owner := none, refcnt := (s.buf i).refcnt - 1 } := by
      simp [hs', dropRef, goto, setBuf]
    rw [St.seq, hbuf, hs']
    exact congrArg (Bio.St.mk · l' s.disk w) (comp_update Buf.seq s.buf i _)
  have hlocked : ((s.seq l w).buf i).locked = true := by simp [St.seq, Buf.seq, ho]
  obtain ⟨_, _, hrun, rfl⟩ := Wp.exists_of_wp (Bio.brelse_spec hlocked)
  rw [hrun, Bio.release]
  by_cases hzero : (s.buf i).refcnt - 1 = 0
  · refine ⟨i :: l.erase i, ?_, (List.perm_cons_erase hi).symm, ?_⟩
    · rw [hlinks, if_pos hzero]
      exact hc.moveToFront hi
    · rw [hseq]
      simp [hzero, St.seq, Buf.seq, Bio.setBuf]
  · refine ⟨l, ?_, .refl l, ?_⟩
    · rw [hlinks, if_neg hzero]
      exact hc
    · rw [hseq]
      simp [hzero, St.seq, Buf.seq]

end Alone

/-! ## §10  Coherence -/

/-- What the users of the cache owe: no block of device 0 (whose blocks all unused
buffers are assigned to), `bunpin` only after `bpin` by the same user, and in the log only
blocks of the device that `install_trans` will unpin them on. -/
def Balanced (s : St) : Act → Prop
  | .bread _ dev _ => dev ≠ 0
  | .bunpin p i => (p, i) ∈ s.pins
  | .logWrite _ i => (s.buf i).dev = rootdev
  | _ => True

theorem Inv.step {s s' : St} {a : Act} (h : Inv s) (hstep : step s a = some s') :
    (Balanced s a → Inv s') ∧ Kept s.buf s'.buf := by
  unfold BufCache.step at hstep
  split at hstep
  · cases hstep
  cases a with
  | bread p d b =>
    dsimp only at hstep
    split at hstep <;> cases hstep
    exact h.startRead ‹_›
  | run p =>
    obtain ⟨hinv, hkept⟩ := h.run hstep
    exact ⟨fun _ => hinv, hkept⟩
  | store p i x =>
    dsimp only at hstep
    split at hstep <;> cases hstep
    exact ⟨fun _ => h.store ‹_› x, kept_update fun _ => rfl⟩
  | bwrite p i =>
    dsimp only at hstep
    split at hstep
    · cases hstep
    split at hstep <;> cases hstep <;>
      exact ⟨fun _ => { h with }, fun _ _ _ => rfl⟩
  | brelse p i =>
    dsimp only at hstep
    split at hstep
    · cases hstep
    rename_i hpc
    split at hstep <;> cases hstep
    · exact ⟨fun _ => h.brelse (not_not.mp hpc) ‹_›, kept_update fun _ => rfl⟩
    · exact ⟨fun _ => { h with }, fun _ _ _ => rfl⟩
  | bpin p i =>
    dsimp only at hstep
    split at hstep <;> cases hstep
    exact ⟨fun _ => h.of_refcnt (by rfl) rfl rfl rfl rfl rfl h.content (h.counted.pin p) h.log
      h.pinned, kept_update fun _ => rfl⟩
  | bunpin p i =>
    dsimp only at hstep
    split at hstep <;> cases hstep
    exact ⟨fun ha => h.of_refcnt (by rfl) rfl rfl rfl rfl rfl h.content (h.counted.unpin ha) h.log
      h.pinned, kept_update fun _ => rfl⟩
  | logWrite p i =>
    dsimp only at hstep
    split at hstep
    · obtain ⟨log, hlog, rfl⟩ := Option.map_eq_some_iff.mp hstep
      refine ⟨fun ha => h.logWrite ‹_› ha hlog, ?_⟩
      unfold BufCache.logWrite
      split
      · exact fun _ _ _ => rfl
      dsimp only
      split
      · exact fun _ _ _ => rfl
      · exact kept_update fun _ => rfl
    · cases hstep
  | install p i =>
    dsimp only at hstep
    split at hstep
    · rename_i hcond
      obtain ⟨log, hlog, rfl⟩ := Option.map_eq_some_iff.mp hstep
      exact ⟨fun _ => h.install hcond.1 hcond.2.1 hcond.2.2 hlog, kept_update fun _ => rfl⟩
    · cases hstep
  | log a =>
    obtain ⟨hinv, hkept⟩ := h.log_step hstep
    exact ⟨fun _ => hinv, hkept⟩

/-- A step assigns another block only to a buffer whose `refcnt` is 0. -/
def KeepsBlocks (s : St) : Prop :=
  ∀ a s', step s a = some s' → ∀ i < nbuf, 0 < (s.buf i).refcnt →
    (s'.buf i).ident = (s.buf i).ident

structure Coherent (s : St) : Prop where
  unique : ∀ i < nbuf, ∀ j < nbuf, (s.buf i).dev ≠ 0 → (s.buf i).dev = (s.buf j).dev →
    (s.buf i).blockno = (s.buf j).blockno → i = j
  /-- the list runs through the head and each buffer exactly once, both ways -/
  cycle : ∃ l, Cycle s.links nbuf l ∧ l.Perm (List.range nbuf)
  keeps : KeepsBlocks s
  reads : ∀ r ∈ s.reads, r.Ok

theorem Inv.coherent {s : St} (h : Inv s) : Coherent s := by
  constructor
  · intro i hi j hj hdev hd hb
    exact h.content.unique hi hj hdev (Prod.ext hd hb)
  · obtain ⟨l, hc, hl⟩ := h.cycle
    refine ⟨l, hc, ?_⟩
    rw [List.perm_ext_iff_of_nodup (List.nodup_cons.mp hc.nodup).2 List.nodup_range]
    intro i
    rw [hl, List.mem_range]
  · exact fun _ _ hstep => (h.step hstep).2
  · exact h.reads

/-- In every interleaving of processes that use the cache in a balanced way. -/
theorem coherent_run (size : ℤ) (disk : ℕ → Data) (as : List Act)
    (has : Steps step Balanced (init size disk) as) : Along step Coherent (init size disk) as :=
  along_of_steps (fun _ h => h.coherent) (fun _ _ _ h ha hs => (h.step hs).1 ha)
    (inv_init size disk) has

def checkBalanced (s : St) : Act → Bool
  | .bread _ dev _ => dev ≠ 0
  | .bunpin p i => (p, i) ∈ s.pins
  | .logWrite _ i => (s.buf i).dev = rootdev
  | _ => true

theorem balanced_of_check (s : St) (a : Act) (h : checkBalanced s a = true) : Balanced s a := by
  cases a <;> simp_all [checkBalanced, Balanced]

/-- Process 1 log_writes block 40 and releases it; process 2 reads it before the commit. -/
theorem coherent_readBack :
    Along step Coherent (init 30 fun _ => Bytes.zero)
      [.log (.run 1), .log (.run 1), .bread 1 1 40, .run 1, .run 1, .run 1,
        .store 1 0 (fun _ => 7), .logWrite 1 0, .brelse 1 0, .run 1, .bread 2 1 40,
        .run 2, .run 2] :=
  coherent_run _ _ _ (steps_of_check balanced_of_check (by decide +kernel))

end RiscvBm.BufCache

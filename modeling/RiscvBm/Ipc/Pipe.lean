import RiscvBm.Lib.Ring
import RiscvBm.Lib.Transition

/-!
# Pipes (`kernel/pipe.c`)

A pipe is a page of bytes and two counters that only ever grow, modulo `2 ^ 32`. A writer
that finds the pipe full gives up `pi->lock` in the middle of its loop and a reader that finds
it empty gives it up before its loop, so the atomic steps are the sections between two
points where the lock is dropped. Any number of processes take such steps in any order.

The state carries two histories, of the bytes taken from writers and of those handed to
readers. The ring holds the difference (`fifo_run`). A reader moves on in the ring before it
copies the byte to user space, so a byte that cannot be stored there is lost (§5).
-/

namespace RiscvBm.Ipc

open Transition RiscvBm.Ring Function

/-! ## §1  `struct pipe` and the sections of `pipewrite` and `piperead` -/

def pipesize : ℕ := 2 ^ 12

structure Pipe where
  data : ℕ → UInt8
  /-- number of bytes read -/
  nread : BitVec 32
  /-- number of bytes written -/
  nwrite : BitVec 32
  readopen : Bool
  writeopen : Bool

/-- `pipealloc`: the page comes from `get_free_page` with whatever it held. -/
def pipealloc (data : ℕ → UInt8) : Pipe where
  data := data
  nread := 0
  nwrite := 0
  readopen := true
  writeopen := true

/-- `pi->data[pi->nwrite++ % PIPESIZE] = ch`. -/
def Pipe.put (pi : Pipe) (ch : UInt8) : Pipe :=
  { pi with data := update pi.data (slot pipesize pi.nwrite) ch, nwrite := pi.nwrite + 1 }

/-- `ch = pi->data[pi->nread++ % PIPESIZE]`. -/
def Pipe.take (pi : Pipe) : UInt8 × Pipe :=
  (pi.data (slot pipesize pi.nread), { pi with nread := pi.nread + 1 })

def Pipe.full (pi : Pipe) : Bool := pi.nwrite == pi.nread + BitVec.ofNat 32 pipesize

def Pipe.empty (pi : Pipe) : Bool := pi.nread == pi.nwrite

/-- How a section ends: the call returns, or it drops the lock and waits at index `i`. -/
inductive Outcome where
  | ret (r : ℤ)
  | wait (i : ℕ)

/-- What a section leaves: the pipe, the bytes it moved and how it ended. -/
structure Section where
  pipe : Pipe
  bytes : List UInt8
  outcome : Outcome

def Section.cons (ch : UInt8) (r : Section) : Section := { r with bytes := ch :: r.bytes }

/-- The loop of `pipewrite` at index `i` with `k = n - i` bytes to go. The user's buffer is
`src`; it is `none` where `spcae_data_copy_in` fails. -/
def writeLoop (src : ℕ → Option UInt8) : ℕ → ℕ → Pipe → Section
  | 0, i, pi => ⟨pi, [], .ret i⟩
  | k + 1, i, pi =>
    -- nobody can read: the bytes written so far are not reported
    if !pi.readopen then ⟨pi, [], .ret (-1)⟩
    else if pi.full then ⟨pi, [], .wait i⟩
    else
      match src i with
      | none => ⟨pi, [], .ret i⟩
      | some ch => (writeLoop src k (i + 1) (pi.put ch)).cons ch

/-- `pipewrite` from index `i`, entered with the lock just taken. -/
def pipewrite (pi : Pipe) (src : ℕ → Option UInt8) (n : ℤ) (i : ℕ) : Section :=
  writeLoop src (n.toNat - i) i pi

/-- The loop of `piperead`. `dst i` says whether `space_data_copy_out` succeeds at
`addr + i`; the counter has moved on when it fails. -/
def readLoop (dst : ℕ → Bool) : ℕ → ℕ → Pipe → Section
  | 0, i, pi => ⟨pi, [], .ret i⟩
  | k + 1, i, pi =>
    if pi.empty then ⟨pi, [], .ret i⟩
    else if dst i then (readLoop dst k (i + 1) pi.take.2).cons pi.take.1
    else ⟨pi.take.2, [], .ret i⟩

/-- `piperead`, entered with the lock just taken. -/
def piperead (pi : Pipe) (dst : ℕ → Bool) (n : ℤ) : Section :=
  if pi.empty && pi.writeopen then ⟨pi, [], .wait 0⟩
  else readLoop dst n.toNat 0 pi

def pipeclose (pi : Pipe) (writable : Bool) : Pipe :=
  if writable then { pi with writeopen := false } else { pi with readopen := false }

/-- `pipeclose` has freed the pipe. -/
def Pipe.freed (pi : Pipe) : Bool := !pi.readopen && !pi.writeopen

/-! ## §2  Processes at the pipe -/

/-- Where a process is: out of the pipe code, with the last value returned, or waiting
without the lock. -/
inductive Pc where
  | out (r : ℤ)
  | writing (src : ℕ → Option UInt8) (n : ℤ) (i : ℕ)
  | reading (dst : ℕ → Bool) (n : ℤ)

structure St where
  pipe : Pipe
  pc : ℕ → Pc
  /-- bytes accepted from writers, in order -/
  accepted : List UInt8
  /-- bytes handed to readers, in order -/
  delivered : List UInt8

def init (data : ℕ → UInt8) : St where
  pipe := pipealloc data
  pc := fun _ => .out 0
  accepted := []
  delivered := []

inductive Act where
  | write (p : ℕ) (src : ℕ → Option UInt8) (n : ℤ)
  | read (p : ℕ) (dst : ℕ → Bool) (n : ℤ)
  /-- `p` comes back from `wait_event_interruptible` and takes the lock again -/
  | resume (p : ℕ)
  | close (writable : Bool)

def writeSection (s : St) (p : ℕ) (src : ℕ → Option UInt8) (n : ℤ) (i : ℕ) : St :=
  let r := pipewrite s.pipe src n i
  let pc : Pc := match r.outcome with
    | .ret v => .out v
    | .wait j => .writing src n j
  { s with pipe := r.pipe, pc := update s.pc p pc, accepted := s.accepted ++ r.bytes }

def readSection (s : St) (p : ℕ) (dst : ℕ → Bool) (n : ℤ) : St :=
  let r := piperead s.pipe dst n
  let pc : Pc := match r.outcome with
    | .ret v => .out v
    | .wait _ => .reading dst n
  { s with pipe := r.pipe, pc := update s.pc p pc, delivered := s.delivered ++ r.bytes }

/-- One section. Nothing is assumed about when a wait ends or which descriptors a
process has, except that a pipe freed by `pipeclose` is not used any more. -/
def step (s : St) (a : Act) : Option St :=
  if s.pipe.freed then none
  else
    match a with
    | .close writable => some { s with pipe := pipeclose s.pipe writable }
    | .write p src n =>
      match s.pc p with
      | .out _ => some (writeSection s p src n 0)
      | _ => none
    | .read p dst n =>
      match s.pc p with
      | .out _ => some (readSection s p dst n)
      | _ => none
    | .resume p =>
      match s.pc p with
      | .out _ => none
      | .writing src n i => some (writeSection s p src n i)
      | .reading dst n => some (readSection s p dst n)

theorem step_cases {s s' : St} {a : Act} (h : step s a = some s') :
    (∃ writable, s' = { s with pipe := pipeclose s.pipe writable }) ∨
    (∃ p src n i, s' = writeSection s p src n i) ∨
    (∃ p dst n, (a = .read p dst n ∨ s.pc p = .reading dst n) ∧ s' = readSection s p dst n) := by
  unfold step at h
  split at h
  · cases h
  cases a with
  | close writable =>
    cases h
    exact Or.inl ⟨writable, rfl⟩
  | write p src n =>
    dsimp only at h
    split at h <;> cases h
    exact Or.inr (Or.inl ⟨p, src, n, 0, rfl⟩)
  | read p dst n =>
    dsimp only at h
    split at h <;> cases h
    exact Or.inr (Or.inr ⟨p, dst, n, Or.inl rfl, rfl⟩)
  | resume p =>
    dsimp only at h
    split at h
    next => cases h
    next src n i _ =>
      cases h
      exact Or.inr (Or.inl ⟨p, src, n, i, rfl⟩)
    next dst n hpc =>
      cases h
      exact Or.inr (Or.inr ⟨p, dst, n, Or.inr hpc, rfl⟩)

/-! ## §3  The ring as a queue -/

/-- The counters have room for the ring, so it may wrap with them. -/
theorem pipesize_fits : Fits pipesize 32 where
  dvd := by decide
  lt := by decide

/-- The pipe contains the queue `q`. -/
def Pipe.Has (pi : Pipe) (q : List UInt8) : Prop :=
  Holds pipesize pi.data pi.nread pi.nwrite q

variable {pi : Pipe} {q : List UInt8}

theorem Pipe.Has.put (h : pi.Has q) (hfull : pi.full = false) (ch : UInt8) :
    (pi.put ch).Has (q ++ [ch]) := by
  have hne : q.length ≠ pipesize := by
    intro hlen
    rw [Pipe.full, (h.full_iff pipesize_fits).mpr hlen, beq_self_eq_true] at hfull
    cases hfull
  exact h.push pipesize_fits (lt_of_le_of_ne h.le hne) ch

theorem Pipe.Has.take (h : pi.Has q) (hempty : pi.empty = false) :
    ∃ q', q = pi.take.1 :: q' ∧ pi.take.2.Has q' := by
  cases q with
  | nil =>
    rw [Pipe.empty, h.empty_iff.mpr rfl, beq_self_eq_true] at hempty
    cases hempty
  | cons x q' => exact ⟨q', by rw [Pipe.take, h.head], h.pop⟩

theorem writeLoop_spec (src : ℕ → Option UInt8) (k i : ℕ) (h : pi.Has q) :
    (writeLoop src k i pi).pipe.Has (q ++ (writeLoop src k i pi).bytes) := by
  -- along the recursion of the loop: only the last branch changes the ring
  fun_induction writeLoop src k i pi generalizing q with
  | case1 => rwa [List.append_nil]
  | case2 => rwa [List.append_nil]
  | case3 => rwa [List.append_nil]
  | case4 => rwa [List.append_nil]
  | case5 k i pi _ hfull ch _ ih =>
    have hput := h.put (Bool.not_eq_true _ ▸ hfull) ch
    have hrest := ih hput
    rwa [List.append_assoc] at hrest

/-- What the reader's loop takes from the ring is stored in the buffer, except for the byte that
goes to an address which is not mapped. -/
theorem readLoop_spec (dst : ℕ → Bool) (k i : ℕ) (h : pi.Has q) :
    ∃ lost q', q = (readLoop dst k i pi).bytes ++ (lost ++ q') ∧
      (readLoop dst k i pi).pipe.Has q' ∧
      (readLoop dst k i pi).outcome = .ret (i + (readLoop dst k i pi).bytes.length : ℕ) ∧
      (lost = [] ↔ ∀ j < k, j < q.length → dst (i + j) = true) := by
  fun_induction readLoop dst k i pi generalizing q with
  | case1 => exact ⟨[], q, rfl, h, rfl, fun _ j hj => absurd hj (Nat.not_lt_zero j), fun _ => rfl⟩
  | case2 k i pi hempty =>
    obtain rfl := h.empty_iff.mp (beq_iff_eq.mp hempty)
    exact ⟨[], [], rfl, h, rfl, fun _ j _ hj => absurd hj (Nat.not_lt_zero j), fun _ => rfl⟩
  | case3 k i pi hempty hdst ih =>
    obtain ⟨q₁, rfl, h₁⟩ := h.take (Bool.not_eq_true _ ▸ hempty)
    obtain ⟨lost, q', rfl, h', hret, hlost⟩ := ih h₁
    refine ⟨lost, q', rfl, h', ?_, hlost.trans ⟨fun hall j hj hlt => ?_, fun hall j hj hlt => ?_⟩⟩
    · rw [Section.cons, List.length_cons, ← Nat.add_assoc, Nat.add_right_comm]
      exact hret
    · cases j with
      | zero => exact hdst
      | succ j =>
        rw [← Nat.add_assoc, Nat.add_right_comm]
        exact hall j (Nat.lt_of_succ_lt_succ hj) (Nat.lt_of_succ_lt_succ hlt)
    · rw [Nat.add_right_comm]
      exact hall (j + 1) (Nat.succ_lt_succ hj) (Nat.succ_lt_succ hlt)
  | case4 k i pi hempty hfail =>
    obtain ⟨q₁, rfl, h₁⟩ := h.take (Bool.not_eq_true _ ▸ hempty)
    refine ⟨[pi.take.1], q₁, rfl, h₁, rfl, ⟨fun hnil => absurd hnil (List.cons_ne_nil _ _),
      fun hall => ?_⟩⟩
    exact absurd (hall 0 (Nat.succ_pos k) (Nat.succ_pos _)) hfail

theorem piperead_spec (dst : ℕ → Bool) (n : ℤ) (hdst : ∀ j : ℕ, j < n → dst j = true)
    (h : pi.Has q) :
    ∃ q', q = (piperead pi dst n).bytes ++ q' ∧ (piperead pi dst n).pipe.Has q' := by
  unfold piperead
  split
  · exact ⟨q, rfl, h⟩
  · obtain ⟨lost, q', hq, h', -, hlost⟩ := readLoop_spec dst n.toNat 0 h
    rw [hlost.mpr fun j hj _ => hdst (0 + j) (by omega)] at hq
    exact ⟨q', hq, h'⟩

theorem pipeclose_has (h : pi.Has q) (writable : Bool) : (pipeclose pi writable).Has q := by
  cases writable <;> exact h

/-! ## §4  First in, first out -/

/-- The channel law: at most `PIPESIZE` bytes are between the counters, and these are
what has been accepted and not yet delivered, in order. -/
def Fifo (s : St) : Prop :=
  (s.pipe.nwrite - s.pipe.nread).toNat ≤ pipesize ∧
    s.accepted =
      s.delivered ++ contents pipesize s.pipe.data s.pipe.nread s.pipe.nwrite

/-- The reader's buffer is mapped. -/
def Act.DstMapped : Act → Prop
  | .read _ dst n => ∀ j : ℕ, j < n → dst j = true
  | _ => True

structure Inv (s : St) : Prop where
  queue : ∃ q, s.pipe.Has q ∧ s.accepted = s.delivered ++ q
  /-- the buffers of waiting readers are mapped -/
  mapped : ∀ p dst n, s.pc p = .reading dst n → ∀ j : ℕ, j < n → dst j = true

theorem Inv.fifo {s : St} (h : Inv s) : Fifo s := by
  obtain ⟨q, hq, heq⟩ := h.queue
  have hlen := hq.le
  rw [hq.length] at hlen
  rw [hq.eq_contents] at heq
  exact ⟨hlen, heq⟩

theorem inv_init (data : ℕ → UInt8) : Inv (init data) where
  queue := ⟨[], holds_nil pipesize data 0, rfl⟩
  mapped := by
    intro p dst n h
    cases h

theorem inv_writeSection {s : St} (h : Inv s) (p : ℕ) (src : ℕ → Option UInt8) (n : ℤ) (i : ℕ) :
    Inv (writeSection s p src n i) := by
  obtain ⟨q, hq, heq⟩ := h.queue
  constructor
  · refine ⟨_, writeLoop_spec src (n.toNat - i) i hq, ?_⟩
    show s.accepted ++ (pipewrite s.pipe src n i).bytes = s.delivered ++ _
    rw [heq, List.append_assoc]
    rfl
  · intro p' dst m hpc
    by_cases hp : p' = p
    · -- a writer does not become a reader
      rw [writeSection, hp] at hpc
      simp only [update_self] at hpc
      split at hpc <;> cases hpc
    · rw [writeSection] at hpc
      simp only [update_of_ne hp] at hpc
      exact h.mapped p' dst m hpc

theorem inv_readSection {s : St} (h : Inv s) (p : ℕ) (dst : ℕ → Bool) (n : ℤ)
    (hdst : ∀ j : ℕ, j < n → dst j = true) : Inv (readSection s p dst n) := by
  obtain ⟨q, hq, heq⟩ := h.queue
  obtain ⟨q', rfl, hq'⟩ := piperead_spec dst n hdst hq
  constructor
  · refine ⟨q', hq', ?_⟩
    show s.accepted = s.delivered ++ (piperead s.pipe dst n).bytes ++ q'
    rw [heq, List.append_assoc]
  · intro p' dst' m hpc
    by_cases hp : p' = p
    · rw [readSection, hp] at hpc
      simp only [update_self] at hpc
      split at hpc <;> cases hpc
      exact hdst
    · rw [readSection] at hpc
      simp only [update_of_ne hp] at hpc
      exact h.mapped p' dst' m hpc

theorem inv_step {s s' : St} {a : Act} (h : Inv s) (ha : a.DstMapped)
    (hstep : step s a = some s') : Inv s' := by
  obtain ⟨writable, rfl⟩ | ⟨p, src, n, i, rfl⟩ | ⟨p, dst, n, hfrom, rfl⟩ := step_cases hstep
  · obtain ⟨q, hq, heq⟩ := h.queue
    exact ⟨⟨q, pipeclose_has hq writable, heq⟩, h.mapped⟩
  · exact inv_writeSection h p src n i
  · apply inv_readSection h p dst n
    rcases hfrom with rfl | hpc
    · exact ha
    · exact h.mapped p dst n hpc

/-- In every interleaving of the sections of any number of writers and readers, the bytes
delivered followed by the bytes in the ring are the bytes accepted. -/
theorem fifo_run (data : ℕ → UInt8) (as : List Act) (has : ∀ a ∈ as, a.DstMapped) :
    Along step Fifo (init data) as :=
  along_of_steps (fun _ h => h.fifo) (fun _ _ _ h ha hs => inv_step h ha hs)
    (inv_init data) (steps_of_forall _ has)

/-- A reader waits for a writer of three bytes and takes two of them. -/
theorem fifo_waitingReader :
    Along step Fifo (init fun _ => 0)
      [.read 1 (fun _ => true) 2, .write 2 (fun i => some (UInt8.ofNat i)) 3, .resume 1] :=
  fifo_run _ _ (by simp [Act.DstMapped])

/-! ## §5  Buffers that are not mapped -/

/-- What a read takes from the ring is what it stores at the start of the buffer, and it returns
the number of these bytes. A call that waits takes nothing. -/
def ReadsExactly (q : List UInt8) (r : Section) : Prop :=
  ∃ q', r.pipe.Has q' ∧ q = r.bytes ++ q' ∧
    (r.outcome = .ret r.bytes.length ∨ r.outcome = .wait 0 ∧ r.bytes = [])

/-- **A read loses nothing exactly if all addresses that it comes to are mapped**: the counter
moves on before the byte is copied. -/
theorem readsExactly_iff (pi : Pipe) (q : List UInt8) (h : pi.Has q) (dst : ℕ → Bool) (n : ℤ) :
    ReadsExactly q (piperead pi dst n) ↔ ∀ j : ℕ, j < n → j < q.length → dst j = true := by
  unfold piperead
  split
  next hwait =>
    have hnil := h.empty_iff.mp (beq_iff_eq.mp (Bool.and_elim_left hwait))
    constructor
    · intro _ j _ hj
      rw [hnil] at hj
      exact absurd hj (Nat.not_lt_zero j)
    · exact fun _ => ⟨q, h, rfl, Or.inr ⟨rfl, rfl⟩⟩
  next =>
    obtain ⟨lost, q', hq, h', hret, hlost⟩ := readLoop_spec dst n.toNat 0 h
    have hall : lost = [] ↔ ∀ j : ℕ, j < n → j < q.length → dst j = true := by
      refine hlost.trans ⟨fun hall j hj hlt => ?_, fun hall j hj hlt => ?_⟩
      · rw [← Nat.zero_add j]
        exact hall j (by omega) hlt
      · rw [Nat.zero_add]
        exact hall j (by omega) hlt
    rw [← hall]
    constructor
    · -- the ring after the call has one content only
      rintro ⟨q₁, h₁, hq₁, -⟩
      rw [hq, h₁.eq_contents, ← h'.eq_contents] at hq₁
      exact List.self_eq_append_left.mp (List.append_cancel_left hq₁).symm
    · rintro rfl
      refine ⟨q', h', hq, Or.inl ?_⟩
      rw [hret, Nat.zero_add]

/-- A pipe with three bytes. -/
def threeBytes : Pipe := ((pipealloc fun _ => 0).put 1 |>.put 2).put 3

theorem threeBytes_has : threeBytes.Has [1, 2, 3] := by
  have h : (pipealloc fun _ => 0).Has [] := holds_nil pipesize _ 0
  exact ((h.put rfl 1).put rfl 2).put rfl 3

theorem readsExactly_iff_threeBytes :
    ReadsExactly [1, 2, 3] (piperead threeBytes (fun j => j < 2) 2) ↔
      ∀ j : ℕ, j < (2 : ℤ) → j < [1, 2, 3].length → (fun j => decide (j < 2)) j = true :=
  readsExactly_iff threeBytes [1, 2, 3] threeBytes_has _ 2

/-- The second byte cannot be stored: it is gone, and the call returns 1. -/
theorem not_readsExactly_unmapped :
    ¬ ReadsExactly [1, 2, 3] (piperead threeBytes (fun j => j == 0) 3) := by
  rintro ⟨q', h', hq, -⟩
  have hlen := h'.length
  obtain rfl : [2, 3] = q' := (List.cons.inj hq).2
  exact absurd hlen (by decide)

end RiscvBm.Ipc

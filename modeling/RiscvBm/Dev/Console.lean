import RiscvBm.Lib.Ring
import RiscvBm.Lib.Transition

/-!
# The console's line buffer (`kernel/console.c`)

`consoleintr` takes one character at a time: it is appended to the line being edited,
or takes the last one back, or ends the line. `consoleread` consumes finished lines.
Both work on one ring of `INPUT_BUF` characters with three free-running 32-bit indices
`r`, `w`, `e`. Both hold `cons.lock`; a reader that finds the ring empty gives it up and
waits, so a call of `consoleread` is a series of steps with others in between.

Over this lies the line discipline itself: the line being edited is a list, a finished
line is appended to everything committed before, and readers take characters from the
front. `Inv` ties the ring to these lists: from `r` to `e` it holds what is not yet read,
and then the line being edited, which begins at `w`.
-/

namespace RiscvBm.Console

open Transition RiscvBm.Ring Function

/-! ## §1  The ring -/

def inputBuf : ℕ := 128

def ctrlD : UInt8 := 4
def ctrlH : UInt8 := 8
def newline : UInt8 := 10
def carriageReturn : UInt8 := 13
def delete : UInt8 := 127

/-- `struct console`, and `console_wait_condition`. -/
structure Cons where
  buf : ℕ → UInt8
  r : BitVec 32
  w : BitVec 32
  e : BitVec 32
  cond : Bool

def consoleintr (k : Cons) (c : UInt8) : Cons :=
  if c = ctrlH ∨ c = delete then
    if k.e ≠ k.w then { k with e := k.e - 1 } else k
  else if c ≠ 0 ∧ (k.e - k.r).toNat < inputBuf then
    let c := if c = carriageReturn then newline else c
    let k := { k with buf := update k.buf (slot inputBuf k.e) c, e := k.e + 1 }
    if c = newline ∨ c = ctrlD ∨ k.e = k.r + 128 then { k with w := k.e, cond := true } else k
  else k

/-- What one stretch of `consoleread` under the lock comes to. -/
structure Stretch where
  cons : Cons
  /-- the characters copied out -/
  out : List UInt8
  /-- how many are still wanted -/
  n : ℕ
  /-- a control-D was taken as end of file -/
  eof : Bool
  /-- the ring was empty: the call waits -/
  blocked : Bool

/-- All that a stretch takes from the ring. -/
def Stretch.taken (o : Stretch) : List UInt8 := o.out ++ if o.eof then [ctrlD] else []

/-- The loop of `consoleread`, up to the next wait. The buffer of the caller is mapped, so
`space_data_copy_out` succeeds. -/
def readLoop (target : ℕ) : ℕ → Cons → Stretch
  | 0, k => ⟨k, [], 0, false, false⟩
  | n + 1, k =>
    if k.r = k.w then ⟨k, [], n + 1, false, true⟩
    else
      let c := k.buf (slot inputBuf k.r)
      let k := { k with r := k.r + 1 }
      if c = ctrlD then
        -- in the middle of a read it is left for the next call
        if n + 1 < target then ⟨{ k with r := k.r - 1 }, [], n + 1, false, false⟩
        else ⟨k, [], n + 1, true, false⟩
      else if c = newline then ⟨k, [c], n, false, false⟩
      else
        let rest := readLoop target n k
        { rest with out := c :: rest.out }

/-! ## §2  Interrupts and readers -/

/-- A call of `consoleread` that waits: what it wanted, what it still wants, and what it
got. -/
structure Call where
  target : ℕ
  n : ℕ
  got : List UInt8
deriving DecidableEq, Repr

structure Sys where
  cons : Cons
  calls : ℕ → Option Call
  /-- history: the line being edited -/
  pending : List UInt8
  /-- history: the characters of all finished lines -/
  committed : List UInt8
  /-- history: the characters taken by readers, a control-D as end of file included -/
  taken : List UInt8
  /-- history: finished calls: the caller, the value returned and the bytes copied out -/
  returned : List (ℕ × ℕ × List UInt8)

/-- What a character does to the line being edited and to the finished ones. -/
def typeChar (s : Sys) (c : UInt8) : List UInt8 × List UInt8 :=
  if c = ctrlH ∨ c = delete then (s.pending.dropLast, s.committed)
  else if c ≠ 0 ∧ s.committed.length + s.pending.length < s.taken.length + inputBuf then
    let c := if c = carriageReturn then newline else c
    let line := s.pending ++ [c]
    if c = newline ∨ c = ctrlD ∨
        s.committed.length + line.length = s.taken.length + inputBuf then
      ([], s.committed ++ line)
    else (line, s.committed)
  else (s.pending, s.committed)

def intr (s : Sys) (c : UInt8) : Sys :=
  { s with
    cons := consoleintr s.cons c
    pending := (typeChar s c).1
    committed := (typeChar s c).2 }

/-- A stretch of the call `c` of process `i`. -/
def stretch (s : Sys) (i : ℕ) (c : Call) : Sys :=
  let o := readLoop c.target c.n s.cons
  let s := { s with taken := s.taken ++ o.taken }
  if o.blocked then
    { s with cons := o.cons, calls := update s.calls i (some ⟨c.target, o.n, c.got ++ o.out⟩) }
  else
    { s with
      cons := { o.cons with cond := false }
      calls := update s.calls i none
      returned := s.returned ++ [(i, c.target - o.n, c.got ++ o.out)] }

inductive Act where
  | intr (c : UInt8)
  | read (i : ℕ) (n : ℤ)      -- process `i` calls `consoleread`
  | resume (i : ℕ)            -- the waiting call of `i` gets the lock again
deriving DecidableEq, Repr

/-- A waiting call may go on at any time: another reader may have emptied the ring between
the wake-up and the lock. -/
def step (s : Sys) : Act → Option Sys
  | .intr c => some (intr s c)
  | .read i n =>
    match s.calls i with
    | some _ => none
    | none => some (stretch s i ⟨n.toNat, n.toNat, []⟩)
  | .resume i =>
    match s.calls i with
    | some c => some (stretch s i c)
    | none => none

def boot : Sys := ⟨⟨fun _ => 0, 0, 0, 0, false⟩, fun _ => none, [], [], [], []⟩

/-! ## §3  The ring holds what is not yet read -/

/-- The characters `unread` and then those of the line being edited. -/
structure Buffer (k : Cons) (unread pending : List UInt8) : Prop where
  holds : Holds inputBuf k.buf k.r k.e (unread ++ pending)
  w : k.w = k.r + BitVec.ofNat 32 unread.length

structure Inv (s : Sys) : Prop where
  buffer : ∃ unread, s.committed = s.taken ++ unread ∧ Buffer s.cons unread s.pending
  calls : ∀ i c, s.calls i = some c → c.got.length + c.n = c.target ∧ ctrlD ∉ c.got
  returned : ∀ x ∈ s.returned, x.2.1 = x.2.2.length ∧ ctrlD ∉ x.2.2

variable {k : Cons} {n : ℕ} {unread pending : List UInt8} {s s' : Sys}

theorem fits : Fits inputBuf 32 := ⟨⟨2 ^ 25, rfl⟩, by decide⟩

section

variable (h : Buffer k unread pending)

include h

theorem Buffer.front : Holds inputBuf k.buf k.r k.w unread := by
  rw [h.w]
  exact h.holds.left

theorem Buffer.line : Holds inputBuf k.buf k.w k.e pending := by
  rw [h.w]
  exact h.holds.right

/-! ## §4  Typing -/

/-- The last character of the line is taken back, if there is one. -/
theorem Buffer.backspace :
    Buffer (if k.e ≠ k.w then { k with e := k.e - 1 } else k) unread pending.dropLast := by
  have hempty : k.e = k.w ↔ pending = [] := eq_comm.trans h.line.empty_iff
  by_cases hpend : pending = []
  · rw [if_neg (not_not.mpr (hempty.mpr hpend)), hpend]
    rwa [hpend] at h
  · rw [if_pos (mt hempty.mp hpend)]
    refine ⟨Holds.erase (x := pending.getLast hpend) ?_, h.w⟩
    rw [List.append_assoc, List.dropLast_append_getLast hpend]
    exact h.holds

/-- A character is put behind the line. -/
theorem Buffer.push (hroom : (unread ++ pending).length < inputBuf) (c : UInt8) :
    Buffer { k with buf := update k.buf (slot inputBuf k.e) c, e := k.e + 1 } unread
      (pending ++ [c]) := by
  refine ⟨?_, h.w⟩
  rw [← List.append_assoc]
  exact h.holds.push fits hroom c

/-- The line is finished. -/
theorem Buffer.commit : Buffer { k with w := k.e, cond := true } (unread ++ pending) [] := by
  refine ⟨?_, h.holds.wr_eq⟩
  rw [List.append_nil]
  exact h.holds

end

/-- The code and the line discipline do the same with a character. -/
theorem Inv.typeChar (h : Inv s) (c : UInt8) :
    ∃ unread, (typeChar s c).2 = s.taken ++ unread ∧
      Buffer (consoleintr s.cons c) unread (Console.typeChar s c).1 := by
  obtain ⟨unread, hcommitted, hbuf⟩ := h.buffer
  have hspace : (c ≠ 0 ∧ (s.cons.e - s.cons.r).toNat < inputBuf) ↔
      c ≠ 0 ∧ s.committed.length + s.pending.length < s.taken.length + inputBuf := by
    rw [← hbuf.holds.length, hcommitted, List.length_append, List.length_append]
    exact and_congr_right fun _ => by omega
  rw [consoleintr, Console.typeChar]
  by_cases hback : c = ctrlH ∨ c = delete
  · rw [if_pos hback, if_pos hback]
    exact ⟨unread, hcommitted, hbuf.backspace⟩
  rw [if_neg hback, if_neg hback]
  by_cases hput : c ≠ 0 ∧ (s.cons.e - s.cons.r).toNat < inputBuf
  · rw [if_pos hput, if_pos (hspace.mp hput)]
    dsimp only
    generalize (if c = carriageReturn then newline else c) = d
    have hpush := hbuf.push (hbuf.holds.length.trans_lt hput.2) d
    have hends : (d = newline ∨ d = ctrlD ∨ s.cons.e + 1 = s.cons.r + 128) ↔
        (d = newline ∨ d = ctrlD ∨
          s.committed.length + (s.pending ++ [d]).length = s.taken.length + inputBuf) := by
      refine or_congr_right (or_congr_right ((hpush.holds.full_iff fits).trans ?_))
      rw [hcommitted, List.length_append, List.length_append, List.length_append]
      omega
    by_cases hend : d = newline ∨ d = ctrlD ∨ s.cons.e + 1 = s.cons.r + 128
    · rw [if_pos hend, if_pos (hends.mp hend), hcommitted, List.append_assoc]
      exact ⟨_, rfl, hpush.commit⟩
    · rw [if_neg hend, if_neg (mt hends.mpr hend)]
      exact ⟨unread, hcommitted, hpush⟩
  · rw [if_neg hput, if_neg (mt hspace.mpr hput)]
    exact ⟨unread, hcommitted, hbuf⟩

theorem Inv.intr (h : Inv s) (c : UInt8) : Inv (intr s c) :=
  ⟨h.typeChar c, h.calls, h.returned⟩

/-! ## §5  Reading -/

theorem Buffer.next {c : UInt8} (h : Buffer k (c :: unread) pending) :
    Buffer { k with r := k.r + 1 } unread pending := by
  refine ⟨h.holds.pop, h.w.trans ?_⟩
  rw [List.length_cons, Nat.add_comm, BitVec.ofNat_add, ← BitVec.add_assoc]
  rfl

/-- What a stretch takes is the front of the unread characters. -/
structure Reads (o : Stretch) (n : ℕ) (unread pending : List UInt8) : Prop where
  front : ∃ rest, unread = o.taken ++ rest ∧ Buffer o.cons rest pending
  count : o.out.length + o.n = n
  plain : ctrlD ∉ o.out

theorem readLoop_spec (target n : ℕ) (h : Buffer k unread pending) :
    Reads (readLoop target n k) n unread pending := by
  induction n generalizing k unread with
  | zero => exact ⟨⟨unread, rfl, h⟩, rfl, List.not_mem_nil⟩
  | succ n ih =>
    rw [readLoop]
    by_cases hempty : k.r = k.w
    · rw [if_pos hempty]
      exact ⟨⟨unread, rfl, h⟩, Nat.zero_add _, List.not_mem_nil⟩
    rw [if_neg hempty]
    dsimp only
    cases unread with
    | nil => exact absurd (h.front.empty_iff.mpr rfl) hempty
    | cons c unread =>
      rw [h.front.head]
      by_cases hd : c = ctrlD
      · rw [if_pos hd]
        by_cases hmid : n + 1 < target
        · -- a control-D after other characters stays
          have hback : ({ k with r := k.r + 1 - 1 } : Cons) = k := by
            rw [BitVec.add_sub_cancel]
          rw [if_pos hmid, hback]
          exact ⟨⟨_, rfl, h⟩, Nat.zero_add _, List.not_mem_nil⟩
        · rw [if_neg hmid]
          exact ⟨⟨unread, by rw [hd]; rfl, h.next⟩, Nat.zero_add _, List.not_mem_nil⟩
      rw [if_neg hd]
      by_cases hnl : c = newline
      · rw [if_pos hnl]
        exact ⟨⟨unread, rfl, h.next⟩, Nat.add_comm 1 n,
          fun hmem => hd (List.mem_singleton.mp hmem).symm⟩
      · rw [if_neg hnl]
        obtain ⟨⟨rest, hfront, hbuf⟩, hcount, hplain⟩ := ih h.next
        refine ⟨⟨rest, congrArg (List.cons c) hfront, hbuf⟩, ?_, ?_⟩
        · show (_ :: _ : List UInt8).length + (readLoop target n { k with r := k.r + 1 }).n = n + 1
          rw [List.length_cons]
          omega
        · intro hmem
          rcases List.mem_cons.mp hmem with heq | hmem
          · exact hd heq.symm
          · exact hplain hmem

theorem Inv.stretch (h : Inv s) (i : ℕ) {c : Call} (hc : c.got.length + c.n = c.target)
    (hgot : ctrlD ∉ c.got) : Inv (stretch s i c) := by
  obtain ⟨unread, hcommitted, hbuf⟩ := h.buffer
  obtain ⟨⟨rest, hfront, hrest⟩, hcount, hplain⟩ := readLoop_spec c.target c.n hbuf
  have htaken : s.committed = s.taken ++ (readLoop c.target c.n s.cons).taken ++ rest := by
    rw [hcommitted, List.append_assoc]
    exact congrArg (s.taken ++ ·) hfront
  have hbytes : ctrlD ∉ c.got ++ (readLoop c.target c.n s.cons).out := by
    intro hmem
    rcases List.mem_append.mp hmem with hmem | hmem
    · exact hgot hmem
    · exact hplain hmem
  rw [Console.stretch]
  dsimp only
  split_ifs with hblocked
  · refine ⟨⟨rest, htaken, hrest⟩, fun j d hd => ?_, h.returned⟩
    have hd : update s.calls i _ j = some d := hd
    by_cases hj : j = i
    · grind
    · rw [update_of_ne hj] at hd
      exact h.calls j d hd
  · refine ⟨⟨rest, htaken, hrest.holds, hrest.w⟩, fun j d hd => ?_, fun x hx => ?_⟩
    · cases h
      grind [update_apply]
    · cases h
      grind [update_apply]

/-! ## §6  Runs -/

theorem inv_boot : Inv boot where
  buffer := ⟨[], rfl, holds_nil .., rfl⟩
  calls i c hc := by cases hc
  returned x hx := by cases hx

theorem inv_step (s : Sys) (a : Act) (s' : Sys) (h : Inv s) (hstep : step s a = some s') :
    Inv s' := by
  cases a with
  | intr c =>
    cases hstep
    exact h.intr c
  | read i n =>
    rw [step] at hstep
    split at hstep
    · cases hstep
    · cases hstep
      exact h.stretch i (Nat.zero_add _) List.not_mem_nil
  | resume i =>
    rw [step] at hstep
    split at hstep
    · rename_i c hc
      cases hstep
      obtain ⟨hcount, hgot⟩ := h.calls i c hc
      exact h.stretch i hcount hgot
    · cases hstep

/-- The indices of the ring are in order, and the ring holds exactly the committed
characters that no reader has taken yet, followed by the line being edited. A call returns
the number of characters it copied out, and a control-D is never one of them. -/
structure Lines (s : Sys) : Prop where
  ordered : (s.cons.w - s.cons.r).toNat ≤ (s.cons.e - s.cons.r).toNat
  bounded : (s.cons.e - s.cons.r).toNat ≤ inputBuf
  unread : s.committed = s.taken ++ contents inputBuf s.cons.buf s.cons.r s.cons.w
  edited : s.pending = contents inputBuf s.cons.buf s.cons.w s.cons.e
  returns : ∀ x ∈ s.returned, x.2.1 = x.2.2.length ∧ ctrlD ∉ x.2.2

theorem Inv.lines (h : Inv s) : Lines s := by
  obtain ⟨unread, hcommitted, hbuf⟩ := h.buffer
  have hall := hbuf.holds.length
  rw [List.length_append] at hall
  refine ⟨?_, ?_, ?_, hbuf.line.eq_contents, h.returned⟩
  · rw [← hbuf.front.length]
    omega
  · rw [← hbuf.holds.length]
    exact hbuf.holds.le
  · rw [← hbuf.front.eq_contents]
    exact hcommitted

/-- **The line buffer.** Whatever is typed and however readers and interrupts interleave,
the indices stay in order and within one lap, no committed character is lost or overwritten
before it is read, and the readers take the committed characters in order, each once. -/
theorem console_lines (as : List Act) : Along step Lines boot as := by
  apply along_of_invariant (fun s h => Inv.lines h) inv_step as inv_boot

end RiscvBm.Console

import RiscvBm.Lib.Ring
import RiscvBm.Lib.Transition

/-!
# The transmitter of the UART (`kernel/uart.c`)

`uartpuc` puts a character into a ring and runs `uartstart`, which sends from the ring while the
device is idle. It holds `uart_tx_lock`, which does not keep interrupts out; `uartintr` runs
`uartstart` without the lock. Nothing is assumed about when interrupts come, when the device is
idle and when a wait ends.
-/

namespace RiscvBm.Uart

open RiscvBm.Ring Transition Function

/-! ## §1  `uartpuc`, `uartstart` and `uartintr` -/

def uartTxBufSize : ℕ := 32

/-- A process in `uartpuc`, or (`none`) the interrupt handler. -/
abbrev Agent := Option ℕ

inductive Pc where
  | out
  | wait (c : UInt8)  -- `wait_event`
  | start             -- at the top of the loop of `uartstart`
  | send (c : UInt8)  -- before `uart_tx_r += 1`
deriving DecidableEq

structure St where
  buf : ℕ → UInt8
  w : BitVec 64
  r : BitVec 64
  lock : Option ℕ
  pc : Agent → Pc
  /-- history: the characters put into the ring -/
  put : List UInt8
  /-- history: the characters given to the device -/
  sent : List UInt8

def init (buf : ℕ → UInt8) : St := ⟨buf, 0, 0, none, fun _ => .out, [], []⟩

/-- `uartpuc` from `acquire` on, up to `uartstart` or `wait_event`. -/
def uartpuc (s : St) (i : ℕ) (c : UInt8) : Option St :=
  if s.lock ≠ none then none
  else if s.w = s.r + BitVec.ofNat 64 uartTxBufSize then
    some { s with pc := update s.pc (some i) (.wait c) }
  else some { s with
    buf := update s.buf (slot uartTxBufSize s.w) c, w := s.w + 1, lock := some i
    pc := update s.pc (some i) .start, put := s.put ++ [c] }

/-- `uartstart` returns; `uartpuc` then gives up the lock. -/
def ret (s : St) : Agent → St
  | none => { s with pc := update s.pc none .out }
  | some i => { s with pc := update s.pc (some i) .out, lock := none }

inductive Act where
  | call (i : ℕ) (c : UInt8)          -- a call of `uartpuc`, or the end of its wait
  | intr
  | run (a : Agent) (idle : Bool)     -- the next step of `uartstart`, with `LSR_TX_IDLE`

def step (s : St) : Act → Option St
  | .call i c =>
    if s.pc (some i) = .out ∨ s.pc (some i) = .wait c then uartpuc s i c else none
  | .intr => if s.pc none = .out then some { s with pc := update s.pc none .start } else none
  | .run a idle =>
    match s.pc a with
    | .start =>
      if s.w = s.r ∨ !idle then some (ret s a)
      else some { s with pc := update s.pc a (.send (s.buf (slot uartTxBufSize s.r))) }
    | .send c =>
      some { s with pc := update s.pc a .start, r := s.r + 1, sent := s.sent ++ [c] }
    | _ => none

/-! ## §2  What is sent -/

@[grind] def Pc.sending : Pc → Bool
  | .send _ => true
  | _ => false

/-- The handler and the process with the lock do not begin a round while the other is in one. -/
def apart (s : St) : Act → Bool
  | .run none _ => s.lock.all fun i => !(s.pc (some i)).sending
  | .run (some _) _ => !(s.pc none).sending
  | _ => true

/-- What was put is what was sent and what is in the ring. -/
def Fifo (s : St) : Prop :=
  ∃ q, Holds uartTxBufSize s.buf s.r s.w q ∧ s.put = s.sent ++ q

structure Inv (s : St) : Prop where
  lock : ∀ i, s.pc (some i) = .start ∨ (s.pc (some i)).sending → s.lock = some i
  single : ∀ a b, (s.pc a).sending → (s.pc b).sending → a = b
  ring : ∃ q, Holds uartTxBufSize s.buf s.r s.w q ∧ s.put = s.sent ++ q ∧
    ∀ a c, s.pc a = .send c → q.head? = some c

variable {s s' : St} {a b : Agent} {act : Act} {i : ℕ} {c : UInt8} {idle : Bool}

theorem Inv.uartpuc (h : Inv s) (hs : uartpuc s i c = some s') : Inv s' := by
  obtain ⟨hlock, hsingle, q, hq, hput, hhead⟩ := h
  unfold Uart.uartpuc at hs
  split_ifs at hs with hfree hfull <;> cases hs
  · refine ⟨?_, ?_, q, hq, hput, ?_⟩ <;> grind
  · have hfits : Fits uartTxBufSize 64 := ⟨by decide, by decide⟩
    have hlt : q.length < uartTxBufSize := lt_of_le_of_ne hq.le (mt (hq.full_iff hfits).mpr hfull)
    refine ⟨?_, ?_, q ++ [c], hq.push hfits hlt c, by simp [hput], ?_⟩ <;> grind

/-- Nobody else is in a round where one begins. -/
theorem Inv.alone (h : Inv s) (hpc : s.pc a = .start) (ha : apart s (.run a idle))
    (hb : (s.pc b).sending) : b = a := by
  match a, b with
  | none, none => rfl
  | none, some j => simp [apart, h.lock j (.inr hb), hb] at ha
  | some _, none => simp [apart, hb] at ha
  | some i, some j => exact (h.lock j (.inr hb)).symm.trans (h.lock i (.inl hpc))

theorem inv_step (h : Inv s) (ha : apart s act) (hs : step s act = some s') : Inv s' := by
  have hinv := h
  obtain ⟨hlock, hsingle, q, hq, hput, hhead⟩ := h
  cases act with
  | call i c =>
    rw [step] at hs
    split_ifs at hs
    exact hinv.uartpuc hs
  | intr =>
    rw [step] at hs
    split_ifs at hs
    cases hs
    refine ⟨?_, ?_, q, hq, hput, ?_⟩ <;> grind
  | run a idle =>
    rw [step] at hs
    split at hs
    case h_1 hpc =>
      split_ifs at hs with hend <;> cases hs
      · cases a <;> refine ⟨?_, ?_, q, hq, hput, ?_⟩ <;> simp only [ret] <;> grind
      · have hne : q ≠ [] := fun hnil => hend (.inl (hq.empty_iff.mpr hnil).symm)
        obtain ⟨x, q, rfl⟩ := List.exists_cons_of_ne_nil hne
        have hhead' := hq.head
        have halone := fun b => hinv.alone (b := b) hpc ha
        refine ⟨?_, ?_, _, hq, hput, ?_⟩ <;> grind
    case h_2 c hpc =>
      cases hs
      obtain ⟨q, rfl⟩ := List.head?_eq_some_iff.mp (hhead a c hpc)
      refine ⟨?_, ?_, q, hq.pop, by simp [hput], ?_⟩ <;> grind
    case h_3 => cases hs

/-- **Characters go out once and in order.** In every run in which no round of `uartstart` begins
during another the device has got the first characters that were put, and the ring the others. -/
theorem fifo_of_apart (buf : ℕ → UInt8) (as : List Act)
    (h : Steps step (fun s a => apart s a) (init buf) as) : Along step Fifo (init buf) as := by
  refine along_of_steps (fun s hs => ?_) (fun s a s' hs ha => inv_step hs ha) ?_ h
  · obtain ⟨q, hq, hput, -⟩ := hs.ring
    exact ⟨q, hq, hput⟩
  · exact ⟨nofun, nofun, [], holds_nil _ _ _, rfl, nofun⟩

/-- The handler sends what a process has put. -/
theorem fifo_intr : Along step Fifo (init fun _ => 0)
    [.call 0 65, .intr, .run none true, .run none true, .run (some 0) true] :=
  fifo_of_apart _ _ (steps_of_check (fun _ _ h => h) (by decide))

/-- An interrupt in the middle of a round sends the character twice. -/
theorem not_fifo_intr : ¬ Along step Fifo (init fun _ => 0) [.call 0 65, .run (some 0) true, .intr,
    .run none true, .run none true, .run (some 0) true] := by
  intro h
  obtain ⟨q, -, hput⟩ := h.last rfl
  simp [init] at hput

end RiscvBm.Uart

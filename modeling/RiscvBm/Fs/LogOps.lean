import Mathlib.Algebra.Order.BigOperators.Group.Finset
import RiscvBm.Lib.Transition
import RiscvBm.Param

/-!
# Concurrent use of the log (`log_begin_op`, `log_write`, `log_end_op`)

The part of `kernel/log.c` that several processes run at once. Every section
protected by `log.lock`, every evaluation of the `wait_event` condition and
every disk write of `commit` is one step; any number of processes interleave.

`groupCommit_atomic` is the group-commit property: one operation's writes all
end up in the header that the next commit puts on disk, and nobody touches the
log meanwhile. `tooBig_iff_room` says when the panic of `log_write` is reached:
`log_begin_op` reserves against `LOGSIZE` but `log_write` stops one block
earlier, because one of the `sb.nlog` blocks is the header.
-/

namespace RiscvBm.LogOps

open Transition Function Finset

/-! ## §1  State -/

/-- Inside `commit()`, called with `log.committing` set and `log.lock` released. -/
inductive CommitPc where
  | enter                -- the test `log.lh.n > 0`
  | writeLog (i : ℕ)     -- `write_log`, block `i` next; after the last one, `write_head`
  | install (i : ℕ)      -- `install_trans(0)`, block `i` next; then `log.lh.n = 0`
  | eraseHead            -- the second `write_head`
  | leave                -- back in `log_end_op`: the section that clears `committing`
deriving DecidableEq, Repr

inductive Pc where
  | idle
  | begin                -- at the head of the loop of `log_begin_op`
  | wait                 -- in `wait_event(log_queue, log_queue_condition == 1)`
  | inOp                 -- between `log_begin_op` and `log_end_op`
  | commit (c : CommitPc)
deriving DecidableEq, Repr

inductive Panic where
  | tooBig               -- "too big a transaction"
  | outsideTrans         -- "log_write outside of trans"
  | committing           -- "log.committing"
deriving DecidableEq, Repr

/-- What has happened, for stating properties of whole operations. -/
inductive Event where
  | begin (p : ℕ)
  | write (p b : ℕ)
  | stop (p : ℕ)
  | head (h : List ℕ)    -- the first `write_head` of a commit, with the header it writes
deriving DecidableEq, Repr

structure St where
  size : ℤ
  outstanding : ℤ
  committing : Bool
  /-- `log.lh.block[0..n)` -/
  lh : List ℕ
  /-- `log_queue_condition` -/
  condition : Bool
  pc : ℕ → Pc
  panicked : Option Panic
  /-- newest first; no function of the source reads it -/
  trace : List Event

def init (size : ℤ) : St where
  size := size
  outstanding := 0
  committing := false
  lh := []
  condition := false
  pc := fun _ => .idle
  panicked := none
  trace := []

inductive Act where
  | run (p : ℕ)          -- the next step of `p` that is not one of the two below
  | logWrite (p b : ℕ)   -- `p` calls `log_write` on a buffer of block `b`
  | endOp (p : ℕ)        -- `p` calls `log_end_op`
deriving DecidableEq, Repr

def goto (s : St) (p : ℕ) (c : Pc) : St := { s with pc := update s.pc p c }

def halt (s : St) (e : Panic) : St := { s with panicked := some e }

/-! ## §2  The steps -/

/-- One round of the loop of `log_begin_op`. -/
def logBeginOp (s : St) (p : ℕ) : St :=
  if s.committing then goto s p .wait
  else if s.lh.length + (s.outstanding + 1) * maxopblocks > logsize then goto s p .wait
  else { goto s p .inOp with
    outstanding := s.outstanding + 1, condition := false, trace := .begin p :: s.trace }

def logWrite (s : St) (p b : ℕ) : St :=
  if logsize ≤ s.lh.length ∨ s.size - 1 ≤ s.lh.length then halt s .tooBig
  else if s.outstanding < 1 then halt s .outsideTrans
  else { s with
    -- the scan for `b` either finds its slot or stops at index `n`
    lh := if b ∈ s.lh then s.lh else s.lh ++ [b]
    trace := .write p b :: s.trace }

def logEndOp (s : St) (p : ℕ) : St :=
  let s' := { s with outstanding := s.outstanding - 1 }
  if s'.committing then halt s' .committing
  else if s'.outstanding = 0 then
    { goto s' p (.commit .enter) with committing := true, trace := .stop p :: s.trace }
  else { goto s' p .idle with condition := true, trace := .stop p :: s.trace }

/-- `commit`, one disk write at a time, and the section of `log_end_op` after it. -/
def commitStep (s : St) (p : ℕ) : CommitPc → St
  | .enter => goto s p (.commit (if 0 < s.lh.length then .writeLog 0 else .leave))
  | .writeLog i =>
    if i < s.lh.length then goto s p (.commit (.writeLog (i + 1)))
    else { goto s p (.commit (.install 0)) with trace := .head s.lh :: s.trace }
  | .install i =>
    if i < s.lh.length then goto s p (.commit (.install (i + 1)))
    else { goto s p (.commit .eraseHead) with lh := [] }
  | .eraseHead => goto s p (.commit .leave)
  | .leave => { goto s p .idle with committing := false, condition := true }

def step (s : St) (a : Act) : Option St :=
  if s.panicked.isSome then none
  else match a with
    | .run p =>
      match s.pc p with
      | .idle => some (goto s p .begin)
      | .begin => some (logBeginOp s p)
      | .wait => some (goto s p (if s.condition then .begin else .wait))
      | .inOp => none
      | .commit c => some (commitStep s p c)
    | .logWrite p b => if s.pc p = .inOp then some (logWrite s p b) else none
    | .endOp p => if s.pc p = .inOp then some (logEndOp s p) else none

/-! ## §3  Reading the trace -/

/-- The blocks log_written since the last header went to disk. -/
def pending : List Event → List ℕ
  | [] => []
  | .head _ :: _ => []
  | .write _ b :: t => b :: pending t
  | .begin _ :: t => pending t
  | .stop _ :: t => pending t

/-- The blocks `p` has log_written since its last `log_begin_op`. -/
def opBlocks (p : ℕ) : List Event → List ℕ
  | [] => []
  | .begin q :: t => if q = p then [] else opBlocks p t
  | .write q b :: t => if q = p then b :: opBlocks p t else opBlocks p t
  | .stop _ :: t => opBlocks p t
  | .head _ :: t => opBlocks p t

/-- Every operation lies between two headers, and the first header written
after it names all the blocks it wrote. -/
def OpsAtomic (t : List Event) : Prop :=
  ∀ p t₁ t₂ t₃, t = t₃ ++ .stop p :: (t₂ ++ .begin p :: t₁) →
    .begin p ∉ t₂ → .stop p ∉ t₂ →
    (∀ h, .head h ∉ t₂) ∧
    ∀ u h v, t₃ = v ++ .head h :: u → (∀ h', .head h' ∉ u) →
      ∀ b, .write p b ∈ t₂ → b ∈ h

theorem pending_append : ∀ {t u : List Event}, (∀ h, .head h ∉ t) →
    pending u ⊆ pending (t ++ u)
  | [], _, _ => fun _ h => h
  | e :: t, u, hno => by
    have ih := pending_append (u := u) fun h hh => hno h (List.mem_cons_of_mem _ hh)
    cases e with
    | head h => exact absurd List.mem_cons_self (hno h)
    | write q c => exact fun b hb => List.mem_cons_of_mem _ (ih hb)
    | begin q => exact ih
    | stop q => exact ih

/-- A write that no header follows is pending. -/
theorem mem_pending {t u v : List Event} {p b : ℕ} (hu : ∀ h, .head h ∉ u)
    (ht : ∀ h, .head h ∉ t) (hmem : .write p b ∈ t) : b ∈ pending (u ++ (t ++ v)) := by
  apply pending_append hu
  obtain ⟨t', t'', rfl⟩ := List.append_of_mem hmem
  rw [List.append_assoc]
  apply pending_append fun h hh => ht h (List.mem_append_left _ hh)
  simp [pending]

/-- An operation that has begun and not ended belongs to a process in `P`, and
no header has been written since it began. -/
def OpenOps (t : List Event) (P : ℕ → Prop) : Prop :=
  ∀ p t₁ t₂, t = t₂ ++ .begin p :: t₁ → .stop p ∉ t₂ → P p ∧ ∀ h, .head h ∉ t₂

theorem openOps_cons {t : List Event} {e : Event} {P Q : ℕ → Prop} (ht : OpenOps t P)
    (hkeep : ∀ p, P p → e ≠ .stop p → Q p) (hbegin : ∀ p, e = .begin p → Q p)
    (hhead : ∀ h, e = .head h → ∀ p, ¬ P p) : OpenOps (e :: t) Q := by
  intro p t₁ t₂ heq hstop
  cases t₂ with
  | nil =>
    obtain ⟨rfl, rfl⟩ := List.cons.inj heq
    exact ⟨hbegin p rfl, by simp⟩
  | cons e' t₂ =>
    obtain ⟨rfl, rfl⟩ := List.cons.inj heq
    obtain ⟨hP, hno⟩ := ht p t₁ t₂ rfl fun h => hstop (List.mem_cons_of_mem _ h)
    refine ⟨hkeep p hP ?_, fun h hmem => ?_⟩
    · rintro rfl
      exact hstop List.mem_cons_self
    · rcases List.mem_cons.mp hmem with rfl | hmem'
      · exact hhead h rfl p hP
      · exact hno h hmem'

theorem OpenOps.imp {t : List Event} {P Q : ℕ → Prop} (ht : OpenOps t P) (hPQ : ∀ p, P p → Q p) :
    OpenOps t Q := by
  intro p t₁ t₂ heq hstop
  obtain ⟨hP, hno⟩ := ht p t₁ t₂ heq hstop
  exact ⟨hPQ p hP, hno⟩

theorem opsAtomic_cons {t : List Event} {e : Event} {P : ℕ → Prop} (ht : OpsAtomic t)
    (hopen : OpenOps t P) (hhead : ∀ h, e = .head h → ∀ b ∈ pending t, b ∈ h) :
    OpsAtomic (e :: t) := by
  intro p t₁ t₂ t₃ heq hb hs
  cases t₃ with
  | nil =>
    obtain ⟨rfl, rfl⟩ := List.cons.inj heq
    exact ⟨(hopen p t₁ t₂ rfl hs).2, fun u h v hu => by simp at hu⟩
  | cons e' t₃ =>
    obtain ⟨rfl, rfl⟩ := List.cons.inj heq
    obtain ⟨hno, hnext⟩ := ht p t₁ t₂ t₃ rfl hb hs
    refine ⟨hno, fun u h v hu hnou b hmem => ?_⟩
    cases v with
    | nil =>
      -- the new event is the first header after the operation
      obtain ⟨rfl, rfl⟩ := List.cons.inj hu
      apply hhead h rfl
      have hmid : ∀ h', .head h' ∉ Event.stop p :: t₂ := by
        intro h' hh
        rcases List.mem_cons.mp hh with hh | hh
        · cases hh
        · exact hno h' hh
      exact mem_pending (v := .begin p :: t₁) hnou hmid (List.mem_cons_of_mem _ hmem)
    | cons x v =>
      obtain ⟨rfl, rfl⟩ := List.cons.inj hu
      exact hnext u h v rfl hnou b hmem

/-! ## §4  What a step can do -/

def Pc.isCommit : Pc → Bool
  | .commit _ => true
  | _ => false

/-- Neither in an operation nor in `commit`. -/
def Pc.Outside (c : Pc) : Prop := c ≠ .inOp ∧ c.isCommit = false

/-- The header and the blocks log_written since the last one went to disk, at the point that the
commit in progress has come to. -/
def Phase (lh pend : List ℕ) : Option CommitPc → Prop
  | some (.install _) => pend = []
  | some .eraseHead => lh = [] ∧ pend = []
  | some .leave => lh = [] ∧ pend = []
  | _ => ∀ b, b ∈ lh ↔ b ∈ pend

/-- The blocks of the header that are still to be installed. -/
def left (lh : List ℕ) : Option CommitPc → List ℕ
  | some (.install i) => lh.drop i
  | _ => lh

inductive StepCase (s : St) : Act → St → Prop
  | move {p : ℕ} {c : Pc} (hpc : (s.pc p).Outside) (hc : c.Outside) :
      StepCase s (.run p) (goto s p c)
  | advance {p : ℕ} {c d : CommitPc} (hpc : s.pc p = .commit c)
      (hphase : ∀ pend, Phase s.lh pend (some c) → Phase s.lh pend (some d))
      (hleft : left s.lh (some d) = left s.lh (some c)) :
      StepCase s (.run p) (goto s p (.commit d))
  | installed {p i : ℕ} (hpc : s.pc p = .commit (.install i)) (hi : i < s.lh.length) :
      StepCase s (.run p) (goto s p (.commit (.install (i + 1))))
  | enterOp {p : ℕ} (hpc : s.pc p = .begin) (hc : s.committing = false)
      (hroom : s.lh.length + (s.outstanding + 1) * maxopblocks ≤ logsize) :
      StepCase s (.run p) { goto s p .inOp with
        outstanding := s.outstanding + 1, condition := false, trace := .begin p :: s.trace }
  | write {p b : ℕ} (hpc : s.pc p = .inOp) (hn : s.lh.length < logsize)
      (hsize : s.lh.length < s.size - 1) :
      StepCase s (.logWrite p b) { s with
        lh := if b ∈ s.lh then s.lh else s.lh ++ [b], trace := .write p b :: s.trace }
  | writeTooBig {p b : ℕ} (hpc : s.pc p = .inOp)
      (hfull : logsize ≤ s.lh.length ∨ s.size - 1 ≤ s.lh.length) :
      StepCase s (.logWrite p b) (halt s .tooBig)
  | writeOutside {p b : ℕ} (hpc : s.pc p = .inOp) (hsize : s.lh.length < s.size - 1) :
      StepCase s (.logWrite p b) (halt s .outsideTrans)
  | endPanic {p : ℕ} (hpc : s.pc p = .inOp) (hc : s.committing = true) :
      StepCase s (.endOp p) (halt { s with outstanding := s.outstanding - 1 } .committing)
  | endCommit {p : ℕ} (hpc : s.pc p = .inOp) (hc : s.committing = false)
      (hout : s.outstanding - 1 = 0) :
      StepCase s (.endOp p) { goto s p (.commit .enter) with
        outstanding := s.outstanding - 1, committing := true, trace := .stop p :: s.trace }
  | endIdle {p : ℕ} (hpc : s.pc p = .inOp) (hc : s.committing = false)
      (hout : s.outstanding - 1 ≠ 0) :
      StepCase s (.endOp p) { goto s p .idle with
        outstanding := s.outstanding - 1, condition := true, trace := .stop p :: s.trace }
  | head {p i : ℕ} (hpc : s.pc p = .commit (.writeLog i)) :
      StepCase s (.run p) { goto s p (.commit (.install 0)) with trace := .head s.lh :: s.trace }
  | clear {p i : ℕ} (hpc : s.pc p = .commit (.install i)) (hi : s.lh.length ≤ i) :
      StepCase s (.run p) { goto s p (.commit .eraseHead) with lh := [] }
  | leave {p : ℕ} (hpc : s.pc p = .commit .leave) :
      StepCase s (.run p) { goto s p .idle with committing := false, condition := true }

variable {s s' : St} {p b : ℕ} {c : Pc} {a : Act}

theorem logBeginOp_case (hpc : s.pc p = .begin) :
    StepCase s (.run p) (logBeginOp s p) := by
  have hwait : StepCase s (.run p) (goto s p .wait) :=
    .move (by rw [hpc]; exact ⟨by simp, rfl⟩) ⟨by simp, rfl⟩
  unfold logBeginOp
  split_ifs with hc hroom
  · exact hwait
  · exact hwait
  · exact .enterOp hpc (by simpa using hc) (not_lt.mp hroom)

theorem logWrite_case (hpc : s.pc p = .inOp) :
    StepCase s (.logWrite p b) (logWrite s p b) := by
  unfold logWrite
  split_ifs with hfull hout hmem
  · exact .writeTooBig hpc hfull
  · exact .writeOutside hpc (not_le.mp fun h => hfull (Or.inr h))
  all_goals
    push Not at hfull
    have h := StepCase.write (b := b) hpc hfull.1 hfull.2
    simpa [hmem] using h

theorem logEndOp_case (hpc : s.pc p = .inOp) :
    StepCase s (.endOp p) (logEndOp s p) := by
  simp only [logEndOp]
  split_ifs with hc hout
  · exact .endPanic hpc hc
  · exact .endCommit hpc (by simpa using hc) hout
  · exact .endIdle hpc (by simpa using hc) hout

theorem commitStep_case {c : CommitPc} (hpc : s.pc p = .commit c) :
    StepCase s (.run p) (commitStep s p c) := by
  cases c with
  | enter =>
    simp only [commitStep]
    split_ifs with hn
    · exact .advance hpc (fun _ h => h) rfl
    · have hlh : s.lh = [] := by simpa using hn
      refine .advance hpc (fun pend h => ?_) rfl
      rw [hlh] at h ⊢
      exact ⟨rfl, List.eq_nil_iff_forall_not_mem.mpr fun b hb => List.not_mem_nil ((h b).mpr hb)⟩
  | writeLog i =>
    simp only [commitStep]
    split_ifs with hi
    · exact .advance hpc (fun _ h => h) rfl
    · exact .head hpc
  | install i =>
    simp only [commitStep]
    split_ifs with hi
    · exact .installed hpc hi
    · exact .clear hpc (Nat.le_of_not_lt hi)
  | eraseHead => exact .advance hpc (fun _ h => h) rfl
  | leave => exact .leave hpc

theorem step_case (h : step s a = some s') :
    s.panicked = none ∧ StepCase s a s' := by
  unfold step at h
  by_cases hp : s.panicked.isSome = true
  · rw [if_pos hp] at h
    cases h
  rw [if_neg hp] at h
  refine ⟨by simpa using hp, ?_⟩
  cases a with
  | run p =>
    simp only at h
    cases hpc : s.pc p with
    | idle =>
      rw [hpc] at h
      cases h
      exact .move (by rw [hpc]; exact ⟨by simp, rfl⟩) ⟨by simp, rfl⟩
    | begin =>
      rw [hpc] at h
      cases h
      exact logBeginOp_case hpc
    | wait =>
      rw [hpc] at h
      cases h
      refine .move (by rw [hpc]; exact ⟨by simp, rfl⟩) ?_
      split_ifs <;> exact ⟨by simp, rfl⟩
    | inOp =>
      rw [hpc] at h
      simp at h
    | commit c =>
      rw [hpc] at h
      cases h
      exact commitStep_case hpc
  | logWrite p b =>
    simp only [Option.ite_none_right_eq_some, Option.some.injEq] at h
    obtain ⟨hpc, rfl⟩ := h
    exact logWrite_case hpc
  | endOp p =>
    simp only [Option.ite_none_right_eq_some, Option.some.injEq] at h
    obtain ⟨hpc, rfl⟩ := h
    exact logEndOp_case hpc

/-! ## §5  The invariant -/

/-- The point that the commit in progress has come to. -/
def At (pc : ℕ → Pc) : Option CommitPc → Prop
  | none => ∀ q, (pc q).isCommit = false
  | some c => ∃ p, pc p = .commit c ∧ ∀ q, q ≠ p → (pc q).isCommit = false

section At

variable {pc : ℕ → Pc} {o : Option CommitPc} {d e : CommitPc}

theorem At.of_commit (h : At pc o) (hp : pc p = .commit d) :
    o = some d ∧ ∀ q, q ≠ p → (pc q).isCommit = false := by
  have hcommit : (pc p).isCommit = true := by rw [hp]; rfl
  cases o with
  | none => exact absurd (h p) (by simp [hcommit])
  | some c =>
    obtain ⟨r, hr, honly⟩ := h
    obtain rfl : p = r := by
      by_contra hne
      exact absurd (honly p hne) (by simp [hcommit])
    cases hr.symm.trans hp
    exact ⟨rfl, honly⟩

theorem At.move (h : At pc o) (hp : (pc p).isCommit = false) (hc : c.isCommit = false) :
    At (update pc p c) o := by
  have hsame : ∀ q, (pc q).isCommit = false → (update pc p c q).isCommit = false :=
    (forall_update_iff pc fun q x => (pc q).isCommit = false → x.isCommit = false).mpr
      ⟨fun _ => hc, fun _ _ h => h⟩
  cases o with
  | none => exact fun q => hsame q (h q)
  | some d =>
    obtain ⟨r, hr, honly⟩ := h
    have hrp : r ≠ p := by
      rintro rfl
      rw [hr] at hp
      cases hp
    exact ⟨r, by rw [update_of_ne hrp, hr], fun q hq => hsame q (honly q hq)⟩

theorem at_commit (h : ∀ q, q ≠ p → (pc q).isCommit = false) :
    At (update pc p (.commit d)) (some d) :=
  ⟨p, update_self .., fun q hq => by rw [update_of_ne hq, h q hq]⟩

theorem at_none (h : ∀ q, q ≠ p → (pc q).isCommit = false) (hc : c.isCommit = false) :
    At (update pc p c) none :=
  (forall_update_iff pc fun _ x => x.isCommit = false).mpr ⟨hc, h⟩

end At

structure Inv (s : St) : Prop where
  /-- `log.outstanding` counts the processes inside an operation -/
  active : ∃ F : Finset ℕ, (∀ p, p ∈ F ↔ s.pc p = .inOp) ∧ s.outstanding = F.card
  phase : ∃ o, At s.pc o ∧ s.committing = o.isSome ∧ Phase s.lh (pending s.trace) o
  committing_alone : s.committing = true → s.outstanding = 0
  rest_empty : s.committing = false → s.outstanding = 0 → s.lh = []
  nodup : s.lh.Nodup
  no_panic : s.panicked ≠ some .committing
  open_inOp : OpenOps s.trace fun p => s.pc p = .inOp
  ops : OpsAtomic s.trace

theorem inv_init (size : ℤ) : Inv (init size) where
  active := ⟨∅, by simp [init], by simp [init]⟩
  phase := ⟨none, fun _ => rfl, rfl, fun _ => Iff.rfl⟩
  committing_alone := by simp [init]
  rest_empty := by simp [init]
  nodup := by simp [init]
  no_panic := by simp [init]
  open_inOp := by
    intro p t₁ t₂ heq
    simp [init] at heq
  ops := by
    intro p t₁ t₂ t₃ heq
    simp [init] at heq

theorem goto_inOp (h₁ : s.pc p ≠ .inOp) (h₂ : c ≠ .inOp)
    (q : ℕ) : (goto s p c).pc q = .inOp ↔ s.pc q = .inOp := by
  by_cases hq : q = p
  · subst hq
    simp [goto, h₁, h₂]
  · simp [goto, update_of_ne hq]

theorem insert_inOp {F : Finset ℕ} (hF : ∀ q, q ∈ F ↔ s.pc q = .inOp) (q : ℕ) :
    q ∈ insert p F ↔ (goto s p .inOp).pc q = .inOp := by
  by_cases hq : q = p
  · subst hq
    simp [goto]
  · simp [goto, hF, hq]

theorem erase_inOp {F : Finset ℕ} (hF : ∀ q, q ∈ F ↔ s.pc q = .inOp) (hpc : s.pc p = .inOp)
    (hc : c ≠ .inOp) (hcard : s.outstanding = F.card) :
    (∀ q, q ∈ F.erase p ↔ (goto s p c).pc q = .inOp) ∧ s.outstanding - 1 = (F.erase p).card := by
  have hpF : p ∈ F := (hF p).mpr hpc
  refine ⟨fun q => ?_, ?_⟩
  · by_cases hq : q = p
    · subst hq
      simp [goto, hc]
    · simp [goto, hF, hq]
  · have hpos : 0 < F.card := card_pos.mpr ⟨p, hpF⟩
    rw [card_erase_of_mem hpF]
    omega

/-- The operations are the same. -/
theorem Inv.same_active (hs : Inv s) (hpc : ∀ q, s'.pc q = .inOp ↔ s.pc q = .inOp) :
    ∃ F : Finset ℕ, (∀ q, q ∈ F ↔ s'.pc q = .inOp) ∧ s.outstanding = F.card := by
  obtain ⟨F, hF, hcard⟩ := hs.active
  exact ⟨F, fun q => (hF q).trans (hpc q).symm, hcard⟩

theorem Inv.idle_of_committing (hs : Inv s) (hc : s.committing = true) (p : ℕ) :
    s.pc p ≠ .inOp := by
  obtain ⟨F, hF, hcard⟩ := hs.active
  have h0 : F.card = 0 := by
    have := hs.committing_alone hc
    omega
  intro hp
  have hmem := (hF p).mpr hp
  rw [card_eq_zero.mp h0] at hmem
  simp at hmem

theorem Inv.not_committing (hs : Inv s) (hpc : s.pc p = .inOp) : s.committing = false := by
  by_contra h
  exact hs.idle_of_committing (by simpa using h) p hpc

/-- Without a commit the header has what was log_written. -/
theorem Inv.recorded (hs : Inv s) (hc : s.committing = false) :
    At s.pc none ∧ ∀ b, b ∈ s.lh ↔ b ∈ pending s.trace := by
  obtain ⟨o, hat, ho, hphase⟩ := hs.phase
  rw [ho] at hc
  cases o with
  | none => exact ⟨hat, hphase⟩
  | some c => cases hc

theorem Inv.of_commit {d : CommitPc} (hs : Inv s) (hpc : s.pc p = .commit d) :
    s.committing = true ∧ Phase s.lh (pending s.trace) (some d) ∧
      ∀ q, q ≠ p → (s.pc q).isCommit = false := by
  obtain ⟨o, hat, ho, hphase⟩ := hs.phase
  obtain ⟨rfl, honly⟩ := hat.of_commit hpc
  exact ⟨ho, hphase, honly⟩

/-! ### One lemma for each kind of step -/

theorem inv_move (hs : Inv s) (hpc : (s.pc p).Outside) (hc : c.Outside) : Inv (goto s p c) := by
  have hinOp := goto_inOp hpc.1 hc.1
  obtain ⟨o, hat, hphase⟩ := hs.phase
  exact { hs with
    active := hs.same_active hinOp
    phase := ⟨o, hat.move hpc.2 hc.2, hphase⟩
    open_inOp := hs.open_inOp.imp fun q => (hinOp q).mpr }

theorem inv_advance {d e : CommitPc} (hs : Inv s) (hpc : s.pc p = .commit d)
    (hphase : ∀ pend, Phase s.lh pend (some d) → Phase s.lh pend (some e)) :
    Inv (goto s p (.commit e)) := by
  have hinOp := goto_inOp (s := s) (p := p) (c := .commit e) (by simp [hpc]) (by simp)
  obtain ⟨hc, hold, honly⟩ := hs.of_commit hpc
  exact { hs with
    active := hs.same_active hinOp
    phase := ⟨some e, at_commit honly, hc, hphase _ hold⟩
    open_inOp := hs.open_inOp.imp fun q => (hinOp q).mpr }

theorem inv_enterOp (hs : Inv s) (hpc : s.pc p = .begin)
    (hc : s.committing = false) :
    Inv { goto s p .inOp with
      outstanding := s.outstanding + 1, condition := false, trace := .begin p :: s.trace } := by
  obtain ⟨o, hat, hphase⟩ := hs.phase
  obtain ⟨F, hF, hcard⟩ := hs.active
  have hpF : p ∉ F := by
    rw [hF, hpc]
    simp
  refine { hs with
    active := ⟨insert p F, insert_inOp hF, by simp [hpF, hcard]⟩
    phase := ⟨o, hat.move (by rw [hpc]; rfl) rfl, hphase⟩
    committing_alone := fun h => by simp [goto, hc] at h
    rest_empty := fun _ h => ?_
    open_inOp := ?_
    ops := opsAtomic_cons hs.ops hs.open_inOp (by simp) }
  · have h' : s.outstanding + 1 = 0 := h
    omega
  · refine openOps_cons hs.open_inOp (fun q hq _ => ?_) (fun q hq => ?_) (by simp)
    · by_cases hqp : q = p
      · subst hqp
        simp [goto]
      · simpa [goto, update_of_ne hqp] using hq
    · cases hq
      simp [goto]

/-- `log_write` puts the block into the header, if it is not there. -/
theorem mem_logged {lh : List ℕ} {x : ℕ} :
    x ∈ (if b ∈ lh then lh else lh ++ [b]) ↔ x = b ∨ x ∈ lh := by
  split_ifs with hb
  · constructor
    · exact Or.inr
    · rintro (rfl | h)
      · exact hb
      · exact h
  · simp [or_comm]

theorem inv_write (hs : Inv s) (hpc : s.pc p = .inOp) :
    Inv { s with
      lh := if b ∈ s.lh then s.lh else s.lh ++ [b], trace := .write p b :: s.trace } := by
  have hc := hs.not_committing hpc
  obtain ⟨hat, hrec⟩ := hs.recorded hc
  refine { hs with
    phase := ⟨none, hat, hc, fun x => ?_⟩
    rest_empty := ?_
    nodup := ?_
    open_inOp := openOps_cons hs.open_inOp (fun _ h _ => h) (by simp) (by simp)
    ops := opsAtomic_cons hs.ops hs.open_inOp (by simp) }
  · rw [mem_logged, hrec]
    simp [pending]
  · intro _ hout
    obtain ⟨F, hF, hcard⟩ := hs.active
    have h0 : F.card = 0 := by
      have hout' : s.outstanding = 0 := hout
      omega
    have hp := (hF p).mpr hpc
    rw [card_eq_zero.mp h0] at hp
    simp at hp
  · dsimp only
    split_ifs with hb
    · exact hs.nodup
    · exact List.Nodup.append hs.nodup (List.nodup_singleton b) (by simpa using hb)

/-- What the two ways out of `log_end_op` share: `p` leaves the operation for a
program point `c`. -/
theorem endOp_active (hs : Inv s) (hpc : s.pc p = .inOp)
    (hc : c ≠ .inOp) :
    ∃ F : Finset ℕ, (∀ q, q ∈ F ↔ (goto s p c).pc q = .inOp) ∧
      s.outstanding - 1 = F.card := by
  obtain ⟨F, hF, hcard⟩ := hs.active
  exact ⟨F.erase p, erase_inOp hF hpc hc hcard⟩

theorem endOp_openOps (hs : Inv s) :
    OpenOps (.stop p :: s.trace) fun q => (goto s p c).pc q = .inOp := by
  refine openOps_cons hs.open_inOp (fun q hq hne => ?_) (by simp) (by simp)
  have hqp : q ≠ p := by
    rintro rfl
    exact hne rfl
  simpa [goto, update_of_ne hqp] using hq

theorem inv_endCommit (hs : Inv s) (hpc : s.pc p = .inOp)
    (hc : s.committing = false) (hout : s.outstanding - 1 = 0) :
    Inv { goto s p (.commit .enter) with
      outstanding := s.outstanding - 1, committing := true, trace := .stop p :: s.trace } := by
  obtain ⟨hat, hrec⟩ := hs.recorded hc
  exact { hs with
    active := endOp_active hs hpc (by simp)
    phase := ⟨some .enter, at_commit fun q _ => hat q, rfl, hrec⟩
    committing_alone := fun _ => hout
    rest_empty := fun h => by simp at h
    open_inOp := endOp_openOps hs
    ops := opsAtomic_cons hs.ops hs.open_inOp (by simp) }

theorem inv_endIdle (hs : Inv s) (hpc : s.pc p = .inOp)
    (hc : s.committing = false) (hout : s.outstanding - 1 ≠ 0) :
    Inv { goto s p .idle with
      outstanding := s.outstanding - 1, condition := true, trace := .stop p :: s.trace } := by
  obtain ⟨o, hat, hphase⟩ := hs.phase
  exact { hs with
    active := endOp_active hs hpc (by simp)
    phase := ⟨o, hat.move (by rw [hpc]; rfl) rfl, hphase⟩
    committing_alone := fun h => by simp [goto, hc] at h
    rest_empty := fun _ h => absurd h hout
    open_inOp := endOp_openOps hs
    ops := opsAtomic_cons hs.ops hs.open_inOp (by simp) }

theorem inv_head {i : ℕ} (hs : Inv s) (hpc : s.pc p = .commit (.writeLog i)) :
    Inv { goto s p (.commit (.install 0)) with trace := .head s.lh :: s.trace } := by
  have hinOp := goto_inOp (s := s) (p := p) (c := .commit (.install 0)) (by simp [hpc]) (by simp)
  obtain ⟨hc, hrec, honly⟩ := hs.of_commit hpc
  refine { hs with
    active := hs.same_active hinOp
    phase := ⟨some (.install 0), at_commit honly, hc, rfl⟩
    open_inOp := ?_
    ops := opsAtomic_cons hs.ops hs.open_inOp ?_ }
  · exact openOps_cons hs.open_inOp (fun q hq _ => (hinOp q).mpr hq) (by simp)
      (fun _ _ q => hs.idle_of_committing hc q)
  · intro h hh b hb
    cases hh
    exact (hrec b).mpr hb

theorem inv_clear {i : ℕ} (hs : Inv s) (hpc : s.pc p = .commit (.install i)) :
    Inv { goto s p (.commit .eraseHead) with lh := [] } := by
  have hinOp := goto_inOp (s := s) (p := p) (c := .commit .eraseHead) (by simp [hpc]) (by simp)
  obtain ⟨hc, hpend, honly⟩ := hs.of_commit hpc
  exact { hs with
    active := hs.same_active hinOp
    phase := ⟨some .eraseHead, at_commit honly, hc, rfl, hpend⟩
    rest_empty := fun _ _ => rfl
    nodup := List.nodup_nil
    open_inOp := hs.open_inOp.imp fun q => (hinOp q).mpr }

theorem inv_leave (hs : Inv s) (hpc : s.pc p = .commit .leave) :
    Inv { goto s p .idle with committing := false, condition := true } := by
  have hinOp := goto_inOp (s := s) (p := p) (c := .idle) (by simp [hpc]) (by simp)
  obtain ⟨-, ⟨hlh, hpend⟩, honly⟩ := hs.of_commit hpc
  refine { hs with
    active := hs.same_active hinOp
    phase := ⟨none, at_none honly rfl, rfl, fun b => ?_⟩
    committing_alone := by simp
    rest_empty := fun _ _ => hlh
    open_inOp := hs.open_inOp.imp fun q => (hinOp q).mpr }
  show b ∈ s.lh ↔ b ∈ pending s.trace
  rw [hlh, hpend]

theorem inv_step (s : St) (a : Act) (s' : St) (hs : Inv s) (h : step s a = some s') :
    Inv s' := by
  obtain ⟨-, hcase⟩ := step_case h
  cases hcase with
  | move hpc hc => exact inv_move hs hpc hc
  | advance hpc hphase => exact inv_advance hs hpc hphase
  | installed hpc => exact inv_advance hs hpc fun _ h => h
  | enterOp hpc hc => exact inv_enterOp hs hpc hc
  | write hpc => exact inv_write hs hpc
  | writeTooBig => exact { hs with no_panic := by simp [halt] }
  | writeOutside => exact { hs with no_panic := by simp [halt] }
  | endPanic hpc hc => exact absurd hpc (hs.idle_of_committing hc _)
  | endCommit hpc hc hout => exact inv_endCommit hs hpc hc hout
  | endIdle hpc hc hout => exact inv_endIdle hs hpc hc hout
  | head hpc => exact inv_head hs hpc
  | clear hpc => exact inv_clear hs hpc
  | leave hpc => exact inv_leave hs hpc

theorem inv_run {size : ℤ} {as : List Act}
    (h : runFrom step (init size) as = some s) : Inv s :=
  run_invariant inv_step (inv_init size) h

/-! ## §6  Group commit -/

/-- **Group-commit atomicity.** In every interleaving of any number of
processes: `commit` runs only while `log.outstanding` is 0 and nobody can call
`log_write` meanwhile, the panic of `log_end_op` is unreachable, the header
lists no block twice, and every operation is committed by one header. -/
theorem groupCommit_atomic (size : ℤ) (as : List Act) (s : St)
    (h : runFrom step (init size) as = some s) :
    (∀ p c, s.pc p = .commit c →
      s.outstanding = 0 ∧ ∀ q b, step s (.logWrite q b) = none) ∧
    s.panicked ≠ some .committing ∧ s.lh.Nodup ∧ OpsAtomic s.trace := by
  have hs := inv_run h
  refine ⟨fun p c hpc => ?_, hs.no_panic, hs.nodup, hs.ops⟩
  have hc := (hs.of_commit hpc).1
  refine ⟨hs.committing_alone hc, fun q b => ?_⟩
  unfold step
  by_cases hp : s.panicked.isSome = true
  · rw [if_pos hp]
  · rw [if_neg hp]
    exact if_neg (hs.idle_of_committing hc q)

/-- Two processes share a transaction: `0` writes blocks 40 and 41, `1` writes
41 and 42; `1` ends last and commits. -/
def sharedTrans : List Act :=
  [.run 0, .run 1, .run 0, .run 1, .logWrite 0 40, .logWrite 1 41, .logWrite 0 41, .endOp 0,
    .logWrite 1 42, .endOp 1, .run 1, .run 1, .run 1, .run 1, .run 1]

theorem groupCommit_sharedTrans :
    ∃ s, runFrom step (init logsize) sharedTrans = some s ∧
      s.trace.head? = some (.head [40, 41, 42]) ∧ OpsAtomic s.trace :=
  ⟨_, rfl, rfl, (groupCommit_atomic logsize sharedTrans _ rfl).2.2.2⟩

/-! ## §7  The reservation of `log_begin_op` -/

/-- "too big a transaction" has not been reached. -/
def NotTooBig (s : St) : Prop := s.panicked ≠ some .tooBig

/-- A `log_write` finds fewer than `LOGSIZE - 1` distinct blocks log_written
since the last commit. -/
def Room (s : St) (a : Act) : Prop :=
  ∀ p b, a = .logWrite p b → (pending s.trace).toFinset.card < logsize - 1

/-- The operation in progress has log_written at most `k` distinct blocks, this
call included. -/
def Budget (k : ℕ) (s : St) (a : Act) : Prop :=
  ∀ p b, a = .logWrite p b → (b :: opBlocks p s.trace).toFinset.card ≤ k

theorem step_size (h : step s a = some s') : s'.size = s.size := by
  obtain ⟨-, hcase⟩ := step_case h
  cases hcase <;> rfl

/-- Absorption: `log.lh.n` is the number of distinct blocks log_written. -/
theorem Inv.length_eq (hs : Inv s) (hpc : s.pc p = .inOp) :
    s.lh.length = (pending s.trace).toFinset.card := by
  have hset : s.lh.toFinset = (pending s.trace).toFinset := by
    ext b
    simp only [List.mem_toFinset]
    exact (hs.recorded (hs.not_committing hpc)).2 b
  rw [← hset, List.toFinset_card_of_nodup hs.nodup]

theorem notTooBig_step (hs : NotTooBig s) (h : step s a = some s')
    (hfree : ∀ p b, a = .logWrite p b → s.pc p = .inOp →
      s.lh.length < logsize ∧ s.lh.length < s.size - 1) : NotTooBig s' := by
  obtain ⟨-, hcase⟩ := step_case h
  cases hcase with
  | writeTooBig hpc hfull =>
    obtain ⟨h₁, h₂⟩ := hfree _ _ rfl hpc
    omega
  | writeOutside | endPanic => simp [NotTooBig, halt]
  | move | advance | installed | enterOp | write | endCommit | endIdle | head | clear
  | leave => exact hs

/-- The invariant of the runs that stay below the bound. -/
structure RoomInv (s : St) : Prop extends Inv s where
  size_eq : s.size = logsize
  notTooBig : NotTooBig s

theorem roomInv_init : RoomInv (init logsize) where
  toInv := inv_init logsize
  size_eq := rfl
  notTooBig := by simp [NotTooBig, init]

theorem roomInv_step (s : St) (a : Act) (s' : St) (hs : RoomInv s) (hroom : Room s a)
    (h : step s a = some s') : RoomInv s' where
  toInv := inv_step s a s' hs.toInv h
  size_eq := (step_size h).trans hs.size_eq
  notTooBig := by
    refine notTooBig_step hs.notTooBig h fun p b ha hpc => ?_
    have hcard := hroom p b ha
    rw [← hs.length_eq hpc] at hcard
    have hsize := hs.size_eq
    constructor <;> omega

theorem tooBig_of_no_room (s : St) (a : Act) (s' : St) (hs : RoomInv s) (hroom : ¬ Room s a)
    (h : step s a = some s') : ¬ NotTooBig s' := by
  unfold Room at hroom
  push Not at hroom
  obtain ⟨p, b, rfl, hcard⟩ := hroom
  have hsize := hs.size_eq
  obtain ⟨-, hcase⟩ := step_case h
  cases hcase with
  | write hpc _ hlt =>
    rw [← hs.length_eq hpc] at hcard
    simp only [logsize, maxopblocks] at hcard hsize
    omega
  | writeTooBig => simp [NotTooBig, halt]
  | writeOutside hpc hlt =>
    rw [← hs.length_eq hpc] at hcard
    simp only [logsize, maxopblocks] at hcard hsize
    omega

/-! ### Operations that leave one block of their budget unused -/

/-- Distinct blocks of the operation `p` is in. -/
def used (t : List Event) (p : ℕ) : ℕ := (opBlocks p t).toFinset.card

/-- With at most `MAXOPBLOCKS - 1` blocks an operation, what is logged and what
may still come stays below `LOGSIZE - 1`. -/
def Reserved (s : St) : Prop :=
  ∃ F : Finset ℕ, (∀ p, p ∈ F ↔ s.pc p = .inOp) ∧ s.outstanding = F.card ∧
    (∀ p ∈ F, used s.trace p ≤ maxopblocks - 1) ∧
    s.lh.length + ∑ p ∈ F, (maxopblocks - 1 - used s.trace p) < logsize - 1

theorem used_begin_self (t : List Event) (p : ℕ) : used (.begin p :: t) p = 0 := by
  simp [used, opBlocks]

/-- An event of another process leaves the blocks of `q`'s operation alone. -/
theorem used_of_ne {t : List Event} {q : ℕ} {e : Event} (hb : e ≠ .begin q)
    (hw : ∀ b, e ≠ .write q b) : used (e :: t) q = used t q := by
  cases e with
  | begin p =>
    have hne : p ≠ q := fun h => hb (by rw [h])
    simp [used, opBlocks, hne]
  | write p b =>
    have hne : p ≠ q := fun h => hw b (by rw [h])
    simp [used, opBlocks, hne]
  | stop p => rfl
  | head h => rfl

theorem reserved_enterOp (hs : Inv s) (hr : Reserved s)
    (hpc : s.pc p = .begin) (hc : s.committing = false)
    (hroom : s.lh.length + (s.outstanding + 1) * maxopblocks ≤ logsize) :
    Reserved { goto s p .inOp with
      outstanding := s.outstanding + 1, condition := false, trace := .begin p :: s.trace } := by
  obtain ⟨F, hF, hcard, hle, -⟩ := hr
  have hpF : p ∉ F := by
    rw [hF, hpc]
    simp
  have hother : ∀ q ∈ F, used (.begin p :: s.trace) q = used s.trace q := by
    intro q hq
    refine used_of_ne ?_ (by simp)
    rintro h
    cases h
    exact hpF hq
  refine ⟨insert p F, insert_inOp hF, by simp [hpF, hcard], fun q hq => ?_, ?_⟩
  · rcases mem_insert.mp hq with rfl | hq'
    · show used (.begin q :: s.trace) q ≤ _
      rw [used_begin_self]
      exact Nat.zero_le _
    · show used (.begin p :: s.trace) q ≤ _
      rw [hother q hq']
      exact hle q hq'
  · show s.lh.length + ∑ q ∈ insert p F, (maxopblocks - 1 - used (.begin p :: s.trace) q) < _
    have hsum : ∑ q ∈ insert p F, (maxopblocks - 1 - used (.begin p :: s.trace) q) ≤
        (F.card + 1) * (maxopblocks - 1) := by
      have h := sum_le_card_nsmul (insert p F)
        (fun q => maxopblocks - 1 - used (.begin p :: s.trace) q) (maxopblocks - 1)
        (fun q _ => Nat.sub_le _ _)
      rw [card_insert_of_notMem hpF] at h
      simpa using h
    rw [hcard] at hroom
    simp only [maxopblocks, logsize] at hroom hsum ⊢
    rcases Nat.eq_zero_or_pos F.card with h0 | hpos
    · -- the first operation of a transaction starts with an empty header
      have hlh := hs.rest_empty hc (by omega)
      rw [hlh]
      simp only [List.length_nil]
      omega
    · omega

theorem used_write_le (t : List Event) (p b : ℕ) :
    used t p ≤ used (.write p b :: t) p ∧
      used (.write p b :: t) p = (b :: opBlocks p t).toFinset.card := by
  have heq : used (.write p b :: t) p = (b :: opBlocks p t).toFinset.card := by
    simp [used, opBlocks]
  refine ⟨?_, heq⟩
  rw [heq, List.toFinset_cons]
  exact card_le_card (subset_insert _ _)

/-- A block that is new in the header is new to its operation. -/
theorem used_write_new {t : List Event} (hnew : b ∉ opBlocks p t) :
    used (.write p b :: t) p = used t p + 1 := by
  rw [(used_write_le t p b).2, List.toFinset_cons,
    card_insert_of_notMem (by simpa using hnew)]
  rfl

theorem reserved_write (hr : Reserved s) (hpc : s.pc p = .inOp)
    (hbudget : (b :: opBlocks p s.trace).toFinset.card ≤ maxopblocks - 1)
    (hsub : ∀ x ∈ opBlocks p s.trace, x ∈ s.lh) :
    Reserved { s with
      lh := if b ∈ s.lh then s.lh else s.lh ++ [b], trace := .write p b :: s.trace } := by
  obtain ⟨F, hF, hcard, hle, hlt⟩ := hr
  have hpF : p ∈ F := (hF p).mpr hpc
  have hother : ∀ q ∈ F.erase p, used (.write p b :: s.trace) q = used s.trace q := by
    intro q hq
    refine used_of_ne (by simp) ?_
    rintro c h
    cases h
    exact notMem_erase p F hq
  obtain ⟨hmono, heq⟩ := used_write_le s.trace p b
  refine ⟨F, hF, hcard, fun q hq => ?_, ?_⟩
  · show used (.write p b :: s.trace) q ≤ _
    by_cases hqp : q = p
    · subst hqp
      rw [heq]
      exact hbudget
    · rw [hother q (mem_erase.mpr ⟨hqp, hq⟩)]
      exact hle q hq
  · show (if b ∈ s.lh then s.lh else s.lh ++ [b]).length +
      ∑ q ∈ F, (maxopblocks - 1 - used (.write p b :: s.trace) q) < _
    rw [← add_sum_erase F _ hpF] at hlt ⊢
    rw [sum_congr rfl fun q hq => by rw [hother q hq]]
    by_cases hb : b ∈ s.lh
    · rw [if_pos hb]
      omega
    · rw [if_neg hb, List.length_append, List.length_singleton]
      have hnew := used_write_new fun h => hb (hsub b h)
      rw [← heq] at hbudget
      omega

theorem reserved_endOp {k d : Bool} (hr : Reserved s)
    (hpc : s.pc p = .inOp) (hc : c ≠ .inOp) :
    Reserved { goto s p c with
      outstanding := s.outstanding - 1, committing := k, condition := d,
      trace := .stop p :: s.trace } := by
  obtain ⟨F, hF, hcard, hle, hlt⟩ := hr
  have hpF : p ∈ F := (hF p).mpr hpc
  obtain ⟨hF', hcard'⟩ := erase_inOp hF hpc hc hcard
  refine ⟨F.erase p, hF', hcard', fun q hq => hle q (mem_of_mem_erase hq), ?_⟩
  rw [← add_sum_erase F _ hpF] at hlt
  show s.lh.length + ∑ q ∈ F.erase p, (maxopblocks - 1 - used s.trace q) < _
  omega

/-- Moves that change neither the set of open operations nor what they wrote. -/
theorem reserved_of_same (hr : Reserved s)
    (hpc : ∀ q, s'.pc q = .inOp ↔ s.pc q = .inOp) (hout : s'.outstanding = s.outstanding)
    (hused : ∀ q, used s'.trace q = used s.trace q) (hlh : s'.lh.length ≤ s.lh.length) :
    Reserved s' := by
  obtain ⟨F, hF, hcard, hle, hlt⟩ := hr
  refine ⟨F, fun q => (hF q).trans (hpc q).symm, hout.trans hcard, fun q hq => ?_, ?_⟩
  · rw [hused]
    exact hle q hq
  · simp only [hused]
    omega

/-- The invariant of the runs in which every operation leaves one block of its
budget unused. -/
structure BudgetInv (s : St) : Prop extends RoomInv s where
  reserved : Reserved s
  mine : ∀ p, s.pc p = .inOp → ∀ b ∈ opBlocks p s.trace, b ∈ s.lh

theorem budgetInv_init : BudgetInv (init logsize) where
  toRoomInv := roomInv_init
  reserved := ⟨∅, by simp [init], by simp [init], by simp, by simp [init, logsize, maxopblocks]⟩
  mine := by simp [init]

theorem reserved_step (hs : BudgetInv s)
    (hb : Budget (maxopblocks - 1) s a) (h : step s a = some s') : Reserved s' := by
  obtain ⟨-, hcase⟩ := step_case h
  have hr := hs.reserved
  cases hcase with
  | move hpc hc => exact reserved_of_same hr (goto_inOp hpc.1 hc.1) rfl (fun _ => rfl) le_rfl
  | advance hpc | installed hpc =>
    exact reserved_of_same hr (goto_inOp (by simp [hpc]) (by simp)) rfl (fun _ => rfl) le_rfl
  | enterOp hpc hc hroom => exact reserved_enterOp hs.toInv hr hpc hc hroom
  | write hpc => exact reserved_write hr hpc (hb _ _ rfl) (hs.mine _ hpc)
  | writeTooBig | writeOutside =>
    exact reserved_of_same hr (fun _ => Iff.rfl) rfl (fun _ => rfl) le_rfl
  | endPanic hpc hc => exact absurd hpc (hs.idle_of_committing hc _)
  | endCommit hpc => exact reserved_endOp hr hpc (by simp)
  | endIdle hpc => exact reserved_endOp hr hpc (by simp)
  | head hpc =>
    exact reserved_of_same hr (goto_inOp (by simp [hpc]) (by simp)) rfl (fun _ => rfl) le_rfl
  | clear hpc =>
    exact reserved_of_same hr (goto_inOp (by simp [hpc]) (by simp)) rfl (fun _ => rfl)
      (Nat.zero_le _)
  | leave hpc =>
    exact reserved_of_same hr (goto_inOp (by simp [hpc]) (by simp)) rfl (fun _ => rfl) le_rfl

/-- A move of `p` to a point outside operations keeps everybody's blocks. -/
theorem mine_goto (hs : BudgetInv s) (hc : c ≠ .inOp) :
    ∀ q, (goto s p c).pc q = .inOp → ∀ b ∈ opBlocks q s.trace, b ∈ s.lh := by
  intro q hq
  have hqp : q ≠ p := by
    rintro rfl
    simp [goto, hc] at hq
  simp only [goto, update_of_ne hqp] at hq
  exact hs.mine q hq

theorem mine_step (hs : BudgetInv s) (h : step s a = some s') :
    ∀ p, s'.pc p = .inOp → ∀ b ∈ opBlocks p s'.trace, b ∈ s'.lh := by
  obtain ⟨-, hcase⟩ := step_case h
  cases hcase with
  | move _ hc => exact mine_goto hs hc.1
  | advance | installed => exact mine_goto hs (by simp)
  | @enterOp p =>
    intro q hq b hmem
    by_cases hqp : q = p
    · subst hqp
      simp [opBlocks] at hmem
    · simp only [goto, update_of_ne hqp] at hq
      simp only [opBlocks, if_neg (Ne.symm hqp)] at hmem
      exact hs.mine q hq b hmem
  | @write p b =>
    intro q hq x hmem
    refine mem_logged.mpr ?_
    simp only [opBlocks] at hmem
    split_ifs at hmem with hqp
    · rcases List.mem_cons.mp hmem with rfl | hmem
      · exact Or.inl rfl
      · exact Or.inr (hs.mine q hq x hmem)
    · exact Or.inr (hs.mine q hq x hmem)
  | writeTooBig | writeOutside => exact hs.mine
  | endPanic hpc hc => exact absurd hpc (hs.idle_of_committing hc _)
  | endCommit hpc => exact mine_goto hs (by simp)
  | endIdle hpc => exact mine_goto hs (by simp)
  | head hpc => exact mine_goto hs (by simp)
  | @clear p i hpc =>
    intro q hq
    have hq' := (goto_inOp (p := p) (c := .commit .eraseHead) (by simp [hpc]) (by simp) q).mp hq
    exact absurd hq' (hs.idle_of_committing (hs.of_commit hpc).1 q)
  | leave hpc => exact mine_goto hs (by simp)

/-- A `log_write` inside its operation's budget finds room. -/
theorem room_of_budget (hs : BudgetInv s)
    (h : step s a = some s') : Room s a := by
  rintro p b rfl
  have hpc : s.pc p = .inOp := by
    obtain ⟨-, hcase⟩ := step_case h
    cases hcase <;> assumption
  obtain ⟨F, -, -, -, hlt⟩ := hs.reserved
  rw [← hs.length_eq hpc]
  omega

theorem budgetInv_step (s : St) (a : Act) (s' : St) (hs : BudgetInv s)
    (hb : Budget (maxopblocks - 1) s a) (h : step s a = some s') : BudgetInv s' where
  toRoomInv := roomInv_step s a s' hs.toRoomInv (room_of_budget hs h) h
  reserved := reserved_step hs hb h
  mine := mine_step hs h

/-- **When "too big a transaction" is reached.** A run avoids the panic exactly
when each of its `log_write`s finds fewer than `LOGSIZE - 1` distinct blocks
written since the last commit. That is so for operations of at most
`MAXOPBLOCKS - 1` blocks, however they interleave. -/
theorem tooBig_iff_room (as : List Act) :
    (Along step NotTooBig (init logsize) as ↔ Steps step Room (init logsize) as) ∧
    (Steps step (Budget (maxopblocks - 1)) (init logsize) as →
      Along step NotTooBig (init logsize) as) :=
  ⟨along_iff_steps (fun _ hs => hs.notTooBig) roomInv_step tooBig_of_no_room roomInv_init,
    along_of_steps (fun _ hs => hs.notTooBig) budgetInv_step budgetInv_init⟩

/-- Three processes enter an operation each; then each writes `MAXOPBLOCKS`
blocks of its own. -/
def threeFullOps : List Act :=
  [.run 0, .run 0, .run 1, .run 1, .run 2, .run 2] ++
    (List.range maxopblocks).map (fun i => .logWrite 0 (100 + i)) ++
    (List.range maxopblocks).map (fun i => .logWrite 1 (200 + i)) ++
    (List.range maxopblocks).map (fun i => .logWrite 2 (300 + i))

/-- `Budget` as a test. -/
def checkBudget (k : ℕ) (s : St) : Act → Bool
  | .logWrite p b => decide ((b :: opBlocks p s.trace).toFinset.card ≤ k)
  | _ => true

theorem budget_of_check (k : ℕ) (s : St) (a : Act) (h : checkBudget k s a = true) :
    Budget k s a := by
  rintro p b rfl
  simpa [checkBudget] using h

/-- Operations of `MAXOPBLOCKS` blocks are not safe: the thirtieth `log_write`
of `threeFullOps` panics. -/
theorem tooBig_threeFullOps :
    Steps step (Budget maxopblocks) (init logsize) threeFullOps ∧
      ¬ Along step NotTooBig (init logsize) threeFullOps := by
  have hrun : (runFrom step (init logsize) threeFullOps).map (fun s => s.panicked) =
      some (some .tooBig) := by decide +kernel
  refine ⟨steps_of_check (budget_of_check maxopblocks) (by decide +kernel), fun h => ?_⟩
  obtain ⟨s, hs, hpanic⟩ := Option.map_eq_some_iff.mp hrun
  exact h.last hs hpanic

end RiscvBm.LogOps

import RiscvBm.Lib.Transition

/-!
# The sleep lock (`kernel/sleeplock.c` over `kernel/wait.h`)

`acquiresleep` releases the spinlock before `wait_event` and takes it again
afterwards; the loop around the two is commented out in the source. The model
has one step for each spinlock-protected section and one for each evaluation of
the `wait_event` condition, and any number of processes.

Mutual exclusion therefore holds in a run exactly when every closing section of
`acquiresleep` finds the lock still free (`mutex_iff_freeAtTake`): the test made
by `wait_event` is worth nothing by the time the section runs.
-/

namespace RiscvBm.SleepLock

open Transition Function

/-! ## §1  Processes, the lock and its wait queue -/

/-- Where a process is inside `acquiresleep` / `releasesleep`. -/
inductive Pc where
  | idle      -- outside: has not called `acquiresleep`, or has called `releasesleep`
  | enter     -- the empty section `acquire(&lk->lk); release(&lk->lk)`
  | test      -- `wait_event`: the condition before `__wait_event`
  | prepare   -- `___wait_event` loop: `prepare_to_wait_event`
  | retest    -- `___wait_event` loop: the condition
  | sched     -- `schedule()`
  | asleep    -- off the CPU inside `schedule()`
  | finish    -- `finish_wait`
  | take      -- the closing section: `locked = 1; pid = current->pid`
  | held      -- has returned from `acquiresleep`
deriving DecidableEq, Repr

/-- One sleep lock, with what `wait.c` and `sched.c` keep for each process that
waits on the shared `sleeplock_wait_queue`. Processes are named by their pid. -/
structure St where
  locked : ℕ
  pid : ℕ
  pc : ℕ → Pc
  /-- its `__wq_entry` is linked into the queue -/
  queued : ℕ → Bool
  /-- `state == TASK_UNINTERRUPTIBLE` -/
  sleeping : ℕ → Bool
  /-- on the run queue -/
  onRq : ℕ → Bool

/-- `initsleeplock`, with no process inside. -/
def init : St where
  locked := 0
  pid := 0
  pc := fun _ => .idle
  queued := fun _ => false
  sleeping := fun _ => false
  onRq := fun _ => true

/-- `wake_up(&sleeplock_wait_queue)`: every queued task is activated.
`try_to_wake_up` returns 0, so no entry leaves the queue, and the task's `state`
is left as it is. -/
def wakeUp (s : St) : St :=
  { s with onRq := fun q => s.onRq q || s.queued q }

/-- `prepare_to_wait_event`: only an entry that is not queued yet is linked and
puts its task to sleep. -/
def prepareToWaitEvent (s : St) (p : ℕ) : St :=
  if s.queued p then s
  else { s with queued := update s.queued p true, sleeping := update s.sleeping p true }

/-- `finish_wait`. -/
def finishWait (s : St) (p : ℕ) : St :=
  { s with sleeping := update s.sleeping p false, queued := update s.queued p false }

/-- `schedule()`: a task that is not `TASK_RUNNING` leaves the run queue. -/
def schedule (s : St) (p : ℕ) : St :=
  if s.sleeping p then { s with onRq := update s.onRq p false } else s

def goto (s : St) (p : ℕ) (c : Pc) : St := { s with pc := update s.pc p c }

inductive Act where
  | run (p : ℕ)     -- the next step of process `p` on this lock
  | wakeOther       -- `releasesleep` of another lock wakes the shared queue
deriving DecidableEq, Repr

def step (s : St) : Act → Option St
  | .wakeOther => some (wakeUp s)
  | .run p =>
    match s.pc p with
    | .idle => some (goto s p .enter)
    | .enter => some (goto s p .test)
    | .test => some (goto s p (if s.locked = 0 then .take else .prepare))
    | .prepare => some (goto (prepareToWaitEvent s p) p .retest)
    | .retest => some (goto s p (if s.locked = 0 then .finish else .sched))
    | .sched => some (goto (schedule s p) p .asleep)
    | .asleep => if s.onRq p then some (goto s p .prepare) else none
    | .finish => some (goto (finishWait s p) p .take)
    | .take => some { goto s p .held with locked := 1, pid := p }
    | .held => some (goto (wakeUp { s with locked := 0, pid := 0 }) p .idle)

/-! ## §2  What a step can do to the lock word and to the holders -/

@[simp] theorem prepareToWaitEvent_pc (s : St) (p : ℕ) :
    (prepareToWaitEvent s p).pc = s.pc := by
  unfold prepareToWaitEvent
  split <;> rfl

@[simp] theorem prepareToWaitEvent_locked (s : St) (p : ℕ) :
    (prepareToWaitEvent s p).locked = s.locked := by
  unfold prepareToWaitEvent
  split <;> rfl

@[simp] theorem schedule_pc (s : St) (p : ℕ) : (schedule s p).pc = s.pc := by
  unfold schedule
  split <;> rfl

@[simp] theorem schedule_locked (s : St) (p : ℕ) :
    (schedule s p).locked = s.locked := by
  unfold schedule
  split <;> rfl

/-- Every step takes the lock, gives it back, or leaves both the lock word and
the set of holders alone. -/
theorem step_cases {s s' : St} {a : Act} (h : step s a = some s') :
    (∃ p, a = .run p ∧ s.pc p = .take ∧ s'.locked = 1 ∧ s'.pc = update s.pc p .held) ∨
    (∃ p, a = .run p ∧ s.pc p = .held ∧ s'.locked = 0 ∧ s'.pc = update s.pc p .idle) ∨
    ((∀ p, a = .run p → s.pc p ≠ .take) ∧ s'.locked = s.locked ∧
      ∀ q, s'.pc q = .held ↔ s.pc q = .held) := by
  cases a with
  | wakeOther =>
    simp only [step, Option.some.injEq] at h
    subst h
    exact Or.inr (Or.inr ⟨fun p hp => by simp at hp, rfl, fun q => Iff.rfl⟩)
  | run p =>
    -- a move of `p` between two program points that are not `held`
    have quiet : ∀ (t : St) {c : Pc}, c ≠ .held → s.pc p ≠ .held ∧ s.pc p ≠ .take → t.pc = s.pc →
        t.locked = s.locked → some (goto t p c) = some s' →
        (∀ r, Act.run p = .run r → s.pc r ≠ .take) ∧ s'.locked = s.locked ∧
          ∀ q, s'.pc q = .held ↔ s.pc q = .held := by
      rintro t c hc ⟨hh, ht⟩ htpc htl ⟨⟩
      refine ⟨?_, htl, fun q => ?_⟩
      · rintro r ⟨⟩
        exact ht
      · simp only [goto, htpc]
        by_cases hq : q = p
        · subst hq
          simp [hc, hh]
        · simp [update_of_ne hq]
    simp only [step] at h
    cases hpc : s.pc p <;> rw [hpc] at h
    case take =>
      cases h
      exact Or.inl ⟨p, rfl, hpc, rfl, rfl⟩
    case held =>
      cases h
      exact Or.inr (Or.inl ⟨p, rfl, hpc, rfl, rfl⟩)
    case asleep =>
      simp only [Option.ite_none_right_eq_some] at h
      exact Or.inr (Or.inr (quiet s (by simp) (by simp [hpc]) rfl rfl h.2))
    case test | retest =>
      exact Or.inr (Or.inr (quiet s (by split <;> simp) (by simp [hpc]) rfl rfl h))
    case prepare | sched =>
      exact Or.inr (Or.inr (quiet _ (by simp) (by simp [hpc]) (by simp) (by simp) h))
    case idle | enter =>
      exact Or.inr (Or.inr (quiet s (by simp) (by simp [hpc]) rfl rfl h))
    case finish =>
      exact Or.inr (Or.inr (quiet (finishWait s p) (by simp) (by simp [hpc]) rfl rfl h))

/-! ## §3  Mutual exclusion -/

/-- At most one process has returned from `acquiresleep` without having called
`releasesleep`. -/
def Mutex (s : St) : Prop :=
  ∀ p q, s.pc p = .held → s.pc q = .held → p = q

/-- The step is not a closing section of `acquiresleep` that finds the lock
taken meanwhile. -/
def FreeAtTake (s : St) (a : Act) : Prop :=
  ∀ p, a = .run p → s.pc p = .take → s.locked = 0

/-- The lock word tells whether there is a holder, and there is at most one. -/
structure Inv (s : St) : Prop where
  mutex : Mutex s
  locked_iff : s.locked ≠ 0 ↔ ∃ p, s.pc p = .held

theorem inv_init : Inv init where
  mutex := fun p q hp _ => by simp [init] at hp
  locked_iff := by simp [init]

theorem inv_step (s : St) (a : Act) (s' : St) (hs : Inv s) (hfree : FreeAtTake s a)
    (h : step s a = some s') : Inv s' := by
  rcases step_cases h with ⟨p, rfl, htake, hl, hpc⟩ | ⟨p, rfl, hheld, hl, hpc⟩ | ⟨-, hl, hpc⟩
  · -- taking a free lock: nobody held it before
    have hnone : ∀ q, s.pc q ≠ .held := by
      intro q hq
      exact hs.locked_iff.mpr ⟨q, hq⟩ (hfree p rfl htake)
    have honly : ∀ q, s'.pc q = .held → q = p := by
      intro q hq
      by_contra hne
      rw [hpc, update_of_ne hne] at hq
      exact hnone q hq
    exact ⟨fun q r hq hr => (honly q hq).trans (honly r hr).symm,
      ⟨fun _ => ⟨p, by simp [hpc]⟩, fun _ => by simp [hl]⟩⟩
  · -- giving it back: the only holder leaves
    have hnone : ∀ q, s'.pc q ≠ .held := by
      intro q hq
      by_cases hqp : q = p
      · subst hqp
        simp [hpc] at hq
      · rw [hpc, update_of_ne hqp] at hq
        exact hqp (hs.mutex q p hq hheld)
    exact ⟨fun q r hq _ => absurd hq (hnone q),
      ⟨fun hne => absurd hl hne, fun ⟨q, hq⟩ => absurd hq (hnone q)⟩⟩
  · refine ⟨fun q r hq hr => hs.mutex q r ((hpc q).mp hq) ((hpc r).mp hr), ?_⟩
    rw [hl, hs.locked_iff]
    exact exists_congr fun q => (hpc q).symm

/-- Taking a lock that is held makes a second holder. -/
theorem not_mutex_step (s : St) (a : Act) (s' : St) (hs : Inv s)
    (hbusy : ¬ FreeAtTake s a) (h : step s a = some s') : ¬ Mutex s' := by
  unfold FreeAtTake at hbusy
  push Not at hbusy
  obtain ⟨p, rfl, htake, hlocked⟩ := hbusy
  obtain ⟨q, hq⟩ := hs.locked_iff.mp hlocked
  have hqp : q ≠ p := by
    rintro rfl
    rw [htake] at hq
    cases hq
  rcases step_cases h with ⟨p', hp', -, -, hpc⟩ | ⟨p', hp', hheld, -, -⟩ | ⟨hno, -, -⟩
  · cases hp'
    intro hm
    exact hqp (hm q p (by rw [hpc, update_of_ne hqp]; exact hq) (by simp [hpc]))
  · cases hp'
    rw [htake] at hheld
    cases hheld
  · exact absurd htake (hno p rfl)

/-- **Mutual exclusion, exactly.** For every number of processes and every
interleaving, the run keeps mutual exclusion in all its states if and only if
each closing section of `acquiresleep` runs while the lock is free. -/
theorem mutex_iff_freeAtTake (as : List Act) :
    Along step Mutex init as ↔ Steps step FreeAtTake init as :=
  along_iff_steps (fun _ hs => hs.mutex) inv_step not_mutex_step inv_init

/-- Two processes test the free lock one after the other and then both take it. -/
def doubleTake : List Act :=
  [.run 0, .run 0, .run 0, .run 1, .run 1, .run 1, .run 0, .run 1]

/-- Mutual exclusion does not hold in every run. -/
theorem not_mutex_doubleTake :
    ¬ ∀ (as : List Act) (s : St), runFrom step init as = some s → Mutex s := by
  intro h
  have hm := h doubleTake _ rfl
  exact absurd (hm 0 1 rfl rfl) (by decide)

end RiscvBm.SleepLock

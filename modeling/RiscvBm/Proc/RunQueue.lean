import Mathlib.Data.Int.Order.Basic
import Mathlib.Data.List.Perm.Subperm
import RiscvBm.Lib.DList
import RiscvBm.Lib.Transition
import RiscvBm.Param

/-!
# The run queue of one CPU (`kernel/sched.c`, `kernel/sched_simple.c`)

A task's place on the run queue is recorded in three ways: by the links of
`rq->rq_head`, by `on_rq`, and by `run_list.next`, which `list_del` sets to NULL.
`enqueue_task` and `dequeue_task` test `on_rq`, `wake_up_process` tests the link. The
initial task starts with a self-linked `run_list`, the others with zeroed memory, so
the link says something only about a task that has been on the queue before.

The functions run with interrupts off, or under a lock taken with interrupts off, so
each is one step.
-/

namespace RiscvBm.RunQueue

open DList Transition Function

/-! ## §1  Tasks and links -/

/-- What a `list_head` pointer can point to. -/
inductive Node where
  | null
  | head                 -- `rq->rq_head`
  | task (p : ℕ)         -- `run_list` of the task at address `p`
deriving DecidableEq, Repr

/-- The fields of `struct task_struct` that the scheduler uses. -/
structure Task where
  state : ℕ
  counter : ℤ
  priority : ℕ
  onRq : ℤ
deriving DecidableEq, Repr

structure St where
  task : ℕ → Task
  links : Links Node
  nrRunning : BitVec 32
  current : ℕ
  /-- the task list of the CPU, with the initial task first -/
  tasks : List ℕ
  /-- history: the tasks that have been put on the queue -/
  enqueued : ℕ → Bool

def defCounter : ℤ := 25
def taskRunning : ℕ := 0

def setTask (s : St) (p : ℕ) (t : Task) : St := { s with task := update s.task p t }

/-- `__list_add` -/
def listAddBetween (k : Links Node) (new prev next : Node) : Links Node :=
  let k : Links Node := { k with prev := update k.prev next new }
  let k : Links Node := { k with next := update k.next new next }
  let k : Links Node := { k with prev := update k.prev new prev }
  { k with next := update k.next prev new }

def listAdd (k : Links Node) (new h : Node) : Links Node :=
  listAddBetween k new h (k.next h)

/-- `__list_del` -/
def listDelBetween (k : Links Node) (prev next : Node) : Links Node :=
  let k : Links Node := { k with prev := update k.prev next prev }
  { k with next := update k.next prev next }

def listDel (k : Links Node) (entry : Node) : Links Node :=
  let k := listDelBetween k (k.prev entry) (k.next entry)
  let k : Links Node := { k with next := update k.next entry .null }
  { k with prev := update k.prev entry .null }

/-! ## §2  The scheduling class -/

def dequeueTaskSimple (s : St) (p : ℕ) : St :=
  if (s.task p).onRq = 1 then
    let s := { s with nrRunning := s.nrRunning - 1 }
    let s := setTask s p { s.task p with onRq := 0 }
    { s with links := listDel s.links (.task p) }
  else s

def enqueueTaskSimple (s : St) (p : ℕ) : St :=
  if (s.task p).onRq = 0 then
    let s := { s with links := listAdd s.links (.task p) .head }
    let s := { s with enqueued := update s.enqueued p true }
    let s := setTask s p { s.task p with onRq := 1 }
    { s with nrRunning := s.nrRunning + 1 }
  else s

def goodness (s : St) (p : ℕ) : ℤ := (s.task p).counter

/-- What `reset_score` does to a task. -/
def resetTask (s : St) (p : ℕ) : St :=
  if (s.task p).counter ≤ 0 then
    setTask s p { s.task p with counter := defCounter + (s.task p).priority }
  else s

/-- `for_each_task` goes round the ring and stops at the initial task, which comes last. -/
def resetScore (s : St) : St :=
  match s.tasks with
  | [] => s
  | init :: ring => resetTask (ring.foldl resetTask s) init

/-- The tasks that `list_for_each` comes to. -/
def rqList (s : St) : List ℕ :=
  (walk s.links.next .head (s.tasks.length + 1) (s.links.next .head)).filterMap fun
    | .task p => some p
    | _ => none

/-- The loop of `pick_next_task_simple`, with `c` and `next`. -/
def bestOf (s : St) : List ℕ → ℤ → Option ℕ → ℤ × Option ℕ
  | [], c, next => (c, next)
  | p :: l, c, next =>
    if goodness s p > c then bestOf s l (goodness s p) (some p) else bestOf s l c next

/-- `repeat:` in `pick_next_task_simple`; `none` stands for `next` while it is not yet
initialised. -/
def pickLoop : ℕ → St → St × Option ℕ
  | 0, s => (s, none)
  | n + 1, s =>
    let (c, next) := bestOf s (rqList s) (-1000) none
    if c = 0 then pickLoop n (resetScore s) else (s, next)

/-- After `reset_score` no counter is zero, so there is no third round
(`pickNextTaskSimple_best`). -/
def pickNextTaskSimple (s : St) : St × Option ℕ := pickLoop 2 s

/-! ## §3  `sched.c` -/

def dequeueTask (s : St) (p : ℕ) : St := dequeueTaskSimple s p

def enqueueTask (s : St) (p : ℕ) : St := enqueueTaskSimple s p

/-- `__schedule`. When nothing was picked it goes on with an uninitialised pointer. -/
def schedule (s : St) : Option St :=
  let prev := s.current
  let s := if (s.task prev).state ≠ taskRunning then dequeueTask s prev else s
  match pickNextTaskSimple s with
  | (s, some next) => some { s with current := next }
  | (_, none) => none

/-- `task_on_runqueue` -/
def taskOnRunqueue (s : St) (p : ℕ) : Bool := s.links.next (.task p) ≠ .null

def wakeUpProcess (s : St) (p : ℕ) : St :=
  let s := setTask s p { s.task p with state := taskRunning }
  if taskOnRunqueue s p then s else enqueueTask s p

def activateTask (s : St) (p : ℕ) : St :=
  let s := enqueueTaskSimple s p
  setTask s p { s.task p with onRq := 1 }

def tryToWakeUp (s : St) (p state : ℕ) : St :=
  if p = s.current then
    if (s.task p).state &&& state = 0 then s
    else setTask s p { s.task p with state := taskRunning }
  else activateTask s p

/-- The end of `copy_process`: `p` is fresh memory, and a pid is needed. -/
def copyProcess (s : St) (p : ℕ) : St :=
  if s.tasks.length ≤ maxPid then
    let s := setTask s p ⟨taskRunning, defCounter, (s.task s.current).priority, 0⟩
    let s := { s with
      links := ⟨update s.links.next (.task p) .null, update s.links.prev (.task p) .null⟩
      enqueued := update s.enqueued p false
      tasks := s.tasks ++ [p] }
    enqueueTaskSimple s p
  else s

/-! ## §4  Runs -/

inductive Act where
  | create (p : ℕ)
  | enqueue (p : ℕ)
  | dequeue (p : ℕ)
  | wakeUp (p : ℕ)                    -- `wake_up_process`
  | tryToWakeUp (p state : ℕ)
  | schedule
  | setState (p state : ℕ)            -- a task goes to sleep or exits
  | tick                              -- `task_tick_simple`
deriving DecidableEq, Repr

/-- A step is possible on a task, `create` on memory that is not in use. -/
def step (s : St) : Act → Option St
  | .create p => if p ∈ s.tasks then none else some (copyProcess s p)
  | .enqueue p => if p ∈ s.tasks then some (enqueueTask s p) else none
  | .dequeue p => if p ∈ s.tasks then some (dequeueTask s p) else none
  | .wakeUp p => if p ∈ s.tasks then some (wakeUpProcess s p) else none
  | .tryToWakeUp p state => if p ∈ s.tasks then some (tryToWakeUp s p state) else none
  | .schedule => schedule s
  | .setState p state =>
    if p ∈ s.tasks then some (setTask s p { s.task p with state := state }) else none
  | .tick =>
    some (setTask s s.current
      { s.task s.current with counter := max 0 ((s.task s.current).counter - 1) })

/-- After `sched_init`, with the initial task not yet on the queue. -/
def boot (init : ℕ) : St where
  task := fun _ => ⟨taskRunning, 1, 5, 0⟩
  links := ⟨id, id⟩           -- `LIST_HEAD_INIT`
  nrRunning := 0
  current := init
  tasks := [init]
  enqueued := fun _ => false

/-! ## §5  The invariant -/

/-- What the records say of a task, on the queue `l` or off it. -/
def Placed (s : St) (l : List ℕ) (p : ℕ) : Prop :=
  ((s.task p).onRq = 1 ∧ p ∈ l ∧ s.enqueued p = true) ∨
    ((s.task p).onRq = 0 ∧ p ∉ l ∧ (s.enqueued p = true → s.links.next (.task p) = .null))

/-- The queue is `l`, and all three records say so. -/
structure Inv (s : St) (l : List ℕ) : Prop where
  cycle : Cycle s.links .head (l.map .task)
  sub : ∀ p ∈ l, p ∈ s.tasks
  place : ∀ p ∈ s.tasks, Placed s l p
  count : s.nrRunning = BitVec.ofNat 32 l.length
  pids : s.tasks.length ≤ maxPid + 1
  cur : s.current ∈ s.tasks

variable {s s' : St} {l l' : List ℕ} {p q : ℕ}

/-- Nothing that concerns the task `q` changed. -/
theorem Placed.congr (h : Placed s l q) (htask : (s'.task q).onRq = (s.task q).onRq)
    (hmem : q ∈ l' ↔ q ∈ l) (hseen : s'.enqueued q = s.enqueued q)
    (hnext : q ∉ l → s'.links.next (.task q) = s.links.next (.task q)) : Placed s' l' q := by
  rw [Placed, htask, hmem, hseen]
  refine h.imp_right fun ⟨hoff, hnot, hgone⟩ => ⟨hoff, hnot, ?_⟩
  rwa [hnext hnot]

theorem task_injective : Injective Node.task := fun _ _ h => Node.task.inj h

theorem Inv.nodup (h : Inv s l) : l.Nodup :=
  (List.nodup_map_iff task_injective).mp (List.nodup_cons.mp h.cycle.nodup).2

theorem Inv.length_lt (h : Inv s l) : l.length < s.tasks.length + 1 :=
  Nat.lt_succ_of_le (List.subperm_of_subset h.nodup h.sub).length_le

/-- A walk of one step more than there are tasks sees the whole queue. -/
theorem rqList_eq (hcycle : Cycle s.links .head (l.map .task)) (hsub : ∀ p ∈ l, p ∈ s.tasks) :
    rqList s = l := by
  have hnodup := (List.nodup_map_iff task_injective).mp (List.nodup_cons.mp hcycle.nodup).2
  have hwalk := hcycle.walk (n := s.tasks.length + 1) (by
    rw [List.length_map]
    exact Nat.lt_succ_of_le (List.subperm_of_subset hnodup hsub).length_le)
  rw [rqList, hwalk, List.filterMap_map]
  exact List.filterMap_some

theorem Inv.rqList_eq (h : Inv s l) : rqList s = l := RunQueue.rqList_eq h.cycle h.sub

theorem Inv.next_ne (h : Inv s l) (hp : p ∈ l) : s.links.next (.task p) ≠ .null := by
  intro hnull
  have hmem := h.cycle.next_mem (List.mem_map.mpr ⟨p, hp, rfl⟩)
  rw [hnull] at hmem
  simp at hmem

/-- Fields of a task other than `on_rq` change. -/
theorem Inv.setTask (h : Inv s l) (p : ℕ) {t : Task} (ht : t.onRq = (s.task p).onRq) :
    Inv (setTask s p t) l := by
  refine { h with place := fun q hq => (h.place q hq).congr ?_ Iff.rfl rfl fun _ => rfl }
  show (update s.task p t q).onRq = _
  by_cases hqp : q = p
  · rw [hqp, update_self, ht]
  · rw [update_of_ne hqp]

/-! ## §6  Each operation keeps it -/

/-- `list_add` on a node outside the list is `pushFront`. -/
theorem listAdd_eq {k : Links Node} {new h : Node} (hnext : k.next h ≠ new) (hne : new ≠ h) :
    listAdd k new h = pushFront k h new := by
  have hnew : (update k.next new (k.next h)) h = k.next h := update_of_ne hne.symm _ _
  simp only [listAdd, listAddBetween, pushFront, hnew]
  rw [update_comm hnext.symm]

theorem listAdd_next_of_ne {k : Links Node} {new h y : Node} (hnew : y ≠ new) (hh : y ≠ h) :
    (listAdd k new h).next y = k.next y := by
  simp only [listAdd, listAddBetween, update_of_ne hh, update_of_ne hnew]

/-- `list_del` is `unlink`, and then NULL in both links of the entry. -/
theorem listDel_eq {k : Links Node} {x : Node} (hnext : k.next x ≠ x) :
    listDel k x = ⟨update (unlink k x).next x .null, update (unlink k x).prev x .null⟩ := by
  rw [unlink_eq k hnext]
  rfl

theorem foldl_resetTask (s : St) (l : List ℕ) :
    l.foldl resetTask s = { s with
      task := fun p =>
        if p ∈ l ∧ (s.task p).counter ≤ 0 then
          { s.task p with counter := defCounter + (s.task p).priority }
        else s.task p } := by
  induction l generalizing s with
  | nil => simp
  | cons q l ih =>
    have hpos : ¬ defCounter + ((s.task q).priority : ℤ) ≤ 0 := by
      unfold defCounter
      omega
    rw [List.foldl_cons, ih, resetTask]
    split_ifs with hq
    · congr 1
      funext p
      by_cases hp : p = q
      · subst hp
        simp [setTask, hq, hpos]
      · simp [setTask, hp]
    · congr 1
      funext p
      by_cases hp : p = q
      · subst hp
        simp [hq]
      · simp [hp]

/-- The initial task is reset like the others. -/
theorem resetScore_eq (s : St) : resetScore s = { s with
    task := fun p =>
      if p ∈ s.tasks ∧ (s.task p).counter ≤ 0 then
        { s.task p with counter := defCounter + (s.task p).priority }
      else s.task p } := by
  unfold resetScore
  split
  · rename_i htasks
    simp only [htasks, List.not_mem_nil, false_and, if_false]
    rw [← htasks]
  · rename_i init ring htasks
    have hround : resetTask (ring.foldl resetTask s) init = (ring ++ [init]).foldl resetTask s := by
      rw [List.foldl_append]
      rfl
    have hmem : ∀ p, p ∈ ring ++ [init] ↔ p ∈ s.tasks := by simp [htasks, or_comm]
    rw [hround, foldl_resetTask]
    simp only [hmem]

/-- The loop leaves the largest counter of the queue with a task that has it, or what it
started with. -/
theorem bestOf_spec (s : St) (l : List ℕ) (c : ℤ) (next : Option ℕ) :
    c ≤ (bestOf s l c next).1 ∧ (∀ p ∈ l, goodness s p ≤ (bestOf s l c next).1) ∧
      (bestOf s l c next = (c, next) ∨ ∃ p ∈ l, bestOf s l c next = (goodness s p, some p)) := by
  induction l generalizing c next with
  | nil => exact ⟨le_rfl, nofun, .inl rfl⟩
  | cons q l ih =>
    rw [bestOf]
    split_ifs with hq
    · grind
    · grind

section

variable (h : Inv s l)

include h

theorem Inv.enqueue_off (hp : p ∈ s.tasks) (hoff : (s.task p).onRq = 0)
    (hmem : p ∉ l) : Inv (enqueueTaskSimple s p) (p :: l) := by
  have hout : Node.task p ∉ Node.head :: l.map Node.task := by simpa using hmem
  have hnext : s.links.next .head ≠ .task p := by
    intro heq
    have hfirst := h.cycle.seg.next_mem
    rw [heq] at hfirst
    rcases List.mem_append.mp hfirst with hin | hin
    · exact hout (List.mem_cons_of_mem _ hin)
    · exact hout (List.mem_cons.mpr (Or.inl (List.mem_singleton.mp hin)))
  rw [enqueueTaskSimple, if_pos hoff]
  constructor
  · show Cycle (listAdd s.links (.task p) .head) .head _
    rw [listAdd_eq hnext (by simp)]
    exact h.cycle.pushFront hout
  · intro q hq
    rcases List.mem_cons.mp hq with rfl | hq
    · exact hp
    · exact h.sub q hq
  · intro q hq
    by_cases hqp : q = p
    · subst hqp
      exact Or.inl ⟨by simp [RunQueue.setTask], List.mem_cons_self, update_self ..⟩
    · refine (h.place q hq).congr (congrArg Task.onRq (update_of_ne hqp ..)) ?_
        (update_of_ne hqp ..) fun _ => listAdd_next_of_ne (by simpa using hqp) (by simp)
      rw [List.mem_cons, or_iff_right hqp]
  · show s.nrRunning + 1 = _
    rw [h.count, List.length_cons]
    exact (BitVec.ofNat_add l.length 1).symm
  · exact h.pids
  · exact h.cur

theorem Inv.enqueue (hp : p ∈ s.tasks) :
    ∃ l', Inv (enqueueTaskSimple s p) l' ∧ p ∈ l' := by
  rcases h.place p hp with ⟨hon, hmem, -⟩ | ⟨hoff, hmem, -⟩
  · refine ⟨l, ?_, hmem⟩
    rw [enqueueTaskSimple, if_neg (by rw [hon]; decide)]
    exact h
  · exact ⟨p :: l, h.enqueue_off hp hoff hmem, List.mem_cons_self⟩

theorem Inv.dequeue_on (hon : (s.task p).onRq = 1) (hmem : p ∈ l) :
    Inv (dequeueTaskSimple s p) (l.erase p) := by
  have hin : Node.task p ∈ l.map Node.task := List.mem_map.mpr ⟨p, hmem, rfl⟩
  have hlinks : listDel s.links (.task p) = _ := listDel_eq (h.cycle.next_ne_self hin)
  have hcycle := h.cycle.unlink hin
  have hmap : (l.map Node.task).erase (.task p) = (l.erase p).map Node.task :=
    (List.map_erase task_injective l).symm
  rw [hmap] at hcycle
  rw [dequeueTaskSimple, if_pos hon]
  constructor
  · show Cycle (listDel s.links (.task p)) .head _
    have hne : ∀ z ∈ Node.head :: (l.erase p).map Node.task, z ≠ Node.task p := by
      rintro z hz rfl
      simp [h.nodup.not_mem_erase] at hz
    rw [hlinks]
    apply hcycle.congr
    · intro z hz
      exact update_of_ne (hne z hz) _ _
    · intro z hz
      exact update_of_ne (hne z hz) _ _
  · intro q hq
    exact h.sub q (List.mem_of_mem_erase hq)
  · intro q hq
    by_cases hqp : q = p
    · subst hqp
      refine Or.inr ⟨by simp [RunQueue.setTask], h.nodup.not_mem_erase, fun _ => ?_⟩
      exact (congrArg (Links.next · _) hlinks).trans (update_self ..)
    · refine (h.place q hq).congr (congrArg Task.onRq (update_of_ne hqp ..))
        (List.mem_erase_of_ne hqp) rfl fun hql => ?_
      show (listDel s.links (.task p)).next (.task q) = _
      rw [hlinks]
      show update (unlink s.links (.task p)).next (.task p) .null (.task q) = _
      rw [update_of_ne (by simpa using hqp), h.cycle.unlink_next hin (by simpa using hql)]
  · show s.nrRunning - 1 = _
    obtain ⟨n, hn⟩ := Nat.exists_eq_succ_of_ne_zero (Nat.ne_of_gt (List.length_pos_of_mem hmem))
    rw [h.count, List.length_erase_of_mem hmem, hn, Nat.succ_sub_one, Nat.succ_eq_add_one,
      BitVec.ofNat_add]
    exact BitVec.add_sub_cancel _ _
  · exact h.pids
  · exact h.cur

theorem Inv.dequeue (hp : p ∈ s.tasks) : ∃ l', Inv (dequeueTaskSimple s p) l' := by
  rcases h.place p hp with ⟨hon, hmem, -⟩ | ⟨hoff, -⟩
  · exact ⟨l.erase p, h.dequeue_on hon hmem⟩
  · refine ⟨l, ?_⟩
    rw [dequeueTaskSimple, if_neg (by rw [hoff]; decide)]
    exact h

theorem Inv.resetScore : Inv (resetScore s) l := by
  rw [resetScore_eq]
  refine { h with place := fun p hp => (h.place p hp).congr ?_ Iff.rfl rfl fun _ => rfl }
  show (ite _ _ _ : Task).onRq = _
  split_ifs <;> rfl

/-- Picking a task changes counters only, and picks from the queue. -/
theorem Inv.pickLoop {n : ℕ} {next : Option ℕ}
    (hpick : pickLoop n s = (s', next)) : Inv s' l ∧ ∀ p, next = some p → p ∈ l := by
  induction n generalizing s with
  | zero =>
    cases hpick
    exact ⟨h, fun p hp => by cases hp⟩
  | succ n ih =>
    rw [RunQueue.pickLoop] at hpick
    cases hbest : bestOf s (rqList s) (-1000) none with
    | mk c best =>
      rw [hbest] at hpick
      dsimp only at hpick
      split_ifs at hpick with hc
      · exact ih h.resetScore hpick
      · cases hpick
        refine ⟨h, fun p hp => ?_⟩
        subst hp
        obtain ⟨-, -, heq | ⟨q, hq, heq⟩⟩ := bestOf_spec s' (rqList s') (-1000) none
        · cases hbest.symm.trans heq
        · cases hbest.symm.trans heq
          rwa [h.rqList_eq] at hq

theorem Inv.schedule (hrun : schedule s = some s') : ∃ l', Inv s' l' := by
  have hprev : ∃ l', Inv (if (s.task s.current).state ≠ taskRunning then
      dequeueTask s s.current else s) l' := by
    split_ifs
    · exact h.dequeue h.cur
    · exact ⟨l, h⟩
  rw [RunQueue.schedule] at hrun
  obtain ⟨l', h'⟩ := hprev
  cases hpick : pickNextTaskSimple (if (s.task s.current).state ≠ taskRunning then
      dequeueTask s s.current else s) with
  | mk t next =>
    rw [hpick] at hrun
    obtain ⟨ht, hnext⟩ := h'.pickLoop hpick
    cases next with
    | none => cases hrun
    | some q =>
      cases hrun
      exact ⟨l', { ht with cur := ht.sub q (hnext q rfl) }⟩

theorem Inv.wakeUpProcess (hp : p ∈ s.tasks) : ∃ l', Inv (wakeUpProcess s p) l' := by
  have hstate : Inv (RunQueue.setTask s p { s.task p with state := taskRunning }) l :=
    h.setTask p rfl
  rw [RunQueue.wakeUpProcess]
  split_ifs
  · exact ⟨l, hstate⟩
  · exact (hstate.enqueue hp).imp fun _ h' => h'.1

/-- `p->on_rq = 1` in `activate_task` changes nothing any more. -/
theorem Inv.activateTask (hp : p ∈ s.tasks) : ∃ l', Inv (activateTask s p) l' := by
  obtain ⟨l', h', hmem⟩ := h.enqueue hp
  refine ⟨l', h'.setTask p ?_⟩
  rcases h'.place p (h'.sub p hmem) with ⟨hon, -⟩ | ⟨-, hnot, -⟩
  · exact hon.symm
  · exact absurd hmem hnot

theorem Inv.tryToWakeUp (hp : p ∈ s.tasks) (state : ℕ) :
    ∃ l', Inv (tryToWakeUp s p state) l' := by
  rw [RunQueue.tryToWakeUp]
  split_ifs
  · exact ⟨l, h⟩
  · exact ⟨l, h.setTask p rfl⟩
  · exact h.activateTask hp

/-- A new task: its memory was not in the list, and is zeroed. -/
theorem Inv.copyProcess (hp : p ∉ s.tasks) : ∃ l', Inv (copyProcess s p) l' := by
  have hpl : p ∉ l := fun hmem => hp (h.sub p hmem)
  have hmem : ∀ q ∈ s.tasks ++ [p], q ≠ p → q ∈ s.tasks := by
    intro q hq hne
    rcases List.mem_append.mp hq with hq | hq
    · exact hq
    · exact absurd (List.mem_singleton.mp hq) hne
  rw [RunQueue.copyProcess]
  split_ifs with hpid
  · have hfresh : Inv { RunQueue.setTask s p
          ⟨taskRunning, defCounter, (s.task s.current).priority, 0⟩ with
        links := ⟨update s.links.next (.task p) .null, update s.links.prev (.task p) .null⟩
        enqueued := update s.enqueued p false
        tasks := s.tasks ++ [p] } l := by
      have hne : ∀ z ∈ Node.head :: l.map Node.task, z ≠ Node.task p := by
        rintro z hz rfl
        simp [hpl] at hz
      constructor
      · apply h.cycle.congr
        · intro z hz
          exact update_of_ne (hne z hz) _ _
        · intro z hz
          exact update_of_ne (hne z hz) _ _
      · intro q hq
        exact List.mem_append_left _ (h.sub q hq)
      · intro q hq
        by_cases hqp : q = p
        · subst hqp
          exact Or.inr ⟨by simp [RunQueue.setTask], hpl, fun _ => update_self ..⟩
        · exact (h.place q (hmem q hq hqp)).congr (congrArg Task.onRq (update_of_ne hqp ..)) Iff.rfl
            (update_of_ne hqp ..) fun _ => update_of_ne (by simpa using hqp) ..
      · exact h.count
      · show (s.tasks ++ [p]).length ≤ _
        rw [List.length_append]
        exact Nat.add_le_add_right hpid 1
      · exact List.mem_append_left _ h.cur
    exact (hfresh.enqueue (List.mem_append_right _ List.mem_cons_self)).imp fun _ h' => h'.1
  · exact ⟨l, h⟩

end

/-! ## §7  Membership over runs -/

theorem inv_boot (init : ℕ) : Inv (boot init) [] where
  cycle := cycle_nil _ _ _ rfl rfl
  sub p hp := by simp at hp
  place p _ := Or.inr ⟨rfl, by simp, nofun⟩
  count := rfl
  pids := Nat.succ_le_succ (Nat.zero_le maxPid)
  cur := List.mem_singleton_self init

theorem inv_step (s : St) (a : Act) (s' : St) (h : ∃ l, Inv s l) (hstep : step s a = some s') :
    ∃ l, Inv s' l := by
  obtain ⟨l, h⟩ := h
  cases a
  case schedule => exact h.schedule hstep
  case tick =>
    cases hstep
    exact ⟨l, h.setTask _ rfl⟩
  all_goals
    rw [step] at hstep
    split_ifs at hstep with hp
    cases hstep
  · exact h.copyProcess hp
  · exact (h.enqueue hp).imp fun _ h' => h'.1
  · exact h.dequeue hp
  · exact h.wakeUpProcess hp
  · exact h.tryToWakeUp hp _
  · exact ⟨l, h.setTask _ rfl⟩

/-- The records of the run queue agree. -/
structure Membership (s : St) : Prop where
  /-- the links of `rq_head` form a cycle through the tasks of the queue -/
  linked : Cycle s.links .head ((rqList s).map .task)
  once : (rqList s).Nodup
  onRq : ∀ p ∈ s.tasks, (s.task p).onRq = 1 ↔ p ∈ rqList s
  tests : ∀ p ∈ s.tasks, s.enqueued p = true → (taskOnRunqueue s p = true ↔ (s.task p).onRq = 1)
  count : s.nrRunning.toNat = (rqList s).length

theorem Inv.membership (h : Inv s l) : Membership s := by
  have honRq : ∀ p ∈ s.tasks, (s.task p).onRq = 1 ↔ p ∈ l := by
    intro p hp
    rcases h.place p hp with ⟨hon, hmem, -⟩ | ⟨hoff, hmem, -⟩
    · exact iff_of_true hon hmem
    · exact iff_of_false (by rw [hoff]; decide) hmem
  constructor
  · rw [h.rqList_eq]
    exact h.cycle
  · rw [h.rqList_eq]
    exact h.nodup
  · rw [h.rqList_eq]
    exact honRq
  · intro p hp hseen
    rw [taskOnRunqueue, decide_eq_true_iff]
    rcases h.place p hp with ⟨hon, hmem, -⟩ | ⟨hoff, -, hgone⟩
    · exact iff_of_true (h.next_ne hmem) hon
    · exact iff_of_false (not_not.mpr (hgone hseen)) (by rw [hoff]; decide)
  · have hlt : l.length < 2 ^ 32 := by
      have hlen := h.length_lt
      have hpids : s.tasks.length ≤ 32768 := h.pids
      omega
    rw [h.rqList_eq, h.count, BitVec.toNat_ofNat, Nat.mod_eq_of_lt hlt]

/-- **Run-queue membership.** In every state of every run of task creations, enqueues,
dequeues, wake-ups and schedules on one CPU, the queue holds each task at most once,
`on_rq` and `nr_running` are exact, and for tasks that have been on the queue
`task_on_runqueue` and `on_rq` agree. -/
theorem runQueue_membership (init : ℕ) (as : List Act) : Along step Membership (boot init) as := by
  apply @along_of_invariant _ _ step fun s => ∃ l, Inv s l
  · rintro s ⟨l, h⟩
    exact h.membership
  · exact inv_step
  · exact ⟨[], inv_boot init⟩

/-! ## §8  The choice of the next task -/

theorem resetScore_pos (hp : p ∈ s.tasks) : 0 < goodness (resetScore s) p := by
  rw [resetScore_eq]
  show 0 < (ite _ _ _ : Task).counter
  split_ifs with hlow
  · show 0 < (25 : ℤ) + _
    omega
  · rw [not_and, not_le] at hlow
    exact hlow hp

theorem bestOf_max (hne : l ≠ []) (hlow : ∀ p ∈ l, 0 ≤ goodness s p) :
    ∃ p ∈ l, bestOf s l (-1000) none = (goodness s p, some p) ∧
      ∀ q ∈ l, goodness s q ≤ goodness s p := by
  obtain ⟨-, hmax, heq | ⟨p, hp, heq⟩⟩ := bestOf_spec s l (-1000) none
  · obtain ⟨q, hq⟩ := List.exists_mem_of_ne_nil l hne
    have hqmax := hmax q hq
    have hqlow := hlow q hq
    rw [heq] at hqmax
    omega
  · rw [heq] at hmax
    exact ⟨p, hp, heq, hmax⟩

/-- **The scheduler picks a task of the queue with the largest counter, which is positive. It
resets counters at most once, if all of the queue were zero, and then only those that are
zero.** -/
theorem pickNextTaskSimple_best (hcycle : Cycle s.links .head (l.map .task)) (hne : l ≠ [])
    (hring : ∀ p ∈ l, p ∈ s.tasks) (hcounter : ∀ p ∈ s.tasks, 0 ≤ (s.task p).counter) :
    ∃ task', ∃ p ∈ l, (∀ n, pickLoop (n + 2) s = ({ s with task := task' }, some p)) ∧
      (∀ q ∈ l, (task' q).counter ≤ (task' p).counter) ∧ 0 < (task' p).counter ∧
      (task' = s.task ∨ (∀ q ∈ l, (s.task q).counter = 0) ∧ ∀ q, task' q = s.task q ∨
        (s.task q).counter = 0 ∧
          task' q = { s.task q with counter := defCounter + (s.task q).priority }) := by
  have hlow : ∀ p ∈ l, 0 ≤ goodness s p := fun p hp => hcounter p (hring p hp)
  obtain ⟨p, hp, hbest, hmax⟩ := bestOf_max hne hlow
  have hlist := rqList_eq hcycle hring
  by_cases hzero : goodness s p = 0
  · -- all counters of the queue are zero: the second round is the last
    have hpos : ∀ q ∈ l, 0 < goodness (resetScore s) q := fun q hq => resetScore_pos (hring q hq)
    obtain ⟨q, hq, hbest', hmax'⟩ := bestOf_max hne fun q hq => le_of_lt (hpos q hq)
    have hreset : { s with task := (resetScore s).task } = resetScore s := by rw [resetScore_eq]
    have hlist' : rqList (resetScore s) = l := by
      rw [← hreset]
      exact hlist
    refine ⟨(resetScore s).task, q, hq, fun n => ?_, hmax', hpos q hq, .inr ⟨?_, ?_⟩⟩
    · rw [pickLoop, hlist, hbest]
      dsimp only
      rw [if_pos hzero, pickLoop, hlist', hbest', hreset]
      exact if_neg (ne_of_gt (hpos q hq))
    · intro r hr
      exact le_antisymm (le_of_le_of_eq (hmax r hr) hzero) (hlow r hr)
    · intro r
      rw [resetScore_eq]
      show (ite _ _ _ : Task) = _ ∨ _ ∧ (ite _ _ _ : Task) = _
      split_ifs with hr
      · exact .inr ⟨le_antisymm hr.2 (hcounter r hr.1), rfl⟩
      · exact .inl rfl
  · refine ⟨s.task, p, hp, fun n => ?_, hmax, lt_of_le_of_ne (hlow p hp) (Ne.symm hzero), .inl rfl⟩
    rw [pickLoop, hlist, hbest]
    exact if_neg hzero

/-- The initial task and another one are on the queue and have used up their time. -/
def spent : St :=
  let s := enqueueTask (copyProcess (boot 1) 2) 1
  { s with task := fun p => { s.task p with counter := 0, priority := p } }

theorem pickNextTaskSimple_best_spent :
    (spent.task 1).counter = 0 ∧ (spent.task 2).counter = 0 ∧
    (pickNextTaskSimple spent).2 = some 2 ∧
    ∃ task', ∃ p ∈ [1, 2], (∀ n, pickLoop (n + 2) spent = ({ spent with task := task' }, some p)) ∧
      (∀ q ∈ [1, 2], (task' q).counter ≤ (task' p).counter) ∧ 0 < (task' p).counter := by
  refine ⟨rfl, rfl, by decide, ?_⟩
  obtain ⟨task', p, hp, hpick, hmax, hpos, -⟩ := pickNextTaskSimple_best (s := spent) (l := [1, 2])
    ⟨by decide, rfl, rfl, rfl, rfl, rfl, rfl⟩ (by simp) (by decide) (by decide)
  exact ⟨task', p, hp, hpick, hmax, hpos⟩

end RiscvBm.RunQueue

import Mathlib.Data.Int.Notation
import Mathlib.Data.List.Nodup
import Mathlib.Data.List.Perm.Subperm

/-!
# Wake-ups of a wait queue (`kernel/wait.c`, `kernel/wait.h`)

`__wake_up` walks over the queue and calls the wake function of each entry. After
`WAITQUEUE_WALK_BREAK_CNT + 1` calls it leaves a bookmark on the queue and drops the lock, and
others may remove and add entries before it goes on behind the bookmark.

An entry that is not exclusive is added behind those with `WQ_FLAG_PRIORITY` at the front. The
bookmark is none of them, so the new entry never comes behind it: what is behind the bookmark
only gets less (`ops_behind`), and with it the walk ends.

The walk is meant to end after `nr_exclusive` exclusive entries, but as `try_to_wake_up` returns 0
none of them is ever counted.
-/

namespace RiscvBm.WaitQueue

/-! ## §1  The queue -/

/-- `struct wait_queue_entry`. The wake function is `autoremove_wake_function`, or else
`default_wake_function`. -/
structure Entry where
  addr : ℕ
  exclusive : Bool
  bookmark : Bool
  priority : Bool
  autoremove : Bool
deriving DecidableEq

/-- The entry on the stack of `__wake_up_common_lock`, as it is while it is on the queue. -/
def bookmark : Entry := ⟨0, false, true, false, false⟩

def waitqueueWalkBreakCnt : ℕ := 64

/-- `try_to_wake_up` returns 0 whether it wakes the task or not. -/
def tryToWakeUp (_ : Entry) : ℤ := 0

/-- `__add_wait_queue` -/
def addWaitQueue (e : Entry) : List Entry → List Entry
  | [] => [e]
  | wq :: rest => if wq.priority then wq :: addWaitQueue e rest else e :: wq :: rest

/-- `prepare_to_wait_event`; an entry is linked to itself as long as it is on no queue. -/
def prepareToWaitEvent (q : List Entry) (e : Entry) : List Entry :=
  if e ∈ q then q else if e.exclusive then q ++ [e] else addWaitQueue e q

def finishWait (q : List Entry) (e : Entry) : List Entry := q.erase e

/-- What others do while the lock is free. -/
inductive Op where
  | prepare (e : Entry)
  | finish (e : Entry)

def Op.entry : Op → Entry
  | .prepare e => e
  | .finish e => e

def Op.apply (q : List Entry) : Op → List Entry
  | .prepare e => prepareToWaitEvent q e
  | .finish e => finishWait q e

/-- A wake-up: the queue, whether the bookmark is on it, the wake functions called and how
often the lock was dropped. -/
structure St where
  queue : List Entry
  marked : Bool
  nrExclusive : ℤ
  called : List Entry
  drops : ℕ

/-- The loop of `__wake_up_common`; the entries `done` are behind it and `cnt` of them were
called. -/
def wakeUpLoop (done : List Entry) : List Entry → ℕ → St → St
  | [], _, s => { s with queue := done }
  | curr :: rest, cnt, s =>
    if curr.bookmark then wakeUpLoop (done ++ [curr]) rest cnt s
    else
      let ret := tryToWakeUp curr
      let left := if curr.autoremove ∧ ret ≠ 0 then done else done ++ [curr]
      let nr := if ret ≠ 0 ∧ curr.exclusive then s.nrExclusive - 1 else s.nrExclusive
      let s := { s with called := s.called ++ [curr], nrExclusive := nr }
      if ret < 0 ∨ (ret ≠ 0 ∧ curr.exclusive ∧ nr = 0) then { s with queue := left ++ rest }
      else if waitqueueWalkBreakCnt < cnt + 1 ∧ rest ≠ [] then
        { s with queue := left ++ bookmark :: rest, marked := true }
      else wakeUpLoop left rest (cnt + 1) s

/-- `__wake_up_common` -/
def wakeUpCommon (s : St) : St :=
  if s.marked then
    wakeUpLoop (s.queue.takeWhile (· ≠ bookmark)) (s.queue.dropWhile (· ≠ bookmark)).tail 0
      { s with marked := false }
  else wakeUpLoop [] s.queue 0 s

/-- `__wake_up_common_lock`; `env k` is done while the lock is free for the `k`-th time. -/
def wakeUpCommonLock (env : ℕ → List Op) : ℕ → St → Option St
  | 0, _ => none
  | fuel + 1, s =>
    let s := wakeUpCommon s
    if s.marked then
      wakeUpCommonLock env fuel
        { s with queue := (env s.drops).foldl Op.apply s.queue, drops := s.drops + 1 }
    else some s

/-- `__wake_up` -/
def wakeUp (env : ℕ → List Op) (fuel : ℕ) (q : List Entry) (nrExclusive : ℤ) : Option St :=
  wakeUpCommonLock env fuel ⟨q, false, nrExclusive, [], 0⟩

variable {q x y done rest : List Entry} {e : Entry} {env : ℕ → List Op} {s : St} {cnt fuel : ℕ}

/-! ## §2  One hold of the lock -/

/-- Either everyone is called, or the bookmark is left behind the last one called. -/
theorem wakeUpLoop_spec (hplain : ∀ e ∈ rest, e.bookmark = false) :
    wakeUpLoop done rest cnt s =
      { s with queue := done ++ rest, called := s.called ++ rest } ∨
    ∃ a b, a ≠ [] ∧ rest = a ++ b ∧ wakeUpLoop done rest cnt s =
      { s with queue := done ++ a ++ bookmark :: b, called := s.called ++ a, marked := true } := by
  induction rest generalizing done cnt s with
  | nil =>
    left
    rw [wakeUpLoop, List.append_nil, List.append_nil]
  | cons curr rest ih =>
    have hcurr := hplain curr List.mem_cons_self
    have hrest : ∀ e ∈ rest, e.bookmark = false := fun e he => hplain e (List.mem_cons_of_mem _ he)
    have hstep : wakeUpLoop done (curr :: rest) cnt s =
        if waitqueueWalkBreakCnt < cnt + 1 ∧ rest ≠ [] then
          { s with
            queue := done ++ [curr] ++ bookmark :: rest, called := s.called ++ [curr],
            marked := true }
        else wakeUpLoop (done ++ [curr]) rest (cnt + 1)
          { s with called := s.called ++ [curr] } := by
      simp only [wakeUpLoop, hcurr, tryToWakeUp, ne_eq, not_true_eq_false, and_false, false_and,
        Int.lt_irrefl, or_self, if_false, Bool.false_eq_true]
    rw [hstep]
    split_ifs
    · exact Or.inr ⟨[curr], rest, List.cons_ne_nil _ _, rfl, rfl⟩
    · rcases ih hrest with h | ⟨a, b, -, rfl, h⟩
      · left
        rw [h, List.append_assoc, List.append_assoc, List.singleton_append]
      · right
        refine ⟨curr :: a, b, List.cons_ne_nil _ _, rfl, ?_⟩
        rw [h]
        simp

/-! ## §3  While the lock is free -/

theorem addWaitQueue_bookmark :
    ∃ x', addWaitQueue e (x ++ bookmark :: y) = x' ++ bookmark :: y ∧ ∀ f ∈ x', f = e ∨ f ∈ x := by
  induction x with
  | nil => exact ⟨[e], rfl, fun f hf => Or.inl (List.mem_singleton.mp hf)⟩
  | cons wq x ih =>
    obtain ⟨x', heq, hmem⟩ := ih
    by_cases hp : wq.priority = true
    · refine ⟨wq :: x', ?_, ?_⟩
      · rw [List.cons_append, addWaitQueue, if_pos hp, heq, List.cons_append]
      · intro f hf
        rcases List.mem_cons.mp hf with rfl | hf
        · exact Or.inr List.mem_cons_self
        · exact (hmem f hf).imp_right (List.mem_cons_of_mem wq)
    · refine ⟨e :: wq :: x, ?_, fun f hf => List.mem_cons.mp hf⟩
      rw [List.cons_append, addWaitQueue, if_neg hp]
      rfl

/-- The entries `y` behind the bookmark are those of `y₀` without some that were removed. -/
structure Behind (gone : Entry → Prop) (y₀ y : List Entry) (q : List Entry) : Prop where
  queue : ∃ x, q = x ++ bookmark :: y ∧ ∀ e ∈ x, e.bookmark = false
  order : y.Sublist y₀
  all : ∀ e ∈ y₀, e ∈ y ∨ gone e

theorem op_behind {op : Op} (hx : ∀ e ∈ x, e.bookmark = false)
    (hop : op.entry.bookmark = false ∧ op.entry.exclusive = false) :
    ∃ y', Behind (fun e => op = .finish e) y y' (op.apply (x ++ bookmark :: y)) := by
  cases op with
  | prepare e =>
    refine ⟨y, ?_, List.Sublist.refl y, fun _ he => Or.inl he⟩
    obtain ⟨x', heq, hmem⟩ := addWaitQueue_bookmark (e := e) (x := x) (y := y)
    show ∃ z, prepareToWaitEvent _ e = _ ∧ _
    unfold prepareToWaitEvent
    split_ifs with hin hexcl
    · exact ⟨x, rfl, hx⟩
    · exact absurd (hop.2.symm.trans hexcl) Bool.false_ne_true
    · refine ⟨x', heq, fun f hf => ?_⟩
      rcases hmem f hf with rfl | hf
      · exact hop.1
      · exact hx f hf
  | finish e =>
    have hne : bookmark ≠ e := by
      rintro rfl
      cases hop.1
    show ∃ y', Behind _ y y' ((x ++ bookmark :: y).erase e)
    by_cases he : e ∈ x
    · rw [List.erase_append_left _ he]
      refine ⟨y, ⟨x.erase e, rfl, fun f hf => hx f (List.mem_of_mem_erase hf)⟩,
        List.Sublist.refl y, fun _ hf => Or.inl hf⟩
    · rw [List.erase_append_right _ he, List.erase_cons_tail (by simpa using hne)]
      refine ⟨y.erase e, ⟨x, rfl, hx⟩, List.erase_sublist, fun f hf => ?_⟩
      by_cases hfe : f = e
      · exact Or.inr (hfe ▸ rfl)
      · exact Or.inl ((List.mem_erase_of_ne hfe).mpr hf)

theorem ops_behind {ops : List Op} (hx : ∀ e ∈ x, e.bookmark = false)
    (hops : ∀ op ∈ ops, op.entry.bookmark = false ∧ op.entry.exclusive = false) :
    ∃ y', Behind (fun e => .finish e ∈ ops) y y' (ops.foldl Op.apply (x ++ bookmark :: y)) := by
  induction ops generalizing x y with
  | nil => exact ⟨y, ⟨x, rfl, hx⟩, List.Sublist.refl y, fun _ he => Or.inl he⟩
  | cons op ops ih =>
    obtain ⟨y₁, ⟨x₁, heq, hx₁⟩, hsub, hall⟩ := op_behind (y := y) hx (hops op List.mem_cons_self)
    obtain ⟨y₂, hqueue, hsub₂, hall₂⟩ :=
      ih (x := x₁) (y := y₁) hx₁ fun o ho => hops o (List.mem_cons_of_mem _ ho)
    rw [List.foldl_cons, heq]
    refine ⟨y₂, hqueue, hsub₂.trans hsub, fun e he => ?_⟩
    rcases hall e he with he | rfl
    · exact (hall₂ e he).imp_right (List.mem_cons_of_mem op)
    · exact Or.inr List.mem_cons_self

/-! ## §4  A wake-up -/

/-- Nobody removes the entry while the lock is dropped `n` times. -/
def Stays (env : ℕ → List Op) (n : ℕ) (e : Entry) : Prop := ∀ k < n, .finish e ∉ env k

/-- The queue was `q` when the wake-up began, and the entries `y` are still to be called. -/
structure Paused (env : ℕ → List Op) (q y : List Entry) (s : St) : Prop where
  order : (s.called ++ y).Sublist q
  all : ∀ e ∈ q, Stays env s.drops e → e ∈ s.called ++ y
  queue : ∃ x, (∀ e ∈ x, e.bookmark = false) ∧
    wakeUpCommon s = wakeUpLoop x y 0 { s with marked := false }

/-- Every entry that stays is called once, in the order of the queue, and no bookmark is left. -/
structure Woken (env : ℕ → List Op) (q : List Entry) (s : St) : Prop where
  order : s.called.Sublist q
  once : ∀ e ∈ q, Stays env s.drops e → s.called.count e = 1
  unmarked : ∀ e ∈ s.queue, e.bookmark = false

theorem wakeUpCommon_marked (hx : ∀ e ∈ x, e.bookmark = false) (hq : s.queue = x ++ bookmark :: y)
    (hs : s.marked = true) : wakeUpCommon s = wakeUpLoop x y 0 { s with marked := false } := by
  have hne : ∀ e ∈ x, decide (e ≠ bookmark) = true := by
    intro e he
    apply decide_eq_true
    rintro rfl
    cases hx bookmark he
  rw [wakeUpCommon, if_pos hs, hq, List.takeWhile_append_of_pos hne,
    List.dropWhile_append_of_pos hne, List.takeWhile_cons_of_neg (by simp),
    List.dropWhile_cons_of_neg (by simp), List.append_nil, List.tail_cons]

/-- The entries behind the bookmark get fewer with each hold of the lock. -/
theorem Paused.wakes (hnodup : q.Nodup) (hq : ∀ e ∈ q, e.bookmark = false)
    (henv : ∀ k, ∀ op ∈ env k, op.entry.bookmark = false ∧ op.entry.exclusive = false)
    (h : Paused env q y s) (hfuel : y.length < fuel) :
    ∃ s', wakeUpCommonLock env fuel s = some s' ∧ Woken env q s' := by
  induction fuel generalizing y s with
  | zero => exact absurd hfuel (Nat.not_lt_zero _)
  | succ fuel ih =>
    obtain ⟨x, hx, hcommon⟩ := h.queue
    have hy : ∀ e ∈ y, e.bookmark = false :=
      fun e he => hq e (h.order.subset (List.mem_append_right _ he))
    rw [wakeUpCommonLock, hcommon]
    rcases @wakeUpLoop_spec x y _ 0 hy with hloop | ⟨a, b, hne, rfl, hloop⟩
    · rw [hloop]
      refine ⟨_, rfl, h.order, fun e he hk => ?_, fun e he => ?_⟩
      · exact List.count_eq_one_of_mem (hnodup.sublist h.order) (h.all e he hk)
      · exact (List.mem_append.mp he).elim (hx e) (hy e)
    · rw [hloop]
      have hxa : ∀ e ∈ x ++ a, e.bookmark = false :=
        fun e he => (List.mem_append.mp he).elim (hx e) fun he => hy e (List.mem_append_left _ he)
      obtain ⟨y', ⟨x', hqueue, hx'⟩, hsub, hall⟩ := ops_behind (y := b) hxa (henv s.drops)
      have horder := h.order
      rw [← List.append_assoc] at horder
      apply ih (y := y')
      · refine ⟨(hsub.append_left _).trans horder, fun e he hk => ?_,
          x', hx', wakeUpCommon_marked hx' hqueue rfl⟩
        have hmem := h.all e he fun k hlt => hk k (Nat.lt_succ_of_lt hlt)
        rw [← List.append_assoc] at hmem
        rcases List.mem_append.mp hmem with hmem | hmem
        · exact List.mem_append_left _ hmem
        · exact List.mem_append_right _ ((hall e hmem).resolve_right (hk _ (Nat.lt_succ_self _)))
      · have hlen := hsub.length_le
        have hpos := List.length_pos_of_ne_nil hne
        rw [List.length_append] at hfuel
        omega

theorem Paused.start (env : ℕ → List Op) (q : List Entry) (nrExclusive : ℤ) :
    Paused env q q ⟨q, false, nrExclusive, [], 0⟩ :=
  ⟨List.Sublist.refl q, fun _ he _ => he, [], fun _ he => absurd he List.not_mem_nil, rfl⟩

/-- **A wake-up calls everyone once**, whatever others do to the queue while the lock is free:
it ends after at most one hold of the lock for each entry. -/
theorem wakeUp_once (env : ℕ → List Op) (q : List Entry) (nrExclusive : ℤ) (hnodup : q.Nodup)
    (hq : ∀ e ∈ q, e.bookmark = false)
    (henv : ∀ k, ∀ op ∈ env k, op.entry.bookmark = false ∧ op.entry.exclusive = false) :
    ∃ s, wakeUp env (q.length + 1) q nrExclusive = some s ∧ Woken env q s :=
  (Paused.start env q nrExclusive).wakes hnodup hq henv (Nat.lt_succ_self _)

/-- The entry that `init_wait_entry` makes. -/
def waiter (addr : ℕ) : Entry := ⟨addr, false, false, false, true⟩

/-- Of 70 waiters, one of the last five goes away and another one comes. -/
theorem wakeUp_once_seventy : ∃ s, wakeUp (fun _ => [.finish (waiter 66), .prepare (waiter 70)]) 71
    ((List.range 70).map waiter) 1 = some s ∧
      Woken (fun _ => [.finish (waiter 66), .prepare (waiter 70)])
        ((List.range 70).map waiter) s := by
  apply wakeUp_once
  · decide
  · decide
  · intro _ op hop
    simp only [List.mem_cons, List.not_mem_nil, or_false] at hop
    rcases hop with rfl | rfl
    · decide
    · decide

/-! ## §5  Exclusive waiters -/

/-- What `wait.h` says of a wake-up with `nr_exclusive` 1: of the exclusive waiters one is woken,
and everyone else is. -/
structure WakesOne (q called : List Entry) : Prop where
  others : ∀ e ∈ q, e.exclusive = false → called.count e = 1
  one : (∃ e ∈ q, e.exclusive = true) → called.countP (·.exclusive) = 1

/-- With nobody else at the queue, everyone is called. -/
theorem wakeUp_quiet (hnodup : q.Nodup) (hq : ∀ e ∈ q, e.bookmark = false) (nrExclusive : ℤ) :
    ∃ s, wakeUp (fun _ => []) (q.length + 1) q nrExclusive = some s ∧ s.called = q := by
  obtain ⟨s, hs, horder, honce, -⟩ := (Paused.start _ q nrExclusive).wakes hnodup hq
    (fun _ _ hop => absurd hop List.not_mem_nil) (Nat.lt_succ_self _)
  refine ⟨s, hs, horder.eq_of_length_le ?_⟩
  have hsub : q ⊆ s.called := fun e he =>
    List.count_pos_iff.mp (by rw [honce e he fun _ _ => List.not_mem_nil]; exact Nat.one_pos)
  exact (List.subperm_of_subset hnodup hsub).length_le

/-- **All exclusive waiters are woken**: `try_to_wake_up` returns 0, so none of them is counted,
and a wake-up does what `wait.h` says exactly if there are not two of them. -/
theorem wakesOne_iff (q : List Entry) (hnodup : q.Nodup) (hq : ∀ e ∈ q, e.bookmark = false) :
    ∃ s, wakeUp (fun _ => []) (q.length + 1) q 1 = some s ∧
      (WakesOne q s.called ↔ q.countP (·.exclusive) ≤ 1) := by
  obtain ⟨s, hs, hcalled⟩ := wakeUp_quiet hnodup hq 1
  refine ⟨s, hs, ?_⟩
  rw [hcalled]
  constructor
  · intro h
    by_contra hlt
    have hpos : 0 < q.countP (·.exclusive) := by omega
    exact hlt (Nat.le_of_eq (h.one (List.countP_pos_iff.mp hpos)))
  · intro hle
    refine ⟨fun e he _ => List.count_eq_one_of_mem hnodup he, fun hex => ?_⟩
    have hpos : 0 < q.countP (·.exclusive) := List.countP_pos_iff.mpr hex
    omega

/-- The entry of an exclusive waiter. -/
def exclusiveWaiter (addr : ℕ) : Entry := { waiter addr with exclusive := true }

theorem wakesOne_iff_mixed :
    let q := [exclusiveWaiter 0, waiter 1, waiter 2].foldl prepareToWaitEvent []
    q.Nodup ∧ ∃ s, wakeUp (fun _ => []) (q.length + 1) q 1 = some s ∧
      (WakesOne q s.called ↔ q.countP (·.exclusive) ≤ 1) :=
  ⟨by decide, wakesOne_iff _ (by decide) (by decide)⟩

/-- Two exclusive waiters are both woken. -/
theorem not_wakesOne_twoExclusive :
    let q := [exclusiveWaiter 0, waiter 1, exclusiveWaiter 2].foldl prepareToWaitEvent []
    ∃ s, wakeUp (fun _ => []) (q.length + 1) q 1 = some s ∧ ¬ WakesOne q s.called := by
  refine ⟨_, rfl, fun h => ?_⟩
  have hone := h.one ⟨exclusiveWaiter 0, by decide, rfl⟩
  exact absurd hone (by decide)

end RiscvBm.WaitQueue

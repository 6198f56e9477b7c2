import RiscvBm.Lib.Transition

/-!
# Parents and children

`copy_process`, `do_exit`, `do_wait` and `free_zombie_task` on one CPU. A task is a block of
memory; its parent pointer is an address, and blocks that were freed are handed out again for
later tasks. So that two tasks at one address can be told apart, every task carries the number
of its birth, and the number of the task that forked it.

Nobody looks after the children of a task that is freed. As long as only tasks without
children are freed, parent pointers are right and `get_child_task` returns the caller's own
children; with the first other one the pointer dangles (`consistent_iff_childless`).
-/

namespace RiscvBm.Proc

open Transition Function

/-! ## §1  Tasks -/

inductive TaskState where
  | running      -- or asleep
  | zombie
  | exitZombie
deriving DecidableEq, Repr

structure Task where
  parent : Option ℕ
  state : TaskState
  /-- `p->mm` is not null -/
  mm : Bool
  /-- history: the number of the task, counted over all forks -/
  serial : ℕ
  /-- history: the number of the task that forked it -/
  forker : ℕ
  /-- history: the number of the task that it was re-parented to -/
  adopter : Option ℕ
deriving DecidableEq, Repr

/-- `init_task`; it does not come from the page allocator. -/
def initTask : ℕ := 0

structure St where
  /-- the task structs that are allocated, by address -/
  mem : ℕ → Option Task
  /-- the task list, from `init_task->next_task` on -/
  list : List ℕ
  /-- history: the number of tasks so far -/
  births : ℕ

def init : St where
  mem := update (fun _ => none) initTask (some ⟨none, .running, false, 0, 0, none⟩)
  list := []
  births := 1

def St.parent (s : St) (p : ℕ) : Option ℕ := (s.mem p).bind Task.parent

def St.isZombie (s : St) (p : ℕ) : Bool := (s.mem p).any fun t => t.state = .zombie

/-- `get_child_task`, called by `cur`. -/
def getChildTask (s : St) (cur : ℕ) : Option ℕ := s.list.find? fun p => s.parent p = some cur

/-- `get_zombie_task`: the search starts behind the first task of the list. -/
def getZombieTask (s : St) (cur : ℕ) : Option ℕ :=
  (s.list.drop 1).find? fun p => s.parent p = some cur ∧ s.isZombie p

/-- `free_task`. Without an address space `p->mm->mmap` is a null pointer: `none`. -/
def freeTask (s : St) (p : ℕ) : Option St :=
  match s.mem p with
  | none => none
  | some t =>
    if t.state ≠ .zombie then some s
    else if ¬ t.mm then none
    else some { s with mem := update s.mem p none, list := s.list.erase p }

inductive Act where
  | fork (cur p : ℕ) (kthread : Bool)   -- the allocator returns the block `p`
  | userMode (cur : ℕ)                  -- `move_to_user_mode` gives a kernel thread an `mm`
  | exit (cur : ℕ)
  | wait (cur : ℕ)                      -- one round of `do_wait`
  | freeZombie                          -- `free_zombie_task`, called by `init_task`
deriving DecidableEq, Repr

/-- `cur` runs with the task struct `t`. -/
def runs (s : St) (cur : ℕ) : Option Task :=
  (s.mem cur).filter fun t => t.state = .running

/-- One step; `none` where the action is not enabled or the kernel panics. -/
def step (s : St) : Act → Option St
  | .fork cur p kthread =>
    match runs s cur with
    | none => none
    | some t =>
      -- a copy of a missing address space is a panic
      if (s.mem p).isSome ∨ (¬ kthread ∧ ¬ t.mm) then none
      else some {
        mem := update s.mem p
          (some ⟨some cur, .running, !kthread, s.births, t.serial, none⟩)
        list := s.list ++ [p]
        births := s.births + 1 }
  | .userMode cur =>
    (runs s cur).map fun t => { s with mem := update s.mem cur (some { t with mm := true }) }
  | .exit cur =>
    if cur = initTask then none
    else (runs s cur).map fun t =>
      { s with
        mem := update s.mem cur (some (match t.parent with
          | none => { t with state := .zombie, parent := some initTask, adopter := some 0 }
          | some _ => { t with state := .zombie })) }
  | .wait cur =>
    match runs s cur with
    | none => none
    | some _ =>
      match getChildTask s cur with
      | none => none
      | some child => if s.isZombie child then freeTask s child else some s
  | .freeZombie =>
    match getZombieTask s initTask with
    | none => some s
    | some p => freeTask s p

/-! ## §2  Consistency -/

/-- `t` was forked by `q` or re-parented to it. -/
def IsChild (t q : Task) : Prop := t.forker = q.serial ∨ t.adopter = some q.serial

instance (t q : Task) : Decidable (IsChild t q) := inferInstanceAs (Decidable (_ ∨ _))

/-- Parent pointers refer to tasks that are not freed, and a task finds only its own
children. -/
structure Consistent (s : St) : Prop where
  parents : ∀ p ∈ s.list, ∀ t, s.mem p = some t → ∀ q, t.parent = some q →
    ∃ u, s.mem q = some u ∧ IsChild t u
  children : ∀ cur u p, s.mem cur = some u → getChildTask s cur = some p →
    ∃ t, s.mem p = some t ∧ IsChild t u

/-- The task that a step frees, if any. -/
def victim (s : St) : Act → Option ℕ
  | .wait cur => (getChildTask s cur).filter s.isZombie
  | .freeZombie => getZombieTask s initTask
  | _ => none

/-- The task to be freed is nobody's parent. -/
def Childless (s : St) (a : Act) : Prop :=
  ∀ p, victim s a = some p → ∀ q ∈ s.list, s.parent q ≠ some p

/-! ## §3  What the steps do -/

variable {s s' : St} {a : Act} {p cur : ℕ} {t : Task}

theorem of_runs (h : runs s cur = some t) : s.mem cur = some t ∧ t.state = .running := by
  rw [runs, Option.filter_eq_some_iff] at h
  exact ⟨h.1, of_decide_eq_true h.2⟩

theorem of_isZombie (h : s.isZombie p = true) : ∃ t, s.mem p = some t ∧ t.state = .zombie := by
  obtain ⟨t, ht, hz⟩ := (Option.any_eq_true _ _).mp h
  exact ⟨t, ht, of_decide_eq_true hz⟩

/-- The block of a zombie goes, and its place in the list. -/
theorem of_freeTask (hz : s.isZombie p = true) (h : freeTask s p = some s') :
    s' = { s with mem := update s.mem p none, list := s.list.erase p } := by
  obtain ⟨t, ht, hstate⟩ := of_isZombie hz
  rw [freeTask, ht] at h
  dsimp only at h
  rw [if_neg (not_not.mpr hstate)] at h
  split_ifs at h
  exact (Option.some.inj h).symm

theorem mem_of_getChildTask (h : getChildTask s cur = some p) :
    p ∈ s.list ∧ s.parent p = some cur := by
  unfold getChildTask at h
  exact ⟨List.mem_of_find?_eq_some h, by simpa using List.find?_some h⟩

theorem mem_of_getZombieTask (h : getZombieTask s cur = some p) :
    p ∈ s.list ∧ s.isZombie p = true := by
  unfold getZombieTask at h
  have hfound := List.find?_some h
  simp only [decide_eq_true_eq] at hfound
  exact ⟨List.mem_of_mem_drop (List.mem_of_find?_eq_some h), hfound.2⟩

/-- A step frees its victim, or changes the tasks without freeing one. -/
theorem step_cases (h : step s a = some s') :
    (∃ p, victim s a = some p ∧ p ∈ s.list ∧
      s' = { s with mem := update s.mem p none, list := s.list.erase p }) ∨
    (victim s a = none ∧
      ((∃ cur p t kthread, s.mem cur = some t ∧ s.mem p = none ∧ s' = {
          mem := update s.mem p (some ⟨some cur, .running, !kthread, s.births, t.serial, none⟩)
          list := s.list ++ [p]
          births := s.births + 1 }) ∨
        (∃ cur t t', s.mem cur = some t ∧ t'.serial = t.serial ∧ t'.forker = t.forker ∧
          ((t'.parent = t.parent ∧ t'.adopter = t.adopter) ∨
            (t.parent = none ∧ t'.parent = some initTask ∧ t'.adopter = some 0)) ∧
          (cur = initTask → t'.parent = t.parent) ∧
          s' = { s with mem := update s.mem cur (some t') }) ∨
        s' = s)) := by
  cases a with
  | fork cur p kthread =>
    right
    simp only [step] at h
    split at h
    · cases h
    · next t ht =>
      split_ifs at h with hguard
      push Not at hguard
      refine ⟨rfl, Or.inl ⟨cur, p, t, kthread, (of_runs ht).1, ?_, (Option.some.inj h).symm⟩⟩
      exact Option.not_isSome_iff_eq_none.mp (by simpa using hguard.1)
  | userMode cur =>
    right
    obtain ⟨t, ht, rfl⟩ := Option.map_eq_some_iff.mp h
    exact ⟨rfl, Or.inr (Or.inl ⟨cur, t, { t with mm := true }, (of_runs ht).1, rfl, rfl,
      Or.inl ⟨rfl, rfl⟩, fun _ => rfl, rfl⟩)⟩
  | exit cur =>
    right
    simp only [step] at h
    split_ifs at h with hinit
    obtain ⟨t, ht, rfl⟩ := Option.map_eq_some_iff.mp h
    refine ⟨rfl, Or.inr (Or.inl ⟨cur, t, _, (of_runs ht).1, ?_, ?_, ?_,
      fun h => absurd h hinit, rfl⟩)⟩
    · split <;> rfl
    · split <;> rfl
    · split
      · next hparent => exact Or.inr ⟨hparent, rfl, rfl⟩
      · exact Or.inl ⟨rfl, rfl⟩
  | wait cur =>
    simp only [step] at h
    split at h
    · cases h
    split at h
    · cases h
    next child hchild =>
      split_ifs at h with hz
      · left
        exact ⟨child, by rw [victim, hchild, Option.filter_some, if_pos hz],
          (mem_of_getChildTask hchild).1, of_freeTask hz h⟩
      · right
        exact ⟨by rw [victim, hchild, Option.filter_some, if_neg hz],
          Or.inr (Or.inr (Option.some.inj h).symm)⟩
  | freeZombie =>
    simp only [step] at h
    split at h
    · next hnone => exact Or.inr ⟨hnone, Or.inr (Or.inr (Option.some.inj h).symm)⟩
    · next p hp =>
      obtain ⟨hmem, hz⟩ := mem_of_getZombieTask hp
      exact Or.inl ⟨p, hp, hmem, of_freeTask hz h⟩

/-! ## §4  Runs -/

structure Inv (s : St) : Prop where
  nodup : (initTask :: s.list).Nodup
  alive : ∀ p, p ∈ initTask :: s.list ↔ (s.mem p).isSome
  initAlive : ∃ t, s.mem initTask = some t ∧ t.serial = 0 ∧ t.parent = none
  parents : ∀ p t q, s.mem p = some t → t.parent = some q →
    q ≠ p ∧ ∃ u, s.mem q = some u ∧ IsChild t u

theorem inv_init : Inv init where
  nodup := by decide
  alive p := by
    simp only [init, update_apply]
    split_ifs with h <;> simp [h]
  initAlive := ⟨_, rfl, rfl, rfl⟩
  parents p t q hp hq := by
    simp only [init, update_apply] at hp
    split_ifs at hp
    cases hp
    cases hq

theorem Inv.listed (h : Inv s) (hp : p ∈ s.list) : ∃ t, s.mem p = some t :=
  Option.isSome_iff_exists.mp ((h.alive p).mp (List.mem_cons_of_mem _ hp))

theorem parent_of_mem (h : s.mem p = some t) : s.parent p = t.parent := by
  rw [St.parent, h]
  rfl

theorem Inv.consistent (h : Inv s) : Consistent s where
  parents p _ t hp q hq := (h.parents p t q hp hq).2
  children cur u p hcur hchild := by
    obtain ⟨hmem, hparent⟩ := mem_of_getChildTask hchild
    obtain ⟨t, ht⟩ := h.listed hmem
    rw [parent_of_mem ht] at hparent
    obtain ⟨-, v, hv, hc⟩ := h.parents p t cur ht hparent
    rw [hcur] at hv
    cases hv
    exact ⟨t, ht, hc⟩

/-- The block at one address changes. The children of the task in it still find its number there,
and the new task is a child of its own parent. -/
theorem Inv.put {o : Option Task} {list : List ℕ} {births : ℕ} (h : Inv s)
    (hnodup : (initTask :: list).Nodup)
    (halive : ∀ q, q ∈ initTask :: list ↔ if q = p then o.isSome = true else q ∈ initTask :: s.list)
    (hinit : initTask = p → ∃ t, o = some t ∧ t.serial = 0 ∧ t.parent = none)
    (hchildren : ∀ q u v, s.mem q = some u → u.parent = some p → s.mem p = some v →
      ∃ t, o = some t ∧ t.serial = v.serial)
    (hown : ∀ t q, o = some t → t.parent = some q → q ≠ p ∧ ∃ u, s.mem q = some u ∧ IsChild t u) :
    Inv ⟨update s.mem p o, list, births⟩ where
  nodup := hnodup
  alive q := by
    rw [halive]
    dsimp only
    rw [update_apply]
    split_ifs
    · rfl
    · exact h.alive q
  initAlive := by
    dsimp only
    rw [update_apply]
    split_ifs with heq
    · exact hinit heq
    · exact h.initAlive
  parents q u r hq hr := by
    dsimp only at hq ⊢
    by_cases hqp : q = p
    · subst hqp
      rw [update_self] at hq
      have ⟨hne, hfound⟩ := hown u r hq hr
      rw [update_of_ne hne]
      exact ⟨hne, hfound⟩
    · rw [update_of_ne hqp] at hq
      obtain ⟨hne, v, hv, hc⟩ := h.parents q u r hq hr
      refine ⟨hne, ?_⟩
      by_cases hrp : r = p
      · subst hrp
        obtain ⟨t, rfl, hserial⟩ := hchildren q u v hq hr hv
        refine ⟨t, update_self .., ?_⟩
        unfold IsChild
        rwa [hserial]
      · exact ⟨v, by rwa [update_of_ne hrp], hc⟩

/-- Freeing a task that is nobody's parent. -/
theorem Inv.free (h : Inv s) (hp : p ∈ s.list) (hless : ∀ q ∈ s.list, s.parent q ≠ some p) :
    Inv { s with mem := update s.mem p none, list := s.list.erase p } := by
  have hpi : initTask ≠ p := fun heq => (List.nodup_cons.mp h.nodup).1 (heq ▸ hp)
  have herase : initTask :: s.list.erase p = (initTask :: s.list).erase p :=
    (List.erase_cons_tail (by simpa using hpi)).symm
  refine h.put (herase ▸ h.nodup.erase p) ?_ (fun heq => absurd heq hpi) ?_ (by simp)
  · intro q
    rw [herase, h.nodup.mem_erase_iff]
    split_ifs with hq <;> simp [hq]
  · intro q u v hu hparent _
    rcases List.mem_cons.mp ((h.alive q).mpr (by rw [hu]; rfl)) with rfl | hq
    · obtain ⟨t, ht, -, hnone⟩ := h.initAlive
      rw [hu] at ht
      cases ht
      rw [hparent] at hnone
      cases hnone
    · exact absurd ((parent_of_mem hu).trans hparent) (hless q hq)

/-- A new task at a free address. -/
theorem Inv.fork {t' : Task} {births : ℕ} (h : Inv s) (hcur : s.mem cur = some t)
    (hp : s.mem p = none) (hparent : t'.parent = some cur) (hforker : t'.forker = t.serial) :
    Inv { mem := update s.mem p (some t'), list := s.list ++ [p], births := births } := by
  have hpl : p ∉ initTask :: s.list := by
    rw [h.alive, hp]
    simp
  refine h.put ?_ ?_ ?_ ?_ ?_
  · exact (List.perm_append_singleton p _).nodup_iff.mpr (List.nodup_cons.mpr ⟨hpl, h.nodup⟩)
  · intro q
    rw [← List.cons_append, List.mem_append, List.mem_singleton]
    split_ifs with hq <;> simp [hq]
  · exact fun heq => absurd (heq ▸ List.mem_cons_self) hpl
  · intro q u v _ _ hv
    rw [hp] at hv
    cases hv
  · rintro _ q ⟨⟩ hq
    rw [hparent] at hq
    cases hq
    refine ⟨?_, t, hcur, Or.inl hforker⟩
    rintro rfl
    rw [hp] at hcur
    cases hcur

/-- A task changes in place; its parent stays or becomes `init_task`. -/
theorem Inv.change {t' : Task} (h : Inv s) (hcur : s.mem cur = some t)
    (hserial : t'.serial = t.serial) (hforker : t'.forker = t.forker)
    (hparent : (t'.parent = t.parent ∧ t'.adopter = t.adopter) ∨
      (t.parent = none ∧ t'.parent = some initTask ∧ t'.adopter = some 0))
    (hinit : cur = initTask → t'.parent = t.parent) :
    Inv { s with mem := update s.mem cur (some t') } := by
  refine h.put h.nodup ?_ ?_ ?_ ?_
  · intro q
    split_ifs with hq
    · rw [hq, h.alive, hcur]
      rfl
    · rfl
  · rintro rfl
    obtain ⟨u, hu, hzero, hnone⟩ := h.initAlive
    rw [hcur] at hu
    cases hu
    exact ⟨t', rfl, hserial.trans hzero, (hinit rfl).trans hnone⟩
  · intro q u v _ _ hv
    rw [hcur] at hv
    cases hv
    exact ⟨t', rfl, hserial⟩
  · rintro _ q ⟨⟩ hq
    rcases hparent with ⟨heq, hadopt⟩ | ⟨hnone, heq, hadopt⟩
    · obtain ⟨hne, v, hv, hc⟩ := h.parents cur t q hcur (heq ▸ hq)
      refine ⟨hne, v, hv, ?_⟩
      unfold IsChild
      rwa [hforker, hadopt]
    · rw [heq] at hq
      cases hq
      obtain ⟨v, hv, hzero, -⟩ := h.initAlive
      refine ⟨?_, v, hv, Or.inr (by rw [hadopt, hzero])⟩
      rintro rfl
      rw [hinit rfl, hnone] at heq
      cases heq

theorem inv_step (s : St) (a : Act) (s' : St) (h : Inv s) (hc : Childless s a)
    (hs : step s a = some s') : Inv s' := by
  rcases step_cases hs with ⟨p, hv, hp, rfl⟩ | ⟨-, hrest⟩
  · exact h.free hp (hc p hv)
  · rcases hrest with ⟨cur, p, t, k, hcur, hp, rfl⟩ | ⟨cur, t, t', hcur, h₁, h₂, h₃, h₄, rfl⟩ | rfl
    · exact h.fork hcur hp rfl rfl
    · exact h.change hcur h₁ h₂ h₃ h₄
    · exact h

/-- The child of a task that was freed keeps the pointer. -/
theorem dangling_step (s : St) (a : Act) (s' : St) (h : Inv s) (hc : ¬ Childless s a)
    (hs : step s a = some s') : ¬ Consistent s' := by
  intro hcons
  apply hc
  intro p hv q hq hparent
  rcases step_cases hs with ⟨p', hv', -, rfl⟩ | ⟨hnone, -⟩
  · rw [hv] at hv'
    cases hv'
    obtain ⟨t, ht⟩ := h.listed hq
    rw [parent_of_mem ht] at hparent
    have hqp : q ≠ p := (h.parents q t p ht hparent).1.symm
    obtain ⟨u, hu, -⟩ := hcons.parents q ((List.mem_erase_of_ne hqp).mpr hq) t
      (by dsimp only; rw [update_of_ne hqp]; exact ht) p hparent
    dsimp only at hu
    rw [update_self] at hu
    cases hu
  · rw [hv] at hnone
    cases hnone

/-- The process tree is consistent all along a run exactly if every task that the run frees is
nobody's parent at that moment. -/
theorem consistent_iff_childless (as : List Act) :
    Along step Consistent init as ↔ Steps step Childless init as :=
  along_iff_steps (fun _ h => h.consistent) inv_step dangling_step inv_init

/-! ## §5  Three generations -/

/-- `init_task` starts the first user process at 1, which forks 2, which forks 3; 2 exits and
is reaped by 1 while 3 lives. -/
def orphan : List Act :=
  [.fork 0 1 true, .userMode 1, .fork 1 2 false, .fork 2 3 false, .exit 2, .wait 1]

theorem not_consistent_orphan : ¬ Along step Consistent init orphan := by
  intro h
  have hrun : (runFrom step init orphan).any
      (fun s => 3 ∈ s.list ∧ s.parent 3 = some 2 ∧ s.mem 2 = none) = true := by
    decide
  obtain ⟨s, hs, hfacts⟩ := (Option.any_eq_true _ _).mp hrun
  obtain ⟨hlist, hparent, hfreed⟩ := of_decide_eq_true hfacts
  obtain ⟨t, ht, htp⟩ := Option.bind_eq_some_iff.mp hparent
  obtain ⟨u, hu, -⟩ := (h.last hs).parents 3 hlist t ht 2 htp
  rw [hfreed] at hu
  cases hu

/-! ## §6  The child that `do_wait` looks at -/

/-- What one round of `do_wait` comes to. -/
inductive Waited where
  | panic
  | returns (result : Int) (s : St)
  | sleeps (child : ℕ)            -- on `child->wait_childexit`

/-- One round of `do_wait`; `pid` gives the pids of the task structs. -/
def doWait (pid : ℕ → ℕ) (s : St) (cur : ℕ) : Waited :=
  match getChildTask s cur with
  | none => .panic               -- "don't find child thread"
  | some child =>
    if s.isZombie child then (freeTask s child).elim .panic (.returns (pid child))
    else .sleeps child

def Waited.next (s : St) : Waited → Option St
  | .panic => none
  | .returns _ s' => some s'
  | .sleeps _ => some s

theorem step_wait (pid : ℕ → ℕ) (hcur : runs s cur = some t) :
    step s (.wait cur) = (doWait pid s cur).next s := by
  rw [step, hcur, doWait]
  cases getChildTask s cur with
  | none => rfl
  | some child =>
    dsimp only
    split_ifs
    · cases freeTask s child <;> rfl
    · rfl

def children (s : St) (cur : ℕ) : List ℕ := s.list.filter fun p => s.parent p = some cur

/-- Without children the call returns -1. A child that is a zombie is freed and its pid
returned; the caller sleeps only while all its children are alive. -/
structure Reaps (pid : ℕ → ℕ) (s : St) (cur : ℕ) : Prop where
  childless : children s cur = [] → doWait pid s cur = .returns (-1) s
  zombie : (∃ p ∈ children s cur, s.isZombie p = true) → ∃ p ∈ children s cur,
    s.isZombie p = true ∧ ∃ s', freeTask s p = some s' ∧ doWait pid s cur = .returns (pid p) s'
  sleeps : ∀ p, doWait pid s cur = .sleeps p → ∀ q ∈ children s cur, s.isZombie q = false

theorem getChildTask_eq (s : St) (cur : ℕ) : getChildTask s cur = (children s cur).head? :=
  List.head?_filter.symm

theorem freeTask_isSome (hz : s.isZombie p = true) :
    (∃ s', freeTask s p = some s') ↔ ∃ t, s.mem p = some t ∧ t.mm = true := by
  obtain ⟨t, ht, hstate⟩ := of_isZombie hz
  simp only [freeTask, ht, hstate]
  cases hmm : t.mm <;> simp [hmm]

/-- **`do_wait` reaps as it should exactly if the caller has a child, and its first child on the
task list is a zombie with an address space or no child is a zombie.** -/
theorem reaps_iff (pid : ℕ → ℕ) (s : St) (cur : ℕ) :
    Reaps pid s cur ↔ ∃ p l, children s cur = p :: l ∧
      ((s.isZombie p = true ∧ ∃ t, s.mem p = some t ∧ t.mm = true) ∨
        ∀ q ∈ p :: l, s.isZombie q = false) := by
  cases hch : children s cur with
  | nil =>
    refine iff_of_false (fun h => ?_) (by simp)
    have hret := h.childless hch
    rw [doWait, getChildTask_eq, hch] at hret
    cases hret
  | cons p l =>
    have hwait : doWait pid s cur =
        if s.isZombie p then (freeTask s p).elim .panic (.returns (pid p)) else .sleeps p := by
      rw [doWait, getChildTask_eq, hch]
      rfl
    constructor
    · intro h
      refine ⟨p, l, rfl, ?_⟩
      by_cases hz : s.isZombie p = true
      · obtain ⟨q, -, -, s', -, hret⟩ := h.zombie ⟨p, by simp [hch], hz⟩
        rw [hwait, if_pos hz] at hret
        refine .inl ⟨hz, (freeTask_isSome hz).mp ?_⟩
        cases hfree : freeTask s p with
        | none =>
          rw [hfree] at hret
          cases hret
        | some s₁ => exact ⟨s₁, rfl⟩
      · rw [if_neg hz] at hwait
        exact .inr (hch ▸ h.sleeps p hwait)
    · rintro ⟨p', l', heq, hcase⟩
      cases heq
      rcases hcase with ⟨hz, hmm⟩ | halive
      · obtain ⟨s', hfree⟩ := (freeTask_isSome hz).mpr hmm
        rw [if_pos hz, hfree] at hwait
        refine ⟨by simp [hch], fun _ => ⟨p, by simp [hch], hz, s', hfree, hwait⟩, ?_⟩
        intro q hsleep
        rw [hwait] at hsleep
        cases hsleep
      · refine ⟨by simp [hch], ?_, fun _ _ => hch ▸ halive⟩
        rintro ⟨q, hq, hz⟩
        rw [hch] at hq
        rw [halive q hq] at hz
        cases hz

/-- `init_task` with two children, of which the second is a zombie. -/
def secondDead : St where
  mem := update (update init.mem 1 (some ⟨some initTask, .running, true, 1, 0, none⟩)) 2
    (some ⟨some initTask, .zombie, true, 2, 0, none⟩)
  list := [1, 2]
  births := 3

/-- The caller sleeps although its second child is dead. -/
theorem not_reaps_secondDead : ¬ Reaps id secondDead initTask := by
  intro h
  have halive := h.sleeps 1 rfl 2 (by decide)
  exact absurd halive (by decide)

end RiscvBm.Proc

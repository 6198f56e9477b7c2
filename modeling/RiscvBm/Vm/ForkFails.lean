import RiscvBm.Mm.BitOps
import RiscvBm.Proc.RunQueue
import RiscvBm.Vm.Fork

/-!
# When `fork` runs out of something (`kernel/fork.c`)

`copy_process` asks for two pages for the task, a pid, an `mm_struct`, a top-level table, and for
each area a `vm_area_struct` and the pages and tables of the copy. A `Supply` answers these
requests, so that any of them may be refused in any state.

* Without the two pages it returns -1, and nothing has happened.
* Without a pid it calls `free_pages` with the arguments the other way round, and that faults.
* Without an `mm_struct` or a top-level table it panics, `dup_mm failed`.
* Without a `vm_area_struct` it goes on with a null pointer.
* Without a page of the copy the label `err` of `dup_vma_mmap` walks past `MAXVA` and panics.
-/

namespace RiscvBm.Vm

open Radix Wp BitOps Function

/-! ## §1  The resources -/

structure Supply where
  /-- `get_free_page`, as in the rest of the model -/
  alloc : Mem → ℕ
  /-- the first frame that `get_free_pages` would answer with for an order, 0 for none -/
  blocks : ℕ → Mem → ℕ
  /-- whether the `n`-th call of `kmalloc` is answered -/
  kmalloc : ℕ → Bool

structure Sys where
  mem : Mem
  /-- the task list and the run queue -/
  rq : RunQueue.St
  pidTable : ℕ → Bool
  /-- calls of `kmalloc` so far -/
  kmallocs : ℕ

abbrev ForkM := Prog Sys Panic

def Sys.memory : Part Sys Mem := ⟨Sys.mem, fun s m => { s with mem := m }⟩

/-- `THREAD_SIZE` -/
def threadSize : ℕ := 2 ^ 12 * 2

/-- The frames of a block are all free; an answer that is in use counts as none. -/
def FreeBlock (m : Mem) (p order : ℕ) : Prop := p ≠ 0 ∧ ∀ i < 2 ^ order, m.useOf (p + i) = none

instance decidableFreeBlock (m : Mem) (p order : ℕ) : Decidable (FreeBlock m p order) :=
  inferInstanceAs (Decidable (_ ∧ _))

def Mem.takeBlock (m : Mem) (p order : ℕ) : Mem :=
  { m with
    used := (List.range (2 ^ order)).map (fun i => (p + i, .kernel)) ++ m.used
    calls := m.calls + 1 }

def Mem.releaseBlock (m : Mem) (p order : ℕ) : Mem :=
  { m with used := m.used.filter fun e => e.1 < p ∨ p + 2 ^ order ≤ e.1 }

section Functions

variable (sup : Supply)

def getFreePages (order : ℕ) : ForkM (Option ℕ) := do
  let s ← get
  let p := sup.blocks order s.mem
  if FreeBlock s.mem p order then
    modify fun s => { s with mem := s.mem.takeBlock p order }
    pure (some p)
  else pure none

/-- `free_pages`. Below `KERNBASE` there is no page: the descriptor that `virt_to_page` computes
for the address 1 is 32 MB before `mem_map`, where nothing is mapped, and its count is written. -/
def freePages (addr order : ℕ) : ForkM Unit :=
  if addr < 0x80000000 then throw .badArea
  else modify fun s => { s with mem := s.mem.releaseBlock (addr / pgsize) order }

/-- `find_next_zero_bit(pid_table, MAX_PID + 1, 0)`, `none` for no bit. -/
def nextPid (pidTable : ℕ → Bool) : Option ℕ :=
  (List.range (maxPid + 1)).find? fun pid => pidTable pid = false

def getFreePid : ForkM (Option ℕ) := do
  let s ← get
  match nextPid s.pidTable with
  | none => pure none
  | some pid => do
    modify fun s => { s with pidTable := update s.pidTable pid true }
    pure (some pid)

def kmalloc : ForkM Bool := do
  let s ← get
  modify fun s => { s with kmallocs := s.kmallocs + 1 }
  pure (sup.kmalloc s.kmallocs)

/-! ## §2  `copy_process` -/

/-- The loop of `dup_mmap`; `vm_area_dup` returns NULL when `kmalloc` does, and nothing looks. -/
def dupAreas (oldpt newpt : ℕ) : List Vma → ForkM Unit
  | [] => pure ()
  | v :: l => do
    if ← kmalloc sup then
      let _ ← zoom Sys.memory (dupVmaMmap sup.alloc oldpt newpt v)
      dupAreas oldpt newpt l
    else throw .nullPointer

/-- `dup_mm`; the result is whether it is not NULL. -/
def dupMmStruct (mm : Mm) : ForkM Bool := do
  if ← kmalloc sup then
    match ← zoom Sys.memory (copyKernelTbl sup.alloc) with
    | none => pure false
    | some pagetable => do
      dupAreas sup mm.pagetable pagetable mm.mmap
      pure true
  else pure false

/-- `copy_process`, of a kernel thread or of a process with the address space `mm`. -/
def copyProcess (kthread : Bool) (mm : Mm) : ForkM ℤ := do
  match ← getFreePages sup (getOrder threadSize) with
  | none => pure (-1)
  | some p =>
    match ← getFreePid with
    | none => do
      -- `free_pages(get_order(THREAD_SIZE), (unsigned long)p)`, whose order is a `uint`
      freePages (getOrder threadSize) (p * pgsize % 2 ^ 32)
      pure (-1)
    | some pid => do
      if kthread = false then
        if (← dupMmStruct sup mm) = false then throw .dupMmFailed
      modify fun s => { s with rq := RunQueue.copyProcess s.rq p }
      pure pid

end Functions

/-! ## §3  What happens at each point -/

section Points

variable {sup : Supply} {s : Sys} {p pid : ℕ} {kthread : Bool} {mm : Mm}

/-- There are two pages for the task. -/
def HasTaskPages (sup : Supply) (s : Sys) : Prop :=
  FreeBlock s.mem (sup.blocks (getOrder threadSize) s.mem) (getOrder threadSize)

theorem copyProcess_noPages (h : ¬ HasTaskPages sup s) :
    copyProcess sup kthread mm s = .ok (-1, s) := by
  have hnone : getFreePages sup (getOrder threadSize) s = .ok (none, s) := by
    show (if FreeBlock s.mem _ _ then _ else _ : ForkM (Option ℕ)) s = _
    rw [HasTaskPages] at h
    rw [if_neg h]
    rfl
  rw [copyProcess, bind_run hnone]
  rfl

/-- The state once the pages are taken. -/
def Sys.takePages (sup : Supply) (s : Sys) : Sys :=
  { s with mem := s.mem.takeBlock (sup.blocks (getOrder threadSize) s.mem) (getOrder threadSize) }

theorem getFreePages_some (h : HasTaskPages sup s) :
    getFreePages sup (getOrder threadSize) s =
      .ok (some (sup.blocks (getOrder threadSize) s.mem), s.takePages sup) := by
  show (if FreeBlock s.mem _ _ then _ else _ : ForkM (Option ℕ)) s = _
  rw [HasTaskPages] at h
  rw [if_pos h]
  rfl

theorem getFreePid_none (h : nextPid s.pidTable = none) : getFreePid s = .ok (none, s) := by
  rw [getFreePid, bind_get, h]
  rfl

theorem getFreePid_some (h : nextPid s.pidTable = some pid) :
    getFreePid s = .ok (some pid, { s with pidTable := update s.pidTable pid true }) := by
  rw [getFreePid, bind_get, h]
  rfl

/-- The swapped arguments. -/
theorem copyProcess_noPid (h : HasTaskPages sup s) (hpid : nextPid s.pidTable = none) :
    copyProcess sup kthread mm s = .error .badArea := by
  have hlow : getOrder threadSize < 0x80000000 := by decide
  rw [copyProcess, bind_run (getFreePages_some h)]
  dsimp only
  rw [bind_run (getFreePid_none (s := s.takePages sup) hpid)]
  dsimp only
  rw [freePages, if_pos hlow]
  rfl

/-- With the pages and the pid, -1 is not returned any more. -/
theorem wp_copyProcess_pid (h : HasTaskPages sup s) (hpid : nextPid s.pidTable = some pid) :
    wp (copyProcess sup kthread mm) (fun ret _ => ret = pid) (fun _ => True) s := by
  unfold copyProcess
  apply wp_bind_run (getFreePages_some h)
  apply wp_bind_run (getFreePid_some (s := s.takePages sup) hpid)
  dsimp only
  apply wp_ite
  · intro _
    apply wp_bind wp_trivial
    rintro b s₁ -
    apply wp_ite
    · exact fun _ => wp_throw trivial
    · exact fun _ => wp_modify_bind (wp_pure rfl)
  · exact fun _ => wp_modify_bind (wp_pure rfl)

end Points

/-! ## §4  Failing cleanly -/

/-- The parent's address space, the pages, the pids and the tasks are as they were. -/
structure Restored (mm : Mm) (s s' : Sys) : Prop where
  entries : ∀ va, userCodeVmStart ≤ va → va < maxva →
    translate s'.mem mm.pagetable va = translate s.mem mm.pagetable va
  contents : ∀ va, userCodeVmStart ≤ va → va < maxva →
    isValid (translate s.mem mm.pagetable va) = true →
      s'.mem.word (pte2pa (translate s.mem mm.pagetable va)) =
        s.mem.word (pte2pa (translate s.mem mm.pagetable va))
  pages : ∀ f, s'.mem.useOf f = s.mem.useOf f
  pids : s'.pidTable = s.pidTable
  tasks : s'.rq = s.rq

/-- In the copy loop a page is refused, for a copy or for a table that it needs. -/
def PageRefused (alloc : Mem → ℕ) (oldpt newpt start sz : ℕ) : List ℕ → Mem → Prop
  | [], _ => False
  | va :: l, m =>
    (va < maxva ∧ isValid (translate m oldpt va) = true ∧ (¬ Answer alloc m (alloc m) ∨
      (∀ v ∈ touched va, isValid (translate m newpt (v * pgsize)) = false) ∧
        ∃ m', mappages alloc newpt va pgsize (alloc m) (pteFlags (translate m oldpt va))
          ((m.take (alloc m) (.leaf newpt (va / pgsize))).copyPage (alloc m)
            (pte2pa (translate m oldpt va))) = .ok (false, m'))) ∨
    ∃ m', dupPage alloc oldpt newpt start sz va m = .ok (true, m') ∧
      PageRefused alloc oldpt newpt start sz l m'

/-- In `dup_mmap` a `vm_area_struct` is refused, or a page. -/
def AreaRefused (sup : Supply) (oldpt newpt : ℕ) : List Vma → Sys → Prop
  | [], _ => False
  | v :: l, s => sup.kmalloc s.kmallocs = false ∨
    PageRefused sup.alloc oldpt newpt v.vmStart (v.vmEnd - v.vmStart) (strides v) s.mem ∨
    ∃ s', dupAreas sup oldpt newpt [v] s = .ok ((), s') ∧ AreaRefused sup oldpt newpt l s'

/-- In `dup_mm` the `mm_struct` is refused, or the top-level table, or what comes after them. -/
def MmRefused (sup : Supply) (mm : Mm) (s : Sys) : Prop :=
  sup.kmalloc s.kmallocs = false ∨ ¬ Answer sup.alloc s.mem (sup.alloc s.mem) ∨
    ∃ r m', copyKernelTbl sup.alloc s.mem = .ok (some r, m') ∧
      AreaRefused sup mm.pagetable r mm.mmap
      { s with mem := m', kmallocs := s.kmallocs + 1 }

/-- One of the requests that `copy_process` makes is refused. -/
def Refused (sup : Supply) (kthread : Bool) (mm : Mm) (s : Sys) : Prop :=
  ¬ HasTaskPages sup s ∨ nextPid s.pidTable = none ∨
    kthread = false ∧ MmRefused sup mm (s.takePages sup)

/-- Where a request is refused, `copy_process` returns -1 and nothing is left of what it did. -/
def FailsCleanly (sup : Supply) (kthread : Bool) (mm : Mm) (s : Sys) : Prop :=
  Refused sup kthread mm s → ∃ s', copyProcess sup kthread mm s = .ok (-1, s') ∧ Restored mm s s'

/-- **`fork` fails cleanly at its first request only.** A missing pid ends in a fault, and after
that -1 is not returned any more, whatever is refused. -/
theorem failsCleanly_iff (sup : Supply) (kthread : Bool) (mm : Mm) (s : Sys) :
    FailsCleanly sup kthread mm s ↔ ¬ HasTaskPages sup s ∨ ¬ Refused sup kthread mm s := by
  constructor
  · intro hclean
    by_contra hno
    rw [not_or, not_not, not_not] at hno
    obtain ⟨hpages, hrefused⟩ := hno
    obtain ⟨s', hok, -⟩ := hclean hrefused
    cases hpid : nextPid s.pidTable with
    | none =>
      rw [copyProcess_noPid hpages hpid] at hok
      cases hok
    | some pid =>
      have hret := post_of_ok (wp_copyProcess_pid hpages hpid) hok
      omega
  · rintro (h | h) hrefused
    · exact ⟨s, copyProcess_noPages h, fun _ _ _ => rfl, fun _ _ _ _ => rfl, fun _ => rfl, rfl, rfl⟩
    · exact absurd hrefused h

/-- A system with memory, but with no pid left. -/
def pidless : Sys := ⟨boot emptyKernel [(1, .kernel)], RunQueue.boot 0, fun _ => true, 0⟩

/-- All requests for memory are answered. -/
def plenty : Supply := ⟨above, fun _ => above, fun _ => true⟩

/-- Without a pid. -/
theorem not_failsCleanly_pidless :
    copyProcess plenty false ⟨1, [], userMemStart, userMemStart⟩ pidless = .error .badArea ∧
      ¬ FailsCleanly plenty false ⟨1, [], userMemStart, userMemStart⟩ pidless := by
  have hpages : HasTaskPages plenty pidless := by
    show FreeBlock _ _ _
    decide
  have hpid : nextPid pidless.pidTable = none := by
    apply List.find?_eq_none.mpr
    intro pid _
    simp [pidless]
  have hrun : copyProcess plenty false ⟨1, [], userMemStart, userMemStart⟩ pidless = _ :=
    copyProcess_noPid hpages hpid
  refine ⟨hrun, fun hclean => ?_⟩
  obtain ⟨s', hok, -⟩ := hclean (Or.inr (Or.inl hpid))
  rw [hrun] at hok
  cases hok

end RiscvBm.Vm

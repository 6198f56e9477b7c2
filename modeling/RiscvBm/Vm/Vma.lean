import RiscvBm.Vm.PageTable

/-!
# Address spaces (`kernel/mmap.c`, `kernel/trap.c`, `kernel/fork.c`)

An address space is a page table with a list of areas (VMAs), in the order of the linked list.
A pointer to an area is its position in the list with its contents. The heap is the area that
`brk` and `sbrk` move the end of; pages are put in by the page-fault handler, one at a time.

Addresses are 64 bits wide: sums and differences that can leave that range are taken
modulo `2 ^ 64`.
-/

namespace RiscvBm.Vm

open Wp

/-! ## §1  Areas -/

def vmRead : ℕ := 0x1
def vmWrite : ℕ := 0x2
def vmExec : ℕ := 0x4
def vmGrowsdown : ℕ := 0x100
/-- `VM_DATA_FLAGS_NON_EXEC`; the last three are `VM_MAYREAD`, `VM_MAYWRITE`, `VM_MAYEXEC`. -/
def vmDataFlagsNonExec : ℕ := vmRead ||| vmWrite ||| 0x10 ||| 0x20 ||| 0x40
/-- `VM_STACK_FLAGS`; the last one is `VM_ACCOUNT`. -/
def vmStackFlags : ℕ := vmGrowsdown ||| vmDataFlagsNonExec ||| 0x100000

/-- `struct vm_area_struct` -/
structure Vma where
  vmStart : ℕ
  vmEnd : ℕ
  vmFlags : ℕ
deriving DecidableEq, Repr

/-- `struct mm_struct` -/
structure Mm where
  pagetable : ℕ
  mmap : List Vma
  startBrk : ℕ
  brk : ℕ
deriving DecidableEq, Repr

/-- The loop of `find_vma`, with `vm_prev` of the next area. -/
def findVmaFrom (addr : ℕ) : Option Vma → List Vma → Option (ℕ × Vma)
  | _, [] => none
  | prev, v :: l =>
    if v.vmStart ≤ addr ∧ v.vmEnd > addr then some (0, v)
    else if prev = none ∧ addr < v.vmStart then some (0, v)
    else if (∃ p ∈ prev, p.vmEnd ≤ addr) ∧ v.vmEnd > addr then some (0, v)
    else (findVmaFrom addr (some v) l).map fun r => (r.1 + 1, r.2)

def findVma (mmap : List Vma) (addr : ℕ) : Option (ℕ × Vma) := findVmaFrom addr none mmap

def findVmaIntersection (mmap : List Vma) (startAddr endAddr : ℕ) : Option (ℕ × Vma) :=
  match findVma mmap startAddr with
  | none => none
  | some (i, v) => if endAddr ≤ v.vmStart then none else some (i, v)

/-- The loop of `insert_vm_struct`; `none` is `-ENOMEM`. -/
def insertVma (vma : Vma) : Option Vma → List Vma → Option (List Vma)
  | _, [] => none
  | prev, v :: l =>
    if vma.vmEnd ≤ v.vmStart then
      if ∃ p ∈ prev, p.vmEnd > vma.vmStart then (insertVma vma (some v) l).map (v :: ·)
      else some (vma :: v :: l)
    else if ∃ n ∈ l.head?, vma.vmEnd > n.vmStart then (insertVma vma (some v) l).map (v :: ·)
    else some (v :: vma :: l)

/-- `insert_vm_struct`, whose callers ignore its result. -/
def insertVmStruct (mmap : List Vma) (vma : Vma) : List Vma :=
  match mmap with
  | [] => [vma]
  | _ => (insertVma vma none mmap).getD mmap

/-- `remove_vma`: the last of several areas has no `vm_next` to write to. -/
def removeVma (mmap : List Vma) (i : ℕ) : VmM (List Vma) :=
  if i = 0 then pure mmap.tail
  else if i + 1 < mmap.length then pure (mmap.eraseIdx i)
  else throw .nullPointer

/-- `expand_downwards`; `none` is `-EPERM`. -/
def expandStack (mmap : List Vma) (i : ℕ) (v : Vma) (address : ℕ) : Option (List Vma) :=
  if pgRoundDown address < stackBottom then none
  else if pgRoundDown address < v.vmStart then
    some (mmap.set i { v with vmStart := pgRoundDown address })
  else some mmap

/-! ## §2  `brk` and `sbrk` -/

section Brk

variable (alloc : Mem → ℕ)

/-- `unmap_region`; no page at all if the end is below the start. -/
def unmapRegion (mm : Mm) (vmStart vmEnd : ℕ) : VmM Unit :=
  unmapValidpages alloc mm.pagetable vmStart ((vmEnd - vmStart) / pgsize)

/-- `__do_munmap`; `none` is `-EINVAL`. -/
def doMunmap (mm : Mm) (start len : ℕ) : VmM (Option Mm) := do
  if start > userMemEnd ∨ len > userMemEnd - start ∨ userMemStart > start then pure none
  else if pgRoundUp len = 0 then pure none
  else
    match findVmaIntersection mm.mmap start (start + pgRoundUp len) with
    | none => pure (some mm)
    | some (i, v) =>
      if v.vmStart > start then pure none
      else do
        unmapRegion alloc mm start (start + pgRoundUp len)
        if mm.startBrk = start then
          let mmap ← removeVma mm.mmap i
          pure (some { mm with mmap := mmap })
        else
          pure (some { mm with mmap := mm.mmap.set i { v with vmEnd := start } })

variable (kmalloc : Bool)

/-- `do_brk_flags`; `kmalloc` is whether there is memory for a new area. Nothing looks at what
`vm_area_alloc` returns before it is written to. -/
def doBrkFlags (mm : Mm) (addr len : ℕ) : VmM Mm :=
  let last := (addr + pgRoundUp len) % 2 ^ 64
  let fresh : VmM Mm :=
    if kmalloc then
      pure { mm with mmap := insertVmStruct mm.mmap ⟨addr, last, vmDataFlagsNonExec⟩ }
    else throw .nullPointer
  match findVma mm.mmap mm.startBrk with
  | none => fresh
  | some (i, v) =>
    if v.vmStart > last then fresh
    else if v.vmEnd ≤ last then pure { mm with mmap := mm.mmap.set i { v with vmEnd := last } }
    else pure mm

/-- `do_brk`, with its return value. -/
def doBrk (mm : Mm) (brk : ℕ) : VmM (ℕ × Mm) := do
  if brk < mm.startBrk then pure (mm.brk, mm)
  else
    let newbrk := pgRoundDown brk
    let oldbrk := mm.brk
    if oldbrk = newbrk then pure (brk, { mm with brk := brk })
    else if brk < mm.brk then
      match ← doMunmap alloc { mm with brk := newbrk } newbrk (oldbrk - newbrk) with
      | none => pure (oldbrk, mm)
      | some mm' => pure (brk, mm')
    else do
      let mm' ← doBrkFlags kmalloc mm oldbrk ((pgRoundUp brk + 2 ^ 64 - oldbrk) % 2 ^ 64)
      pure (brk, { mm' with brk := brk })

/-- The break that `sbrk(size)` asks `do_brk` for. -/
def sbrkTarget (mm : Mm) (size : ℕ) : ℕ := (mm.brk + pgRoundUp size) % 2 ^ 64

/-- `sbrk`, with the return value of the system call. -/
def sbrk (mm : Mm) (size : ℕ) : VmM (ℕ × Mm) := do
  if size = 0 then pure (mm.brk, mm)
  else
    let (newBrk, mm') ← doBrk alloc kmalloc mm (sbrkTarget mm size)
    if mm.brk = newBrk then pure (0, mm')
    else pure ((newBrk + 2 ^ 64 - pgRoundUp size) % 2 ^ 64, mm')

/-- `brk`, with the return value of the system call. -/
def brk (mm : Mm) (addr : ℕ) : VmM (Bool × Mm) := do
  let (newBrk, mm') ← doBrk alloc kmalloc mm addr
  pure (mm.brk = newBrk, mm')

/-! ## §3  Page faults -/

/-- The permissions of `handle_mm_fault`. -/
def faultPerm (v : Vma) (user : Bool) : ℕ :=
  (if user then pteU else 0) ||| (if v.vmFlags.testBit 2 then pteX else 0) |||
    (if v.vmFlags.testBit 0 then pteR else 0) ||| (if v.vmFlags.testBit 1 then pteW else 0)

def handleMmFault (mm : Mm) (v : Vma) (address : ℕ) (user : Bool) : VmM Unit := do
  match ← getFreePage alloc (.leaf mm.pagetable (address / pgsize)) with
  | none => pure ()
  | some mem => do
    modify fun m => m.zeroPage mem
    let _ ← mappages alloc mm.pagetable (pgRoundDown address) pgsize mem (faultPerm v user)

/-- `do_page_fault`; `user` is `user_mode(regs)`, `sum` is the bit of `regs->status`. -/
def doPageFault (mm : Mm) (addr : ℕ) (user sum : Bool) : VmM Mm := do
  if user = false ∧ addr < userMemStart ∧ sum = false then throw .badArea
  else
    match findVma mm.mmap addr with
    | none => throw .badArea
    | some (i, v) =>
      if v.vmStart ≤ addr then do
        handleMmFault alloc mm v addr user
        pure mm
      else if v.vmFlags.testBit 8 = false then throw .badArea
      else
        match expandStack mm.mmap i v addr with
        | none => throw .badArea
        | some mmap => do
          handleMmFault alloc mm v addr user
          pure { mm with mmap := mmap }

/-! ## §4  Loading a program into pages -/

/-- The first `n` bytes of a page from `new`, the others from `old`. -/
def blend (n : ℕ) (new old : ℕ → ℕ) : ℕ → ℕ := fun i =>
  let b := 256 ^ (n - 8 * i)
  if 8 * i + 8 ≤ n then new i else new i % b + old i / b * b

/-- The round that `vm_map_program` and `vm_map_normal_mem` have in common: `copy` goes to the page
of `va`, or to a new one. The result is the return value, `none` for `-ENOMEM`. -/
def mapPage (r va perm : ℕ) (copy : ℕ → Mem → Mem) : VmM (Option Bool) := do
  match ← walkaddr alloc r va with
  | some mem => do
    modify (copy mem)
    pure (some false)
  | none =>
    match ← getFreePage alloc (.leaf r (va / pgsize)) with
    | none => pure none
    | some mem => do
      modify fun m => m.zeroPage mem
      let _ ← mappages alloc r va pgsize mem perm
      modify (copy mem)
      pure (some true)

/-- The permissions that `vm_map_program` maps a page with. -/
def programPerm : ℕ := pteU ||| pteR ||| pteW ||| pteX

/-- One round of `vm_map_program`: `n` bytes go to the page of `va`. -/
def mapProgramPage (r va n : ℕ) (src : ℕ → ℕ) : VmM (Option Bool) :=
  mapPage alloc r va programPerm fun mem m => m.setPage mem (blend n src (m.word mem))

/-- The loop of `vm_map_program` over the rounds `i`; all of them are about the one page `va`. -/
def mapProgramLoop (r va size : ℕ) (src : ℕ → ℕ → ℕ) : List ℕ → Bool → VmM (Option Bool)
  | [], ret => pure (some ret)
  | i :: l, ret => do
    match ← mapProgramPage alloc r va (min pgsize (size - i * pgsize)) (src i) with
    | none => pure none
    | some new => mapProgramLoop r va size src l (ret || new)

/-- `vm_map_program`, whose argument `perm` is not used; `src` is the page that a round
copies from. -/
def vmMapProgram (r va size : ℕ) (src : ℕ → ℕ → ℕ) : VmM (Option Bool) :=
  mapProgramLoop alloc r va size src (List.range ((size + pgsize - 1) / pgsize)) false

/-- `move_to_user_mode`: the first user process. `none` stands for its return value `-1`. -/
def moveToUserMode (size : ℕ) (src : ℕ → ℕ → ℕ) : VmM (Option Mm) := do
  match ← copyKernelTbl alloc with
  | none => throw .nullPointer
  | some pagetable =>
    match ← vmMapProgram alloc pagetable userCodeVmStart size src with
    | none => pure none
    | some _ =>
      let mmap := insertVmStruct [] ⟨userCodeVmStart,
        (userCodeVmStart + pgRoundUp size) % 2 ^ 64, vmExec ||| vmRead⟩
      let mmap := insertVmStruct mmap ⟨pgRoundDown (pgRoundUp stackTop - pgsize),
        pgRoundUp stackTop, vmStackFlags⟩
      pure (some ⟨pagetable, mmap, userMemStart, userMemStart⟩)

end Brk

end RiscvBm.Vm

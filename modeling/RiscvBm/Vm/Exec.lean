import RiscvBm.Vm.DemandCopies
import RiscvBm.Vm.MapProgram

/-!
# `exec` (`kernel/exec.c`)

`exec` looks the file up twice. In between it has taken the stack apart and built the arguments
on a page of its own; after the second lookup it removes the old program and loads the new one,
the bytes of the file from the program headers and the zeros from the section headers.

The arguments are read from the user's memory while the kernel runs on the process's table: a page
that is not there is faulted in, by the kernel. Beside the address space the state has the writes
to the stack page and to the local array `stack[]`; around it, in `Task`, is what the stages do
not touch: the name and the registers, and what `exec` has to give back at the end, the log
operations, the reference to the inode and its lock.

The file is its bytes. What the two lookups find is given, since the file system may change
between them.
-/

namespace RiscvBm.Exec

open Vm Wp ByteMemory Function

/-! ## §1  The state -/

/-- `MAXARG` -/
def maxarg : ℕ := 32

/-- What is written while the stack is built. -/
inductive Write where
  /-- `n` bytes of memory from `a` on -/
  | bytes (a n : ℕ)
  /-- `stack[i]` -/
  | slot (i : ℕ)
deriving DecidableEq, Repr

/-- The ways in which `exec` does not return. -/
inductive Stop where
  | vm (e : Panic)
  /-- `panic("iunlock")` -/
  | iunlock
  /-- an access that faults for ever, a string without an end -/
  | hang
deriving DecidableEq, Repr

structure St where
  mem : Mem
  mm : Mm
  /-- where the program starts -/
  epc : ℕ
  /-- the local array `stack[]` -/
  stack : ℕ → ℕ
  /-- ghost: what was written to the new stack, last one first -/
  writes : List Write

structure Task where
  st : St
  /-- `current->name` -/
  name : List UInt8
  /-- the saved registers of the user -/
  sp : ℕ
  a1 : ℕ
  /-- open log operations of this call -/
  ops : ℤ
  /-- references to the inode that this call holds -/
  refs : ℤ
  /-- whether it holds the inode's lock -/
  locked : Bool

abbrev ExecM := Prog St Stop

abbrev TaskM := Prog Task Stop

def space : Part Task St := ⟨Task.st, fun t s => { t with st := s }⟩

/-- A function of the virtual memory. -/
def onMem {α : Type} (c : VmM α) : ExecM α := fun s =>
  match c s.mem with
  | .ok (a, m) => .ok (a, { s with mem := m })
  | .error e => .error (.vm e)

/-- The result of a stage: `.error pa` is `goto bad`, with the page that is freed there. -/
abbrev Stage (α : Type) := Except ℕ α

structure World where
  alloc : Mem → ℕ
  /-- the file that the first `namei` finds, and the second -/
  first : Option (List UInt8)
  second : Option (List UInt8)

/-- `a - b`, in 64 bits. -/
def sub64 (a b : ℕ) : ℕ := (a + 2 ^ 64 - b % 2 ^ 64) % 2 ^ 64

/-! ## §2  Reading the arguments -/

section Arguments

variable (alloc : Mem → ℕ)

/-- An address that the hardware translates. -/
def Readable (m : Mem) (r a : ℕ) : Prop := a < maxva ∧ isValid (translate m r a) = true

instance decidableReadable (m : Mem) (r a : ℕ) : Decidable (Readable m r a) :=
  inferInstanceAs (Decidable (_ ∧ _))

/-- A byte that the kernel loads from the address `a`. A fault for which there is no page
comes again and again. -/
def kload (a : ℕ) : ExecM UInt8 := do
  let s ← get
  if Readable s.mem s.mm.pagetable a then pure (s.mem.byte (phys s.mem s.mm.pagetable a))
  else do
    let mm ← onMem (doPageFault alloc s.mm a false true)
    modify fun s => { s with mm := mm }
    let s ← get
    if Readable s.mem s.mm.pagetable a then pure (s.mem.byte (phys s.mem s.mm.pagetable a))
    else throw .hang

def kloads (a : ℕ) : ℕ → ExecM (List UInt8)
  | 0 => pure []
  | n + 1 => do
    let b ← kload alloc a
    let l ← kloads (a + 1) n
    pure (b :: l)

/-- A little-endian number. -/
def leNat : List UInt8 → ℕ
  | [] => 0
  | b :: l => b.toNat + 256 * leNat l

/-- `argv[i]` -/
def argPtr (argv i : ℕ) : ExecM ℕ := do
  let l ← kloads alloc (argv + 8 * i) 8
  pure (leNat l)

def strlenFrom (a : ℕ) : ℕ → ℕ → ExecM ℕ
  | 0, _ => throw .hang
  | fuel + 1, n => do
    let c ← kload alloc (a + n)
    if c = 0 then pure n else strlenFrom a fuel (n + 1)

/-- `strlen`, whose counter is an `int`. -/
def strlen (a : ℕ) : ExecM ℕ := strlenFrom alloc a (2 ^ 31) 0

/-- `stack[i] = w` -/
def setSlot (i w : ℕ) : ExecM Unit :=
  modify fun s => { s with stack := update s.stack i w, writes := .slot i :: s.writes }

/-- A write of `n` bytes to memory. -/
def record (a n : ℕ) : ExecM Unit := modify fun s => { s with writes := .bytes a n :: s.writes }

/-- The loop over `argv`, in at most `rounds` rounds; the result is `argc` and `sp`, or none for
`goto bad`. -/
def argLoop (stackbase argv : ℕ) : ℕ → ℕ → ℕ → ExecM (Option (ℕ × ℕ))
  | 0, _, _ => pure none
  | rounds + 1, argc, sp => do
    let p ← argPtr alloc argv argc
    if p = 0 then pure (some (argc, sp))
    else if argc ≥ maxarg then pure none
    else do
      let n := (← strlen alloc p) + 1
      let sp := sub64 sp n
      let sp := sp - sp % 16
      if sp < stackbase then pure none
      else do
        let s ← get
        -- the result of the copy is not looked at
        let _ ← onMem (Heap.spcaeDataCopyIn alloc s.mm.pagetable sp p n)
        record sp n
        setSlot argc (sp - stackbase + stackTop - pgsize)
        argLoop stackbase argv rounds (argc + 1) sp

/-- The first `n` words of an array, byte by byte. -/
def wordBytes (stack : ℕ → ℕ) (n : ℕ) : List UInt8 :=
  (List.range (8 * n)).map fun i => digit (stack (i / 8)) (i % 8)

/-- From `stack[argc] = 0` to the `memcpy` of the array; the result is `sp`. -/
def pushArray (argc sp : ℕ) : ExecM ℕ := do
  setSlot argc 0
  let sp := sub64 sp ((argc + 1) * 8)
  let sp := sp - sp % 16
  modify fun s => { s with mem := physical.storeList sp (wordBytes s.stack (argc + 1)) s.mem }
  record sp ((argc + 1) * 8)
  pure sp

/-- The page for the stack, 0 for none. -/
def stackPage : ExecM ℕ := do
  let s ← get
  match ← onMem (walkaddr alloc s.mm.pagetable (stackTop - 1)) with
  | some p => pure p
  | none => do
    let o ← onMem (getFreePage alloc .bounce)
    pure (o.getD 0)

/-! ## §3  The new stack -/

/-- The permissions that `vm_map_normal_mem` maps a page with. -/
def normalPerm : ℕ := pteW ||| pteR ||| pteU

/-- One round of `vm_map_normal_mem`. -/
def mapNormalPage (r va n src : ℕ) : VmM (Option Bool) :=
  mapPage alloc r va normalPerm fun mem m => memmove m (mem * pgsize) src n

def mapNormalLoop (r vmBase src size : ℕ) : List ℕ → Bool → VmM (Option Bool)
  | [], ret => pure (some ret)
  | i :: l, ret => do
    match ← mapNormalPage alloc r (vmBase + i * pgsize) (min pgsize (size - i * pgsize))
        (src + i * pgsize) with
    | none => pure none
    | some new => mapNormalLoop r vmBase src size l (ret || new)

def vmMapNormalMem (r vmBase src size : ℕ) : VmM (Option Bool) :=
  mapNormalLoop alloc r vmBase src size (List.range ((size + pgsize - 1) / pgsize)) false

/-- The stack's area is found and emptied, and becomes one page. Where there is none, the new
one is not put into the list; the result is the `vm_start` that the registers are set from. -/
def resetStack : ExecM ℕ := do
  let s ← get
  match findVma s.mm.mmap (stackTop - 1) with
  | none => pure (2 ^ 64 - pgsize)
  | some (i, v) => do
    onMem (unmapValidpages alloc s.mm.pagetable v.vmStart ((v.vmEnd - v.vmStart) / pgsize))
    let stack : Vma := { v with vmStart := stackTop - pgsize, vmEnd := stackTop }
    modify fun s => { s with mm := { s.mm with mmap := s.mm.mmap.set i stack } }
    pure (stackTop - pgsize)

/-- The arguments, on a page of their own: `argc` and `sp`. -/
def argStack (argv : ℕ) : ExecM (ℕ × Stage (ℕ × ℕ)) := do
  let pa ← stackPage alloc
  let stackbase := pa * pgsize
  match ← argLoop alloc stackbase argv (maxarg + 1) 0 (stackbase + pgsize) with
  | none => pure (pa, .error pa)
  | some (argc, sp) => do
    let sp ← pushArray argc sp
    pure (pa, .ok (argc, sp))

/-- What is behind the last `/`. -/
def lastName (path : List UInt8) : List UInt8 := (path.reverse.takeWhile (· ≠ 47)).reverse

/-- The mapping of the stack. -/
def mapStack (pa : ℕ) : ExecM (Stage Unit) := do
  let s ← get
  match ← onMem (vmMapNormalMem alloc s.mm.pagetable (stackTop - pgsize) (pa * pgsize) pgsize) with
  | none => pure (.error pa)
  | some _ => do
    onMem (freePage pa)
    pure (.ok ())

/-- The name, the registers and the mapping of the stack; `sp` is still an address on the page
`pa`. -/
def useStack (path : List UInt8) (vmStart pa sp : ℕ) : TaskM (Stage Unit) := do
  let user := (sp + 2 ^ 64 - pa * pgsize + vmStart) % 2 ^ 64
  modify fun t => { t with name := (lastName path).take 15, sp := user, a1 := user }
  zoom space (mapStack alloc pa)

/-- The stack of the new program, up to `free_page(pa)`; the result is `argc`. -/
def buildStack (path : List UInt8) (argv vmStart : ℕ) : TaskM (Stage ℕ) := do
  match ← zoom space (argStack alloc argv) with
  | (_, .error pa) => pure (.error pa)
  | (pa, .ok (argc, sp)) =>
    match ← useStack alloc path vmStart pa sp with
    | .error pa => pure (.error pa)
    | .ok () => pure (.ok argc)

end Arguments

/-! ## §4  The file -/

/-- `readi` on a file of the given bytes, with `off` and `n` as its arguments are: the bytes that
it stores. -/
def readi (file : List UInt8) (off n : ℕ) : List UInt8 :=
  let off := off % 2 ^ 32
  let n := n % 2 ^ 32
  if file.length < off ∨ (off + n) % 2 ^ 32 < off then []
  else if file.length < (off + n) % 2 ^ 32 then file.drop off
  else (file.drop off).take n

/-- A little-endian field. -/
def field (l : List UInt8) (off n : ℕ) : ℕ := leNat ((l.drop off).take n)

/-- `struct elfhdr` -/
structure ElfHdr where
  entry : ℕ
  phoff : ℕ
  shoff : ℕ
  phnum : ℕ
  shnum : ℕ
deriving DecidableEq, Repr

def elfHdr (l : List UInt8) : ElfHdr :=
  ⟨field l 24 8, field l 32 8, field l 40 8, field l 56 2, field l 60 2⟩

/-- `struct proghdr` -/
structure ProgHdr where
  type : ℕ
  off : ℕ
  vaddr : ℕ
  filesz : ℕ
  memsz : ℕ
deriving DecidableEq, Repr

def progHdr (l : List UInt8) : ProgHdr :=
  ⟨field l 0 4, field l 8 8, field l 16 8, field l 32 8, field l 40 8⟩

/-- `struct elfshdr` -/
structure SectHdr where
  type : ℕ
  addr : ℕ
  size : ℕ
deriving DecidableEq, Repr

def sectHdr (l : List UInt8) : SectHdr := ⟨field l 4 4, field l 16 8, field l 32 8⟩

/-- `ELF_PROG_LOAD` and `ELF_BSS_TYPE` -/
def elfProgLoad : ℕ := 1
def elfBssType : ℕ := 8

/-- `sizeof(struct elfhdr)`, of a program header, of a section header. -/
def elfhdrSize : ℕ := 64
def proghdrSize : ℕ := 56
def elfshdrSize : ℕ := 64

/-! ## §5  Loading -/

section Load

variable (alloc : Mem → ℕ)

/-- `if (pa == 0) pa = get_free_page();` -/
def bounce (pa : ℕ) : ExecM ℕ :=
  if pa = 0 then do
    let o ← onMem (getFreePage alloc .bounce)
    pure (o.getD 0)
  else pure pa

/-- The `int j` of a loop over pages after `i` rounds, as a number of 64 bits. -/
def counter (i : ℕ) : ℕ :=
  if i * pgsize % 2 ^ 32 < 2 ^ 31 then i * pgsize % 2 ^ 32
  else i * pgsize % 2 ^ 32 + (2 ^ 64 - 2 ^ 32)

/-- The loop `for(j = 0; j < size; j += PGSIZE)` from round `i` on, with `pa`. After `2 ^ 20` rounds
`j` is 0 again, and the loop has no end. -/
def forPages (size : ℕ) (body : ℕ → ℕ → ExecM (Stage ℕ)) : ℕ → ℕ → ℕ → ExecM (Stage ℕ)
  | 0, _, _ => throw .hang
  | fuel + 1, i, pa =>
    if counter i < size then do
      match ← body (counter i) pa with
      | .error pa => pure (.error pa)
      | .ok pa => forPages size body fuel (i + 1) pa
    else pure (.ok pa)

def loopBound : ℕ := 2 ^ 20 + 1

/-- The loop over `n` headers of `size` bytes each, with `pa` and `vm_prg_end`. -/
def forHeaders (file : List UInt8) (size : ℕ) (body : List UInt8 → ℕ × ℕ → ExecM (Stage (ℕ × ℕ))) :
    ℕ → ℕ → ℕ × ℕ → ExecM (Stage (ℕ × ℕ))
  | 0, _, x => pure (.ok x)
  | n + 1, off, x =>
    if (readi file off size).length ≠ size then pure (.error x.1)
    else do
      match ← body (readi file off size) x with
      | .error pa => pure (.error pa)
      | .ok x => forHeaders file size body n (off + size) x

/-- A round of the loop over the pages of a segment. -/
def loadPage (file : List UInt8) (ph : ProgHdr) (j pa : ℕ) : ExecM (Stage ℕ) := do
  let pa ← bounce alloc pa
  let n := min pgsize (ph.filesz - j)
  if pa = 0 then throw (.vm .nullPointer)
  else do
    let data := readi file (ph.off + j) n
    modify fun s => { s with mem := physical.storeList (pa * pgsize) data (s.mem.zeroPage pa) }
    if data.length ≠ n then pure (.error pa)
    else do
      let s ← get
      match ← onMem (vmMapProgram alloc s.mm.pagetable (ph.vaddr + j) n
          fun _ => s.mem.word pa) with
      | none => pure (.error pa)
      | some true => do
        onMem (freePage pa)
        pure (.ok 0)
      | some false => pure (.ok pa)

/-- The body of the loop over the program headers. -/
def loadSegment (file hdr : List UInt8) (x : ℕ × ℕ) : ExecM (Stage (ℕ × ℕ)) := do
  let ph := progHdr hdr
  let pa ← bounce alloc x.1
  if ph.type ≠ elfProgLoad then pure (.ok (pa, x.2))
  else if ph.memsz < ph.filesz then pure (.error pa)
  else if (ph.vaddr + ph.memsz) % 2 ^ 64 < ph.vaddr then pure (.error pa)
  else if ph.vaddr % pgsize ≠ 0 then pure (.error pa)
  else
    match ← forPages ph.filesz (loadPage alloc file ph) loopBound 0 pa with
    | .error pa => pure (.error pa)
    | .ok pa =>
      pure (.ok (pa, if ph.filesz = 0 then x.2 else pgRoundUp (ph.vaddr + ph.filesz)))

/-- A round of the loop over the pages of a section without contents; what `map_program_bss`
returns is not looked at. -/
def zeroPage (sh : SectHdr) (j pa : ℕ) : ExecM (Stage ℕ) := do
  let s ← get
  let _ ← onMem (vmMapProgram alloc s.mm.pagetable ((sh.addr + j) % 2 ^ 64)
    (min pgsize (sh.size - j)) fun _ _ => 0)
  pure (.ok pa)

/-- The body of the loop over the section headers. -/
def loadSection (hdr : List UInt8) (x : ℕ × ℕ) : ExecM (Stage (ℕ × ℕ)) := do
  let sh := sectHdr hdr
  if sh.type ≠ elfBssType then pure (.ok x)
  else
    match ← forPages sh.size (zeroPage alloc sh) loopBound 0 x.1 with
    | .error pa => pure (.error pa)
    | .ok pa => pure (.ok (pa, if sh.size = 0 then x.2 else pgRoundUp (sh.addr + sh.size)))

/-- From the header of the file to the entry point. The area of the program ends where the last
segment with bytes in the file does; `pa` is not freed when all is well. -/
def load (file : List UInt8) : ExecM (Stage Unit) := do
  let hdr := readi file 0 elfhdrSize
  let elf := elfHdr hdr
  if hdr.length ≠ elfhdrSize then pure (.error 0)
  else do
    let pa ← bounce alloc 0
    match ← forHeaders file proghdrSize (loadSegment alloc file) elf.phnum elf.phoff (pa, 0) with
    | .error pa => pure (.error pa)
    | .ok x =>
      match ← forHeaders file elfshdrSize (loadSection alloc) elf.shnum elf.shoff x with
      | .error pa => pure (.error pa)
      | .ok _ => do
        modify fun s => { s with
          mm := { s.mm with mmap := insertVmStruct s.mm.mmap ⟨userCodeVmStart, x.2, 0⟩ }
          epc := elf.entry }
        pure (.ok ())

end Load

/-! ## §6  `exec` -/

/-- `remove_vma_region`, on the list of the areas. -/
def removeRegion (alloc : Mem → ℕ) (start last : ℕ) : ExecM Unit := do
  let s ← get
  let l ← onMem (removeHead alloc s.mm.pagetable start last s.mm.mmap)
  modify fun s => { s with mm := { s.mm with mmap := l } }

def logBeginOp : TaskM Unit := modify fun t => { t with ops := t.ops + 1 }
def logEndOp : TaskM Unit := modify fun t => { t with ops := t.ops - 1 }

/-- The reference that `namei` returns. -/
def takeRef : TaskM Unit := modify fun t => { t with refs := t.refs + 1 }
def iput : TaskM Unit := modify fun t => { t with refs := t.refs - 1 }

def ilock : TaskM Unit := modify fun t => { t with locked := true }

def iunlockput : TaskM Unit := do
  let t ← get
  if t.locked then
    modify fun t => { t with locked := false }
    iput
  else throw .iunlock

/-- The label `bad`, where `ip` is not NULL. -/
def bad (pa : ℕ) : TaskM ℤ := do
  if pa ≠ 0 then zoom space (onMem (freePage pa))
  iunlockput
  logEndOp
  pure (-1)

def exec (w : World) (path : Option (List UInt8)) (argv : ℕ) : TaskM ℤ :=
  match path with
  | none => pure (-1)
  | some path => do
    logBeginOp
    match w.first with
    | none => do
      logEndOp
      pure (-1)
    | some _ => do
      takeRef
      logEndOp
      iput
      let vmStart ← zoom space (resetStack w.alloc)
      match ← buildStack w.alloc path argv vmStart with
      | .error pa => bad pa
      | .ok argc => do
        logBeginOp
        match w.second with
        | none => do
          logEndOp
          pure (-1)
        | some file => do
          takeRef
          zoom space (removeRegion w.alloc userMemStart userMemEnd)
          zoom space (removeRegion w.alloc userCodeVmStart userMemStart)
          ilock
          match ← zoom space (load w.alloc file) with
          | .error pa => bad pa
          | .ok () => do
            iunlockput
            logEndOp
            pure argc

end RiscvBm.Exec

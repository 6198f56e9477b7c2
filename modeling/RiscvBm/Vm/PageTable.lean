import Mathlib.Data.Nat.Bitwise
import RiscvBm.Lib.Radix
import RiscvBm.Lib.Wp
import RiscvBm.Param

/-!
# Page tables (`kernel/vm.c`)

Physical memory is a store of frames of 512 words of 64 bits; a page table is a tree of
such frames, three levels deep, that lives in the memory itself. `walk`, `mappages`,
`unmap_validpages` and `uvmunmap` are modelled over that memory, so a table that is reached
from two roots is one table.

The page allocator is a parameter: `alloc m` is the frame that `get_free_page` would answer
with in the memory `m`, 0 for none. An answer that is in use counts as none.

`Tables` is the shape that all of this keeps: the part of each process's table from
`USER_CODE_VM_START` on is a tree of its own, and the part below is the kernel's.
-/

namespace RiscvBm.Vm

open Radix Wp Function

/-! ## §1  Addresses and entries -/

/-- `PX(level, va)` -/
def px (level va : ℕ) : ℕ := va / 2 ^ (12 + 9 * level) % 512

/-- `MAXVA` -/
def maxva : ℕ := 2 ^ 38
def userMemEnd : ℕ := userMemStart + 2 ^ 32 * 30
/-- `STACK_TOP`, `TASK_SIZE` -/
def stackTop : ℕ := 2 ^ 30 * 512 / 2
def stackBottom : ℕ := stackTop - 10 * 2 ^ 32

/-- `PGROUNDUP` and `PAGE_ALIGN`, in 64 bits. -/
def pgRoundUp (a : ℕ) : ℕ := (a + pgsize - 1) % 2 ^ 64 / pgsize * pgsize

def pteV : ℕ := 1
def pteR : ℕ := 2
def pteW : ℕ := 4
def pteX : ℕ := 8
def pteU : ℕ := 16

def isValid (w : ℕ) : Bool := w.testBit 0
def isUser (w : ℕ) : Bool := w.testBit 4
/-- `PA2PTE`, for the address of a frame. -/
def pa2pte (p : ℕ) : ℕ := p <<< 10
/-- `PTE2PA`, as a frame. -/
def pte2pa (w : ℕ) : ℕ := w >>> 10
def pteFlags (w : ℕ) : ℕ := w &&& 0x3FF

/-- The frame that an entry points to. -/
def next (w : ℕ) : Option ℕ := if isValid w then some (pte2pa w) else none

section Entries

variable {p perm : ℕ}

theorem isValid_mkPte : isValid (pa2pte p ||| perm ||| pteV) = true := by
  simp [isValid, pteV]

theorem isUser_mkPte : isUser (pa2pte p ||| perm ||| pteV) = perm.testBit 4 := by
  have h1 : Nat.testBit 1 4 = false := by decide
  simp [isUser, pa2pte, pteV, h1]

theorem pte2pa_mkPte (hperm : perm < 1024) : pte2pa (pa2pte p ||| perm ||| pteV) = p := by
  apply Nat.eq_of_testBit_eq
  intro i
  have hpow : 2 ^ 10 ≤ 2 ^ (10 + i) := Nat.pow_le_pow_right Nat.two_pos (Nat.le_add_right 10 i)
  have h1 : Nat.testBit 1 (10 + i) = false :=
    Nat.testBit_lt_two_pow (Nat.lt_of_lt_of_le (by decide) hpow)
  have hperm' : perm.testBit (10 + i) = false :=
    Nat.testBit_lt_two_pow (Nat.lt_of_lt_of_le hperm hpow)
  simp [pte2pa, pa2pte, pteV, h1, hperm']

theorem pteFlags_lt (w : ℕ) : pteFlags w < 1024 :=
  Nat.lt_of_le_of_lt Nat.and_le_right (by decide)

/-- The flags of a copied entry. -/
theorem pteFlags_mkPte {w : ℕ} (h : isValid w = true) :
    pteFlags (pa2pte p ||| pteFlags w ||| pteV) = pteFlags w := by
  have hmask : ∀ i, Nat.testBit 0x3FF i = decide (i < 10) := Nat.testBit_two_pow_sub_one 10
  apply Nat.eq_of_testBit_eq
  intro i
  simp only [pteFlags, pa2pte, pteV, Nat.testBit_and, Nat.testBit_or, Nat.testBit_shiftLeft, hmask]
  by_cases hi : i < 10
  · by_cases hzero : i = 0
    · rw [hzero, show w.testBit 0 = true from h]
      rfl
    · have hone : Nat.testBit 1 i = false := Nat.testBit_lt_two_pow (Nat.one_lt_two_pow hzero)
      simp [hi, Nat.not_le.mpr hi, hone]
  · simp [hi]

theorem next_mkPte (hperm : perm < 1024) : next (pa2pte p ||| perm ||| pteV) = some p := by
  rw [next, if_pos isValid_mkPte, pte2pa_mkPte hperm]

theorem next_mkTable : next (pa2pte p ||| pteV) = some p := by
  have h := @next_mkPte p 0 (by decide)
  rwa [Nat.or_zero] at h

@[simp] theorem next_zero : next 0 = none := by decide

theorem next_eq_some {w p : ℕ} : next w = some p ↔ isValid w = true ∧ pte2pa w = p := by
  unfold next
  split
  · rename_i hv
    rw [Option.some.injEq]
    exact ⟨fun h => ⟨hv, h⟩, fun h => h.2⟩
  · rename_i hv
    constructor
    · intro h
      cases h
    · rintro ⟨h, -⟩
      exact absurd h hv

theorem next_eq_none {w : ℕ} : next w = none ↔ isValid w = false := by
  unfold next
  cases isValid w <;> simp

end Entries

/-! ## §2  The memory -/

/-- What a page was asked for. -/
inductive Use where
  | kernel
  | table
  /-- the page `v` of the table at `r` -/
  | leaf (r v : ℕ)
  /-- `pa` of `exec` -/
  | bounce
deriving DecidableEq, Repr

structure Mem where
  word : ℕ → ℕ → ℕ
  /-- the frames that are not free, each with its use -/
  used : List (ℕ × Use)
  /-- ghost: the table and the place in it that a frame was linked into -/
  place : ℕ → Option (ℕ × List ℕ)
  /-- ghost: `kernel_pagetable` and what `copy_kernel_tbl` has returned -/
  tables : List ℕ
  kernelPagetable : ℕ
  /-- calls of `get_free_page` so far -/
  calls : ℕ

/-- `r` is the top of a page table. -/
abbrev Mem.IsRoot (m : Mem) (r : ℕ) : Prop := m.place r = some (r, [])

def Mem.useOf (m : Mem) (p : ℕ) : Option Use :=
  (m.used.find? fun e => e.1 = p).map Prod.snd

inductive Panic where
  | walk
  | mappagesSize
  | notAligned
  | uvmunmapWalk
  | uvmunmapNotMapped
  | uvmunmapNotLeaf
  /-- `dup_vma: page not present` -/
  | dupNotPresent
  /-- `copy_process: dup_mm failed` -/
  | dupMmFailed
  | badArea
  /-- an access through a null pointer, which ends in `bad_area` -/
  | nullPointer
deriving DecidableEq, Repr

abbrev VmM := Prog Mem Panic

def Mem.setWord (m : Mem) (t k w : ℕ) : Mem := { m with word := write m.word t k w }

/-- A page is overwritten. -/
def Mem.setPage (m : Mem) (p : ℕ) (page : ℕ → ℕ) : Mem := { m with word := fill m.word p page }

/-- `memset(p, 0, PGSIZE)` -/
def Mem.zeroPage (m : Mem) (p : ℕ) : Mem := { m with word := fill m.word p fun _ => 0 }

/-- `memcpy(p, q, PGSIZE)` -/
def Mem.copyPage (m : Mem) (p q : ℕ) : Mem := { m with word := fill m.word p (m.word q) }

def Mem.take (m : Mem) (p : ℕ) (u : Use) : Mem :=
  { m with used := (p, u) :: m.used, calls := m.calls + 1 }

/-- A page of zeros, taken for `va`. -/
abbrev Mem.newLeaf (m : Mem) (r va p : ℕ) : Mem := (m.take p (.leaf r (va / pgsize))).zeroPage p

def Mem.tick (m : Mem) : Mem := { m with calls := m.calls + 1 }

def Mem.release (m : Mem) (p : ℕ) : Mem := { m with used := m.used.filter fun e => e.1 ≠ p }

def Mem.setPlace (m : Mem) (p r : ℕ) (σ : List ℕ) : Mem :=
  { m with place := update m.place p (some (r, σ)) }

/-- `get_free_page` has a page to give. -/
def Answer (alloc : Mem → ℕ) (m : Mem) (p : ℕ) : Prop :=
  alloc m = p ∧ p ≠ 0 ∧ m.useOf p = none

instance (alloc : Mem → ℕ) (m : Mem) (p : ℕ) : Decidable (Answer alloc m p) :=
  inferInstanceAs (Decidable (_ ∧ _ ∧ _))

section UseOf

variable {m : Mem} {p q : ℕ} {u : Use}

@[simp] theorem useOf_take_self : (m.take p u).useOf p = some u := by
  simp [Mem.useOf, Mem.take]

theorem useOf_take_of_ne (h : q ≠ p) : (m.take p u).useOf q = m.useOf q := by
  simp [Mem.useOf, Mem.take, h.symm]

theorem useOf_take_of_some {v : Use} (hp : m.useOf p = none) (hq : m.useOf q = some v) :
    (m.take p u).useOf q = some v := by
  rw [useOf_take_of_ne, hq]
  rintro rfl
  rw [hp] at hq
  cases hq

theorem useOf_release_of_ne (h : q ≠ p) : (m.release p).useOf q = m.useOf q := by
  unfold Mem.useOf Mem.release
  rw [List.find?_filter]
  congr 2
  funext e
  by_cases he : e.1 = q
  · simp [he, h]
  · simp [he]

@[simp] theorem useOf_zeroPage : (m.zeroPage p).useOf q = m.useOf q := rfl

end UseOf

/-! ## §3  The functions of `vm.c` -/

section Functions

variable (alloc : Mem → ℕ)

def getFreePage (u : Use) : VmM (Option ℕ) := do
  let m ← get
  let p := alloc m
  if Answer alloc m p then
    modify fun m => m.take p u
    pure (some p)
  else
    modify Mem.tick
    pure none

def freePage (p : ℕ) : VmM Unit := modify fun m => m.release p

/-- The loop of `walk` from the table at `σ` down; the result is the bottom table. -/
def walkFrom (r va : ℕ) (doAlloc : Bool) : List ℕ → List ℕ → ℕ → VmM (Option ℕ)
  | [], _, pagetable => pure (some pagetable)
  | level :: levels, σ, pagetable => do
    let m ← get
    let pte := m.word pagetable (px level va)
    if isValid pte then
      walkFrom r va doAlloc levels (σ ++ [px level va]) (pte2pa pte)
    else if doAlloc = false then pure none
    else
      match ← getFreePage alloc .table with
      | none => pure none
      | some p => do
        modify fun m => m.zeroPage p
        modify fun m => m.setWord pagetable (px level va) (pa2pte p ||| pteV)
        modify fun m => m.setPlace p r (σ ++ [px level va])
        walkFrom r va doAlloc levels (σ ++ [px level va]) p

/-- The address of the entry for `va`: its table and its index there. -/
def walk (r va : ℕ) (doAlloc : Bool) : VmM (Option (ℕ × ℕ)) := do
  if va ≥ maxva then throw .walk
  else
    let t ← walkFrom alloc r va doAlloc [2, 1] [] r
    pure (t.map fun t => (t, px 0 va))

/-- The frame after `p`; addresses have 64 bits. -/
def nextFrame (p : ℕ) : ℕ := (p + 1) % 2 ^ 52

/-- The loop of `mappages` over `n` pages. -/
def mapLoop (r perm : ℕ) : ℕ → ℕ → ℕ → VmM Bool
  | 0, _, _ => pure true
  | n + 1, a, pa => do
    match ← walk alloc r a true with
    | none => pure false
    | some (t, k) => do
      let m ← get
      if isValid (m.word t k) then pure false
      else do
        modify fun m => m.setWord t k (pa2pte pa ||| perm ||| pteV)
        mapLoop r perm n (a + pgsize) (nextFrame pa)

/-- `mappages`; `pa` is a frame, the result is whether it returned 0. -/
def mappages (r va size pa perm : ℕ) : VmM Bool :=
  if size = 0 then throw .mappagesSize
  else mapLoop alloc r perm ((va + size - 1) / pgsize - va / pgsize + 1) (pgRoundDown va) pa

/-- One round of `unmap_validpages`. -/
def unmapValid (r a : ℕ) : VmM Unit := do
  match ← walk alloc r a false with
  | none => pure ()
  | some (t, k) => do
    let m ← get
    let pte := m.word t k
    if isValid pte = false then pure ()
    else if pteFlags pte = pteV then pure ()
    else do
      freePage (pte2pa pte)
      modify fun m => m.setWord t k 0

def unmapValidpages (r va npages : ℕ) : VmM Unit :=
  if va % pgsize ≠ 0 then throw .notAligned
  else forRange (fun i => unmapValid alloc r (va + i * pgsize)) 0 npages

/-- One round of `uvmunmap`. -/
def uvmunmapOne (r a : ℕ) (doFree : Bool) : VmM Unit := do
  match ← walk alloc r a false with
  | none => throw .uvmunmapWalk
  | some (t, k) => do
    let m ← get
    let pte := m.word t k
    if isValid pte = false then throw .uvmunmapNotMapped
    else if pteFlags pte = pteV then throw .uvmunmapNotLeaf
    else do
      if doFree then freePage (pte2pa pte)
      modify fun m => m.setWord t k 0

def uvmunmap (r va npages : ℕ) (doFree : Bool) : VmM Unit :=
  if va % pgsize ≠ 0 then throw .notAligned
  else forRange (fun i => uvmunmapOne alloc r (va + i * pgsize) doFree) 0 npages

/-- `walkaddr`, as a frame. -/
def walkaddr (r va : ℕ) : VmM (Option ℕ) := do
  if va ≥ maxva then pure none
  else
    match ← walk alloc r va false with
    | none => pure none
    | some (t, k) => do
      let m ← get
      let pte := m.word t k
      if isValid pte = false then pure none
      else if isUser pte = false then pure none
      else pure (some (pte2pa pte))

def copyKernelTbl : VmM (Option ℕ) := do
  match ← getFreePage alloc .table with
  | none => pure none
  | some new => do
    modify fun m => m.zeroPage new
    modify fun m => m.copyPage new m.kernelPagetable
    modify fun m => { m.setPlace new new [] with tables := new :: m.tables }
    pure (some new)

end Functions

end RiscvBm.Vm

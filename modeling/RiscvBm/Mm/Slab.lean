import Mathlib.Data.Int.DivMod
import RiscvBm.Lib.Wp
import RiscvBm.Mm.Buddy

/-!
# The kernel heap (`kernel/slab.c`)

`kmalloc` serves small requests from slob pages and large ones from the buddy
system. Memory that the slob code itself reads and writes is the function
`cell`, one entry for each two-byte unit.

When the walk of `slob_alloc` over `free_slob_list` ends without success, its
loop variable `page` points to `container_of(&free_slob_list, struct page, lru)`,
which is no page descriptor. The code after the loop goes on using it:
`PagePtr.listHead` stands for that descriptor. Its `lru` is the list head, so
`INIT_LIST_HEAD` and `list_add` on it leave the list empty.

The field `trace` records the calls into the buddy system and the objects handed
out and taken back, newest first; no function of the source reads it.
-/

namespace RiscvBm.Slab

open BitOps Wp Function

/-! ## §1  State -/

/-- The fields of `struct page` that `slab.c` uses. -/
structure Desc where
  /-- the flag `PG_slab` -/
  slab : Bool
  freelist : ℕ
  /-- `slob_left_units`: free units of a slob page, or the order of a large block -/
  leftUnits : ℤ

inductive PagePtr where
  | page (pfn : ℕ)
  | listHead
deriving DecidableEq, Repr

/-- What a caller of `kmalloc` was given: an address and the size asked for. -/
structure Obj where
  ptr : ℕ
  size : ℕ
deriving DecidableEq, Repr

inductive Event where
  | get (p k : ℕ)        -- `get_free_pages(k)` returned the block at page `p`
  | free (p k : ℕ)       -- `free_pages` on page `p` with order `k`
  | alloc (o : Obj)      -- `kmalloc` returned
  | drop (o : Obj)       -- `kfree` was called
deriving DecidableEq, Repr

inductive Fault where
  | badUnlink            -- `list_del` on a page that is on no list
  | beyondScope          -- the panic of `check_alloc_scope`
  | nullMemset           -- `memset(NULL, 0, size)` after a failed large allocation
  | endless              -- a walk along a free list that does not end
deriving DecidableEq, Repr

structure St where
  mem : PageAlloc.St
  desc : PagePtr → Desc
  /-- `free_slob_list` -/
  list : List ℕ
  cell : ℕ → ℤ
  /-- the buddy system has dereferenced a NULL link -/
  crashed : Bool
  trace : List Event

abbrev Prog := Wp.Prog St Fault

/-- After `kmem_cache_init`. -/
def init (mem : PageAlloc.St) : St where
  mem := mem
  desc := fun _ => ⟨false, 0, 0⟩
  list := []
  cell := fun _ => 0
  crashed := false
  trace := []

def setDesc (s : St) (p : PagePtr) (d : Desc) : St := { s with desc := update s.desc p d }

/-! ## §2  Calls into the buddy system -/

/-- `get_free_pages`; 0 stands for failure. -/
def getFreePages (order : ℕ) : Prog ℕ := fun s =>
  match PageAlloc.allocPages s.mem order with
  | (mem, some pfn) => .ok (pfn * pgsize, { s with mem := mem, trace := .get pfn order :: s.trace })
  | (mem, none) => .ok (0, { s with mem := mem })

/-- The state after `free_pages`. -/
def freed (s : St) (addr order : ℕ) : St :=
  let s := { s with trace := .free (addr / pgsize) order :: s.trace }
  match PageAlloc.freePages s.mem (addr / pgsize) order with
  | some mem => { s with mem := mem }
  | none => { s with crashed := true }

def freePages (addr order : ℕ) : Prog Unit := modify fun s => freed s addr order

/-! ## §3  Slob pages -/

/-- Conversion to `slobidx_t`. -/
def short (x : ℤ) : ℤ := Int.bmod x (2 ^ 16)

def pageBase (a : ℕ) : ℕ := a / pgsize * pgsize

/-- `SLOB_UNITS(size)` -/
def unitsOf (size : ℕ) : ℕ := (size + 1) / 2

def setSlob (s : St) (b : ℕ) (size : ℤ) (next : ℕ) : St :=
  let offset := short (((next : ℤ) - pageBase b) / 2)
  if 1 < size then { s with cell := update (update s.cell (b / 2) size) (b / 2 + 1) offset }
  else { s with cell := update s.cell (b / 2) (short (-offset)) }

def slobNext (s : St) (b : ℕ) : ℕ :=
  let next := if s.cell (b / 2) < 0 then short (-s.cell (b / 2)) else s.cell (b / 2 + 1)
  (((pageBase b : ℤ) + 2 * next) % 2 ^ 64).toNat

def slobUnits (s : St) (b : ℕ) : ℤ := if 0 < s.cell (b / 2) then s.cell (b / 2) else 1

def slobLast (s : St) (b : ℕ) : Bool := slobNext s b % pgsize == 0

/-- The loop of `slob_page_alloc` from block `cur` on. -/
def slobPageAllocLoop (page : PagePtr) (size : ℕ) : ℕ → ℕ → Prog (Option ℕ)
  | 0, _ => throw .endless
  | n + 1, cur => do
    let s ← get
    let avail := slobUnits s cur
    let objectSize := unitsOf size
    if (objectSize : ℤ) ≤ avail then do
      let next := slobNext s cur
      modify fun s =>
        let s :=
          if avail = objectSize then setDesc s page { s.desc page with freelist := next }
          else
            let s := setDesc s page { s.desc page with freelist := cur + 2 * objectSize }
            setSlob s (cur + 2 * objectSize) (avail - objectSize) next
        setDesc s page { s.desc page with leftUnits := (s.desc page).leftUnits - objectSize }
      return some cur
    else if slobLast s cur then return none
    else slobPageAllocLoop page size n (slobNext s cur)

/-- `slob_page_alloc`; a chain inside one page has at most `pgsize / 2` blocks. -/
def slobPageAlloc (page : PagePtr) (size : ℕ) : Prog (Option ℕ) := do
  let s ← get
  slobPageAllocLoop page size (pgsize / 2 + 1) (s.desc page).freelist

/-- `while (b > next) { prev = next; next = slob_next(prev); }` -/
def findPrev (s : St) (b : ℕ) : ℕ → ℕ → ℕ → Option (ℕ × ℕ)
  | 0, _, _ => none
  | n + 1, prev, next => if next < b then findPrev s b n next (slobNext s next)
    else some (prev, next)

/-- `list_del(&page->lru)` for a page on `free_slob_list` -/
def listDel (pfn : ℕ) : Prog Unit := do
  let s ← get
  require (pfn ∈ s.list) .badUnlink
  modify fun s => { s with list := s.list.erase pfn }

/-- `slob_free`, below `page->freelist`. -/
def slobFreeBelow (page : PagePtr) (b : ℕ) (objectSize : ℤ) : Prog Unit :=
  modify fun s =>
    let s :=
      if (b : ℤ) + 2 * objectSize = (s.desc page).freelist then
        setDesc s page { s.desc page with freelist := slobNext s (s.desc page).freelist }
      else s
    let s := setSlob s b objectSize (s.desc page).freelist
    setDesc s page { s.desc page with freelist := b }

/-- `slob_free`, above `page->freelist`: between the free blocks `prev` and `next`. -/
def slobFreeBetween (b : ℕ) (objectSize : ℤ) (prev next : ℕ) : Prog Unit :=
  modify fun s =>
    let s :=
      if !slobLast s prev ∧ (b : ℤ) + 2 * objectSize = next then
        setSlob s b (short (objectSize + slobUnits s next)) (slobNext s next)
      else setSlob s b objectSize next
    if (prev : ℤ) + 2 * slobUnits s prev = b then
      setSlob s prev (short (slobUnits s b + slobUnits s prev)) (slobNext s b)
    else setSlob s prev (slobUnits s prev) b

def slobFree (b : ℕ) (size : ℤ) : Prog Unit := do
  let s ← get
  let page := PagePtr.page (b / pgsize)
  let objectSize := short ((size + 1) / 2)
  if ((s.desc page).leftUnits + objectSize) % 2 ^ 64 = unitsOf pgsize then
    if (s.desc page).slab then do
      listDel (b / pgsize)
      modify fun s => setDesc s page { s.desc page with slab := false }
      freePages b 0
    else freePages b 0
  else do
    modify fun s =>
      setDesc s page { s.desc page with leftUnits := (s.desc page).leftUnits + objectSize }
    let freelist := (s.desc page).freelist
    if b < freelist then slobFreeBelow page b objectSize
    else match findPrev s b (pgsize / 2 + 1) freelist (slobNext s freelist) with
      | some (prev, next) => slobFreeBetween b objectSize prev next
      | none => throw .endless

def checkAllocScope (start b size : ℕ) : Prog Unit :=
  require (start ≤ b ∧ b + size ≤ start + pgsize) .beyondScope

/-- The walk of `slob_alloc` along `free_slob_list`; without success the loop
variable is left at the list head. -/
def slobWalk (size : ℕ) : List ℕ → Prog (Option ℕ × PagePtr)
  | [] => return (none, .listHead)
  | pfn :: rest => do
    let s ← get
    if (s.desc (.page pfn)).leftUnits % 2 ^ 64 < unitsOf size then slobWalk size rest
    else do
      let b ← slobPageAlloc (.page pfn) size
      match b with
      | none => slobWalk size rest
      | some b => do
        checkAllocScope (pfn * pgsize) b size
        return (some b, .page pfn)

/-- `INIT_LIST_HEAD(&page->lru); list_add(&page->lru, &free_slob_list);` -/
def initLru (s : St) : PagePtr → St
  | .page pfn => { s with list := pfn :: s.list }
  | .listHead => { s with list := [] }

/-- `memset(b, 0, size)` -/
def memset (b size : ℕ) : Prog Unit :=
  modify fun s => { s with
    cell := fun i => if b ≤ 2 * i ∧ 2 * i < b + size then 0 else s.cell i }

/-- The fresh page of `slob_alloc`: all of it one free block. -/
def freshPage (s : St) (page : PagePtr) (b : ℕ) : St :=
  let s := setDesc s page ⟨true, b, unitsOf pgsize⟩
  let s := setSlob s b (unitsOf pgsize) (b + pgsize)
  initLru s page

def slobAlloc (size : ℕ) : Prog (Option ℕ) := do
  let s ← get
  let (b, page) ← slobWalk size s.list
  match b with
  | some b => do
    memset b size
    return some b
  | none => do
    let b ← getFreePages 0
    if b = 0 then return none
    else do
      modify fun s => freshPage s page b
      let r ← slobPageAlloc page size
      match r with
      | none => throw .nullMemset
      | some b => do
        memset b size
        return some b

/-! ## §4  `kmalloc` and `kfree` -/

def align : ℕ := 8

/-- `ALIGN(size, sizeof(unsigned int))` -/
def roundUp (size : ℕ) : ℕ := (size + 3) % 2 ^ 64 / 4 * 4

/-- The requests that go to the slob pages. -/
def Small (size : ℕ) : Prop := roundUp size < pgsize - align

instance (size : ℕ) : Decidable (Small size) :=
  inferInstanceAs (Decidable (roundUp size < pgsize - align))

/-- `*(unsigned int *)b = size` -/
def setHeader (s : St) (b size : ℕ) : St :=
  let low := short (size : ℤ)
  let high := short ((size / 2 ^ 16 : ℕ) : ℤ)
  { s with cell := update (update s.cell (b / 2) low) (b / 2 + 1) high }

def kmalloc (size : ℕ) : Prog (Option ℕ) := do
  if Small size then do
    let b ← slobAlloc (roundUp size + align)
    match b with
    | none => return none
    | some b => do
      modify fun s => setHeader s b (roundUp size)
      return some (b + align)
  else do
    let order := getOrder (roundUp size)
    let ret ← getFreePages order
    if ret = 0 then throw .nullMemset
    else do
      memset ret (roundUp size)
      modify fun s => setDesc s (.page (ret / pgsize))
        { s.desc (.page (ret / pgsize)) with leftUnits := order }
      return some ret

/-- `*(unsigned int *)m` -/
def header (s : St) (m : ℕ) : ℤ := s.cell (m / 2) % 2 ^ 16 + 2 ^ 16 * (s.cell (m / 2 + 1) % 2 ^ 16)

def kfree (block : ℕ) : Prog Unit := do
  let s ← get
  if (s.desc (.page (block / pgsize))).slab then
    slobFree (block - align) (header s (block - align) + align)
  else
    freePages block ((s.desc (.page (block / pgsize))).leftUnits % 2 ^ 32).toNat

end RiscvBm.Slab

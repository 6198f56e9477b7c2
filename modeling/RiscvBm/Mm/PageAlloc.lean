import RiscvBm.Lib.Dyadic
import RiscvBm.Lib.Transition
import RiscvBm.Mm.BitOps

/-!
# The buddy allocator (`kernel/page_alloc.c`, `memblock_free_all`)

Page descriptors are indexed by page frame number: `page + (buddy_pfn - pfn)` is
the descriptor of `buddy_pfn`. A free list is the list of the page frame numbers
that `free_list.next` leads to. The functions run under `zone->lock`, so each is
one step.

`list_del` unlinks a page from the list it is on. A page on no list has NULL
links, and `list_del` on it faults; that is the outcome `none` below.

`buddy_partition` is the partition of the pages handed over at boot into free
and live blocks, `buddy_canonical` says that the free blocks are the maximal
ones. Both rest on one observation (`Part.isBuddy_iff`): although flags of
absorbed buddies stay set, the test `page_is_buddy` is exact whenever it is made.
-/

namespace RiscvBm.PageAlloc

open BitOps RiscvBm.Dyadic Transition Function

/-! ## §1  State -/

/-- The fields of `struct page` that the buddy system uses. -/
structure Page where
  /-- the flag `PG_buddy` -/
  buddy : Bool
  priv : ℕ
  refcount : ℤ

structure Area where
  list : List ℕ
  nrFree : ℤ

structure St where
  page : ℕ → Page
  area : ℕ → Area

/-- After `free_area_init_node`: zeroed descriptors, empty lists. -/
def init : St where
  page := fun _ => ⟨false, 0, 0⟩
  area := fun _ => ⟨[], 0⟩

def setPage (s : St) (pfn : ℕ) (p : Page) : St := { s with page := update s.page pfn p }

def setArea (s : St) (k : ℕ) (a : Area) : St := { s with area := update s.area k a }

/-- `list_add(&page->lru, &area[k].free_list)` -/
def listAdd (s : St) (pfn k : ℕ) : St :=
  setArea s k { s.area k with list := pfn :: (s.area k).list }

/-- `list_del(&page->lru)` -/
def listDel (s : St) (pfn : ℕ) : Option St :=
  match (List.range maxOrder).find? fun k => pfn ∈ (s.area k).list with
  | some k => some (setArea s k { s.area k with list := (s.area k).list.erase pfn })
  | none => none

/-- `area[k].nr_free += d` -/
def addNrFree (s : St) (k : ℕ) (d : ℤ) : St :=
  setArea s k { s.area k with nrFree := (s.area k).nrFree + d }

def clearPageOrder (s : St) (pfn : ℕ) : St :=
  setPage s pfn { s.page pfn with priv := 0, buddy := false }

def setPageOrder (s : St) (pfn order : ℕ) : St :=
  setPage s pfn { s.page pfn with priv := order, buddy := true }

def pageIsBuddy (s : St) (pfn order : ℕ) : Bool :=
  (s.page pfn).buddy && (s.page pfn).priv == order

def findBuddyPfn (pfn order : ℕ) : ℕ := buddy pfn order

/-! ## §2  Freeing -/

/-- The loop of `__free_one_page`; it ends at order `MAX_ORDER - 1` after the
given number of rounds. -/
def mergeLoop : ℕ → St → ℕ → ℕ → Option (St × ℕ × ℕ)
  | 0, s, pfn, order => some (s, pfn, order)
  | n + 1, s, pfn, order =>
    let buddyPfn := findBuddyPfn pfn order
    if pageIsBuddy s buddyPfn order then do
      let s ← listDel s buddyPfn
      let s := addNrFree s order (-1)
      -- clears the page being freed, not the buddy it absorbs
      let s := clearPageOrder s pfn
      mergeLoop n s (buddyPfn &&& pfn) (order + 1)
    else some (s, pfn, order)

def freeOnePage (s : St) (pfn order : ℕ) : Option St := do
  let (s, pfn, order) ← mergeLoop (maxOrder - 1 - order) s pfn order
  let s := setPageOrder s pfn order
  let s := listAdd s pfn order
  some (addNrFree s order 1)

/-- `__free_pages` -/
def freePages (s : St) (pfn order : ℕ) : Option St :=
  let refcount := (s.page pfn).refcount - 1
  let s := setPage s pfn { s.page pfn with refcount := refcount }
  if refcount = 0 then freeOnePage s pfn order else some s

def memblockFreePages (s : St) (pfn order : ℕ) : Option St :=
  let s := { s with
    page := fun x =>
      if pfn ≤ x ∧ x < pfn + (2 ^ order - 1) then { s.page x with buddy := false, refcount := 0 }
      else s.page x }
  freePages (setPage s pfn { s.page pfn with refcount := 1 }) pfn order

/-! ## §3  Allocating -/

/-- The loop of `expend`, with the number `high - low` of rounds. -/
def expend : ℕ → St → ℕ → ℕ → St
  | 0, s, _, _ => s
  | n + 1, s, pfn, high =>
    let high := high - 1
    let size := 2 ^ high
    let s := listAdd s (pfn + size) high
    let s := addNrFree s high 1
    let s := setPageOrder s (pfn + size) high
    expend n s pfn high

/-- The loop of `__rmqueue` from `current` on. -/
def rmqueueLoop (order : ℕ) : ℕ → ℕ → St → St × Option ℕ
  | 0, _, s => (s, none)
  | n + 1, current, s =>
    match (s.area current).list with
    | [] => rmqueueLoop order n (current + 1) s
    | pfn :: rest =>
      let s := setArea s current { s.area current with list := rest }
      let s := clearPageOrder s pfn
      let s := addNrFree s current (-1)
      (expend (current - order) s pfn current, some pfn)

def rmqueue (s : St) (order : ℕ) : St × Option ℕ :=
  rmqueueLoop order (maxOrder - order) order s

def allocPages (s : St) (order : ℕ) : St × Option ℕ :=
  match rmqueue s order with
  | (s, some pfn) => (setPage s pfn { s.page pfn with priv := order, refcount := 1 }, some pfn)
  | (s, none) => (s, none)

/-! ## §4  Handing over the boot memory -/

/-- `while ((start_pfn + (1 << order)) > end_pfn) order--;` -/
def fitOrder (start stop : ℕ) : ℕ → ℕ
  | 0 => 0
  | k + 1 => if start + 2 ^ (k + 1) > stop then fitOrder start stop k else k + 1

/-- The outer loop of `memblock_free_memory`; every round advances by a page or
more, so `stop - start` rounds are enough. -/
def freeMemoryLoop : ℕ → St → ℕ → ℕ → Option St
  | 0, s, _, _ => some s
  | n + 1, s, start, stop =>
    if start < stop then do
      let order := fitOrder start stop (min (maxOrder - 1) (ffs start))
      let s ← memblockFreePages s start order
      freeMemoryLoop n s (start + 2 ^ order) stop
    else some s

def pfnDown (x : ℕ) : ℕ := x / pgsize

def pfnUp (x : ℕ) : ℕ := (x + pgsize - 1) / pgsize

def memblockFreeMemory (s : St) (start stop : ℕ) : Option St :=
  freeMemoryLoop (pfnUp stop - pfnDown start) s (pfnDown start) (pfnUp stop)

/-- `struct memblock_region`; `free` is `flags == MEMBLOCK_FREE`. -/
structure Region where
  base : ℕ
  size : ℕ
  free : Bool
deriving DecidableEq, Repr

/-- `memblock_free_all`. Reserved regions only get the flag `PG_reserved`, which
the buddy system never reads. -/
def memblockFreeAll : St → List Region → Option St
  | s, [] => some s
  | s, r :: rs =>
    if r.free then do
      let s ← memblockFreeMemory s r.base (r.base + r.size)
      memblockFreeAll s rs
    else memblockFreeAll s rs

end RiscvBm.PageAlloc

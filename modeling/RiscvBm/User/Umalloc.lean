import Mathlib.Algebra.Order.Ring.Nat
import Mathlib.Data.List.Perm.Basic
import RiscvBm.Lib.Extents
import RiscvBm.Lib.Transition
import RiscvBm.Param

/-!
# The user heap (`user/umalloc.c`)

`malloc` and `free` over a program break that the kernel moves in whole pages. A block is a
header of 24 bytes and `size` bytes behind it; the free blocks are on one list, kept in the order
of their addresses. `free` merges neighbours and gives the tail of the heap back with `brk`.

The extents of all blocks stay disjoint and below the break in a run exactly when no call
trims a tail that starts at most 24 bytes before a page boundary (`integrity_iff_trimmable`): there
the code keeps a page in the block's `size` that it has given back.
-/

namespace RiscvBm.Umalloc

open Extents Transition

/-! ## §1  Blocks and the break -/

/-- `BLOCK_META_SIZE`, `sizeof(block_metadata_t)`. -/
def blockMetaSize : ℕ := 24
def allocUnit : ℕ := 4096 * 3
def minDealloc : ℕ := 4096

/-- `PAGE_UP`, for sums below `2 ^ 64`. -/
def pageUp (n : ℕ) : ℕ := (n + minDealloc - 1) / minDealloc * minDealloc

/-- A header: its address and its `size`. -/
structure Block where
  addr : ℕ
  size : ℕ
deriving DecidableEq, Repr

/-- Header and memory. -/
def Block.extent (b : Block) : Extent := ⟨b.addr, b.addr + blockMetaSize + b.size⟩

structure St where
  /-- the list at `_block_head` -/
  free : List Block
  /-- blocks handed out and not freed yet -/
  live : List Block
  brk : ℕ
  /-- the process has touched memory beyond the break -/
  faulted : Bool
deriving DecidableEq, Repr

def init : St where
  free := []
  live := []
  brk := userMemStart
  faulted := false

/-- What `do_brk` makes of the break: rounded down, unless it grows or the request is
in the page the break is at. -/
def doBrk (old brk : ℕ) : ℕ :=
  if brk < userMemStart then old
  else
    let newbrk := brk / pgsize * pgsize
    if old = newbrk then brk
    else if brk < old then newbrk
    else brk

/-! ## §2  The functions of `umalloc.c` -/

/-- `split_block`: what is cut off, if it has room for more than a header. -/
def splitBlock (b : Block) (size : ℕ) : Option (Block × Block) :=
  if b.size ≤ size + blockMetaSize then none
  else some (⟨b.addr, size⟩,
    ⟨b.addr + blockMetaSize + size, b.size - size - blockMetaSize⟩)

/-- The loop of `add_to_freelist`, behind a block below `f`. -/
def insertAfter (f : Block) : List Block → List Block
  | [] => [f]
  | n :: l => if n.addr > f.addr then f :: n :: l else n :: insertAfter f l

def addToFreelist (f : Block) : List Block → List Block
  | [] => [f]
  | h :: l => if f.addr ≤ h.addr then f :: h :: l else h :: insertAfter f l

/-- The first block of at least `size` bytes, and the list without it. -/
def takeFit (size : ℕ) : List Block → Option (Block × List Block)
  | [] => none
  | b :: l =>
    if b.size ≥ size then some (b, l)
    else (takeFit size l).map fun r => (r.1, b :: r.2)

/-- The block goes to the caller, the rest of it to the free list. -/
def carve (b : Block) (size : ℕ) (free : List Block) : Block × List Block :=
  match splitBlock b size with
  | none => (b, free)
  | some (b', newb) => (b', addToFreelist newb free)

/-- How much `malloc` asks `sbrk` for. -/
def allocSize (size : ℕ) : ℕ :=
  if size ≥ allocUnit then pageUp (size + blockMetaSize) else allocUnit

/-- `malloc`, with any heap. -/
def mallocAt (s : St) (size : ℕ) : Block × St :=
  match takeFit size s.free with
  | some (b, rest) =>
    let r := if b.size = size then (b, rest) else carve b size rest
    (r.1, { s with free := r.2, live := r.1 :: s.live })
  | none =>
    let b : Block := ⟨s.brk, allocSize size - blockMetaSize⟩
    let r := if allocSize size > size + blockMetaSize then carve b size s.free else (b, s.free)
    (r.1, { s with
      free := r.2, live := r.1 :: s.live, brk := doBrk s.brk (s.brk + pageUp (allocSize size)) })

/-- `malloc`. The result is `none` for a request with which the heap would reach `2 ^ 31`
bytes. -/
def malloc (s : St) (size : ℕ) : Option (Block × St) :=
  if takeFit size s.free = none ∧ 2 ^ 31 ≤ s.brk + allocSize size - userMemStart then none
  else some (mallocAt s size)

/-- The first round of the merge loop that finds two neighbours. -/
def mergeFirst : List Block → Option (List Block)
  | a :: b :: l =>
    if a.addr + blockMetaSize + a.size = b.addr then
      some (⟨a.addr, a.size + b.size + blockMetaSize⟩ :: l)
    else (mergeFirst (b :: l)).map (a :: ·)
  | _ => none

/-- `retry:` at most `n` times. -/
def mergeLoop : ℕ → List Block → List Block
  | 0, l => l
  | n + 1, l =>
    match mergeFirst l with
    | none => l
    | some l' => mergeLoop n l'

/-- Every merge takes a block off the list. -/
def merge (l : List Block) : List Block := mergeLoop l.length l

/-- `scan_and_merge` after the merging: the tail of the heap goes back to the kernel. -/
def trim (s : St) : St :=
  if s.brk = 0 then s
  else
    match s.free.getLast? with
    | none => s
    | some c =>
      let total := c.size + blockMetaSize
      if c.addr + c.size + blockMetaSize = s.brk ∧ total ≥ minDealloc then
        if c.addr % minDealloc = 0 then
          { s with free := s.free.dropLast, brk := doBrk s.brk c.addr }
        else
          let count := total / minDealloc
          let remainder := total % minDealloc
          if remainder ≤ blockMetaSize ∧ count = 1 then s
          else if count > 1 ∧ remainder ≤ blockMetaSize then
            { s with
              free := s.free.dropLast ++ [⟨c.addr, c.size - (count - 1) * minDealloc⟩]
              brk := doBrk s.brk (pageUp c.addr) }
          else if count > 1 ∧ remainder > blockMetaSize then
            { s with
              free := s.free.dropLast ++ [⟨c.addr, c.size - count * minDealloc⟩]
              brk := doBrk s.brk (pageUp c.addr) }
          else s
      else s

/-- The block of a live pointer, and the list without it. -/
def takeLive (ptr : ℕ) (live : List Block) : Option (Block × List Block) :=
  (live.find? fun b => b.addr + blockMetaSize = ptr).map fun b => (b, live.erase b)

/-- `free` up to the trimming. -/
def putBack (s : St) (b : Block) (live : List Block) : St :=
  { s with free := merge (addToFreelist b s.free), live := live }

def free (s : St) (ptr : ℕ) : Option St :=
  (takeLive ptr s.live).map fun r => trim (putBack s r.1 r.2)

/-- `memset` or `memcpy` of `n` bytes into the block `b`. A block that is too short for
the request is the last one of the heap, and the access behind it faults. -/
def fill (s : St) (b : Block) (n : ℕ) : St := if n ≤ b.size then s else { s with faulted := true }

def calloc (s : St) (n m : ℕ) : Option St :=
  if m = 0 ∨ n = 0 then some s
  else (malloc s (n * m % 2 ^ 64)).map fun r => fill r.2 r.1 (n * m % 2 ^ 64)

def realloc (s : St) (ptr n : ℕ) : Option St :=
  match takeLive ptr s.live with
  | none => none
  | some (old, _) =>
    if n = 0 then some s
    else
      match malloc s n with
      | none => none
      | some (b, s') =>
        let s' := fill s' b (if n > old.size then old.size else n)
        if s'.faulted then some s' else free s' ptr

inductive Act where
  | malloc (size : ℕ)
  | calloc (n m : ℕ)
  | realloc (ptr n : ℕ)
  | free (ptr : ℕ)
deriving DecidableEq, Repr

def step (s : St) (a : Act) : Option St :=
  if s.faulted then none
  else
    match a with
    | .malloc size => (malloc s size).map Prod.snd
    | .calloc n m => calloc s n m
    | .realloc ptr n => realloc s ptr n
    | .free ptr => free s ptr

/-! ## §3  The lists -/

theorem insertAfter_perm (f : Block) (l : List Block) : (insertAfter f l).Perm (f :: l) := by
  induction l with
  | nil => exact List.Perm.refl _
  | cons n l ih =>
    rw [insertAfter]
    split
    · exact List.Perm.refl _
    · exact (ih.cons n).trans (List.Perm.swap f n l)

theorem addToFreelist_perm (f : Block) (l : List Block) : (addToFreelist f l).Perm (f :: l) := by
  cases l with
  | nil => exact List.Perm.refl _
  | cons h l =>
    rw [addToFreelist]
    split
    · exact List.Perm.refl _
    · exact ((insertAfter_perm f l).cons h).trans (List.Perm.swap f h l)

theorem takeFit_some {size : ℕ} {l rest : List Block} {b : Block}
    (h : takeFit size l = some (b, rest)) : l.Perm (b :: rest) ∧ size ≤ b.size := by
  induction l generalizing rest with
  | nil => cases h
  | cons c l ih =>
    rw [takeFit] at h
    split at h
    · cases h
      exact ⟨List.Perm.refl _, ‹_›⟩
    · obtain ⟨⟨b', rest'⟩, hrec, heq⟩ := Option.map_eq_some_iff.mp h
      cases heq
      obtain ⟨hperm, hsize⟩ := ih hrec
      exact ⟨(hperm.cons c).trans (List.Perm.swap b' c rest'), hsize⟩

theorem takeFit_none {size : ℕ} {l : List Block} (h : takeFit size l = none) :
    ∀ b ∈ l, b.size < size := by
  induction l with
  | nil => simp
  | cons c l ih =>
    rw [takeFit] at h
    split at h
    · cases h
    · next hsmall =>
        exact List.forall_mem_cons.mpr ⟨Nat.not_le.mp hsmall, ih (Option.map_eq_none_iff.mp h)⟩

theorem takeLive_some {ptr : ℕ} {live rest : List Block} {b : Block}
    (h : takeLive ptr live = some (b, rest)) : live.Perm (b :: rest) := by
  obtain ⟨b', hfind, heq⟩ := Option.map_eq_some_iff.mp h
  cases heq
  exact List.perm_cons_erase (List.mem_of_find?_eq_some hfind)

theorem getLast_perm {l : List Block} {c : Block} (h : l.getLast? = some c) :
    l.Perm (c :: l.dropLast) := by
  obtain ⟨l', rfl⟩ := List.getLast?_eq_some_iff.mp h
  rw [List.dropLast_concat]
  exact List.perm_append_singleton c l'

/-! ## §4  Extents -/

section Extents

variable {lo hi : ℕ} {es : List Extent} {b : Block} {free : List Block}

/-- What `split_block` cuts a block into. -/
theorem carve_packed {size : ℕ} (h : Packed lo hi (b.extent :: (free.map Block.extent ++ es))) :
    Packed lo hi ((carve b size free).1.extent ::
      ((carve b size free).2.map Block.extent ++ es)) := by
  unfold carve
  cases hsplit : splitBlock b size with
  | none => exact h
  | some r =>
    obtain ⟨b', newb⟩ := r
    unfold splitBlock at hsplit
    split at hsplit
    · cases hsplit
    cases hsplit
    rename_i hroom
    have hcut := h.split (b := b.addr + blockMetaSize + size)
      (show b.addr < b.addr + 24 + size by omega)
      (show b.addr + 24 + size < b.addr + 24 + b.size by
        have : ¬ b.size ≤ size + 24 := hroom
        omega)
    apply hcut.perm
    have hnew : Block.extent ⟨b.addr + blockMetaSize + size, b.size - size - blockMetaSize⟩ =
        ⟨b.addr + blockMetaSize + size, b.addr + blockMetaSize + b.size⟩ := by
      unfold Block.extent
      congr 1
      show b.addr + 24 + size + 24 + (b.size - size - 24) = b.addr + 24 + b.size
      have : ¬ b.size ≤ size + 24 := hroom
      omega
    apply List.Perm.cons
    rw [← hnew, ← List.cons_append, ← List.map_cons]
    exact ((addToFreelist_perm _ free).symm.map Block.extent).append_right es

theorem mergeFirst_packed {l l' : List Block} (hm : mergeFirst l = some l')
    (h : Packed lo hi (l.map Block.extent ++ es)) : Packed lo hi (l'.map Block.extent ++ es) := by
  induction l generalizing l' es with
  | nil => cases hm
  | cons a l ih =>
    cases l with
    | nil => cases hm
    | cons b l =>
      rw [mergeFirst] at hm
      split at hm
      · rename_i hadj
        cases hm
        have hsum : Block.extent ⟨a.addr, a.size + b.size + blockMetaSize⟩ =
            ⟨a.addr, b.extent.hi⟩ := by
          unfold Block.extent
          congr 1
          dsimp only
          omega
        rw [List.map_cons, hsum]
        apply Packed.merge (b := b.addr)
        rw [← hadj]
        simp only [List.map_cons, List.cons_append] at h
        rw [show b.extent = ⟨a.addr + blockMetaSize + a.size, b.extent.hi⟩ by
          rw [hadj]; rfl] at h
        exact h
      · -- the pair in front stays; it is moved out of the way of the induction
        obtain ⟨l'', hrec, rfl⟩ := Option.map_eq_some_iff.mp hm
        rw [List.map_cons, List.cons_append] at h ⊢
        exact (ih hrec (h.perm List.perm_middle.symm)).perm List.perm_middle

theorem mergeLoop_packed (n : ℕ) {l : List Block} (h : Packed lo hi (l.map Block.extent ++ es)) :
    Packed lo hi ((mergeLoop n l).map Block.extent ++ es) := by
  induction n generalizing l with
  | zero => exact h
  | succ n ih =>
    rw [mergeLoop]
    split
    · exact h
    · exact ih (mergeFirst_packed ‹_› h)

end Extents

/-! ## §5  The invariant -/

structure Inv (s : St) : Prop where
  packed : Packed userMemStart s.brk (s.free.map Block.extent ++ s.live.map Block.extent)
  aligned : s.brk % minDealloc = 0
  lo : userMemStart ≤ s.brk

theorem inv_init : Inv init where
  packed := packed_nil _ _
  aligned := by decide
  lo := Nat.le_refl _

theorem doBrk_of_aligned {old a : ℕ} (hlo : userMemStart ≤ a) (ha : a % minDealloc = 0) :
    doBrk old a = a := by
  unfold doBrk pgsize
  unfold minDealloc at ha
  rw [if_neg (by omega)]
  have : a / 4096 * 4096 = a := by omega
  simp only [this]
  split_ifs <;> rfl

theorem pageUp_mod (n : ℕ) : pageUp n % minDealloc = 0 := Nat.mul_mod_left _ _

theorem le_pageUp (n : ℕ) : n ≤ pageUp n := by
  unfold pageUp minDealloc
  omega

theorem pageUp_of_aligned {n : ℕ} (h : n % minDealloc = 0) : pageUp n = n := by
  unfold pageUp minDealloc at *
  omega

theorem allocSize_mod (size : ℕ) : allocSize size % minDealloc = 0 := by
  unfold allocSize
  split
  · exact pageUp_mod _
  · decide

theorem allocSize_ge (size : ℕ) : allocUnit ≤ allocSize size := by
  unfold allocSize
  split
  · rename_i hsize
    have := le_pageUp (size + blockMetaSize)
    unfold blockMetaSize at this ⊢
    omega
  · exact Nat.le_refl _

section Steps

variable {s s' : St} {b : Block} {n : ℕ}

theorem malloc_some (hm : malloc s n = some (b, s')) : (b, s') = mallocAt s n := by
  unfold Umalloc.malloc at hm
  split at hm
  · cases hm
  · exact (Option.some.inj hm).symm

/-- `malloc` gives out a block of its own. -/
theorem Inv.mallocAt (h : Inv s) (n : ℕ) : Inv (mallocAt s n).2 := by
  unfold Umalloc.mallocAt
  split
  · rename_i c rest hfit
    obtain ⟨hperm, -⟩ := takeFit_some hfit
    have hpacked : Packed userMemStart s.brk (c.extent ::
        (rest.map Block.extent ++ s.live.map Block.extent)) := by
      apply h.packed.perm
      rw [← List.cons_append, ← List.map_cons]
      exact (hperm.map _).append_right _
    refine ⟨?_, h.aligned, h.lo⟩
    rw [List.map_cons]
    apply Packed.perm _ List.perm_middle.symm
    split
    · exact hpacked
    · exact carve_packed hpacked
  · have hsize := allocSize_mod n
    have hge := allocSize_ge n
    have hal := h.aligned
    have hlo := h.lo
    have hbrk : doBrk s.brk (s.brk + pageUp (allocSize n)) = s.brk + allocSize n := by
      rw [pageUp_of_aligned hsize]
      apply doBrk_of_aligned
      · omega
      · unfold minDealloc at *
        omega
    have hblock : Block.extent ⟨s.brk, allocSize n - blockMetaSize⟩ =
        ⟨s.brk, s.brk + allocSize n⟩ := by
      unfold Block.extent
      congr 1
      unfold allocUnit at hge
      unfold blockMetaSize
      dsimp only
      omega
    have hpacked : Packed userMemStart (s.brk + allocSize n)
        (Block.extent ⟨s.brk, allocSize n - blockMetaSize⟩ ::
          (s.free.map Block.extent ++ s.live.map Block.extent)) := by
      rw [hblock]
      apply h.packed.push hlo
      unfold allocUnit at hge
      omega
    rw [hbrk]
    refine ⟨?_, ?_, by dsimp only; omega⟩
    · rw [List.map_cons]
      apply Packed.perm _ List.perm_middle.symm
      split
      · exact carve_packed hpacked
      · exact hpacked
    · unfold minDealloc at *
      dsimp only
      omega

theorem Inv.malloc (h : Inv s) (hm : malloc s n = some (b, s')) : Inv s' := by
  have hinv := h.mallocAt n
  rwa [← malloc_some hm] at hinv

/-- What `malloc` promises: a block of at least `n` bytes below the break that overlaps no
other, and every other free block, or what is left of it, is still on the free list. -/
structure Gives (s : St) (n : ℕ) (b : Block) (s' : St) : Prop where
  size : n ≤ b.size
  below : b.extent.hi ≤ s'.brk
  apart : ∀ c ∈ s'.free ++ s.live, Apart b.extent c.extent
  rest : ∀ c ∈ s.free, c ∈ s'.free ∨ c = b ∨ (c.addr = b.addr ∧ b.size + blockMetaSize < c.size ∧
    ⟨b.addr + blockMetaSize + b.size, c.size - b.size - blockMetaSize⟩ ∈ s'.free)

/-- The block that is handed out, and where the other blocks are. -/
theorem carve_spec (c : Block) (n : ℕ) (l : List Block) :
    (∀ x ∈ l, x ∈ (carve c n l).2) ∧ (n ≤ c.size → n ≤ (carve c n l).1.size) ∧
      (c = (carve c n l).1 ∨ (c.addr = (carve c n l).1.addr ∧
        (carve c n l).1.size + blockMetaSize < c.size ∧
        ⟨(carve c n l).1.addr + blockMetaSize + (carve c n l).1.size,
          c.size - (carve c n l).1.size - blockMetaSize⟩ ∈ (carve c n l).2)) := by
  unfold carve splitBlock
  by_cases hroom : c.size ≤ n + blockMetaSize
  · simp [hroom]
  · have hmem := fun x => (addToFreelist_perm ⟨c.addr + blockMetaSize + n,
      c.size - n - blockMetaSize⟩ l).mem_iff (a := x)
    simp only [if_neg hroom]
    exact ⟨fun x hx => (hmem x).mpr (List.mem_cons_of_mem _ hx), fun _ => le_rfl,
      .inr ⟨trivial, by omega, (hmem _).mpr List.mem_cons_self⟩⟩

/-- The part of the promise that holds of every request. -/
theorem Inv.gives (h : Inv s) (hsize : n ≤ (Umalloc.mallocAt s n).1.size) :
    Gives s n (Umalloc.mallocAt s n).1 (Umalloc.mallocAt s n).2 := by
  have hinv := h.mallocAt n
  have hlive : (Umalloc.mallocAt s n).2.live = (Umalloc.mallocAt s n).1 :: s.live := by
    unfold Umalloc.mallocAt
    split <;> rfl
  have hpacked := hinv.packed
  rw [hlive, List.map_cons] at hpacked
  have hpacked := hpacked.perm List.perm_middle
  refine ⟨hsize, (hpacked.inside _ List.mem_cons_self).2.2, ?_, ?_⟩
  · intro c hc
    apply (List.pairwise_cons.mp hpacked.apart).1
    rw [← List.map_append]
    exact List.mem_map_of_mem hc
  · intro c hc
    unfold Umalloc.mallocAt
    split
    · next d rest hfit =>
        -- the block that fits, or another one
        rcases List.mem_cons.mp ((takeFit_some hfit).1.mem_iff.mp hc) with rfl | hc
        · split
          · exact .inr (.inl rfl)
          · exact .inr (carve_spec c n rest).2.2
        · left
          split
          · exact hc
          · exact (carve_spec d n rest).1 c hc
    · left
      dsimp only
      split
      · exact (carve_spec _ n s.free).1 c hc
      · exact hc

/-- **`malloc` gives what was asked for exactly if a free block is large enough or the
fresh chunk holds a header and the request.** -/
theorem malloc_gives_iff (s : St) (n : ℕ) (h : Inv s) (_hn : n < 2 ^ 31 - allocUnit) :
    Gives s n (mallocAt s n).1 (mallocAt s n).2 ↔
      (∃ c ∈ s.free, n ≤ c.size) ∨ n + blockMetaSize ≤ allocUnit ∨ allocUnit ≤ n := by
  constructor
  · intro hgives
    by_contra! hno
    obtain ⟨hfree, hhigh, hlow⟩ := hno
    have hsize := hgives.size
    unfold mallocAt at hsize
    split at hsize
    · next c rest hfit =>
        obtain ⟨hperm, hle⟩ := takeFit_some hfit
        exact absurd hle (Nat.not_le.mpr (hfree c (hperm.mem_iff.mpr List.mem_cons_self)))
    · simp only [allocSize, if_neg (Nat.not_le.mpr hlow), if_neg (Nat.not_lt.mpr hhigh.le)] at hsize
      unfold allocUnit blockMetaSize at *
      omega
  · intro hcond
    apply h.gives
    unfold mallocAt
    split
    · next c rest hfit =>
        have hle := (takeFit_some hfit).2
        split
        · exact hle
        · exact (carve_spec c n rest).2.1 hle
    · next hfit =>
        have hroom : n + blockMetaSize ≤ allocSize n := by
          unfold allocSize
          rcases hcond with ⟨c, hc, hle⟩ | hlow | hhigh
          · exact absurd hle (Nat.not_le.mpr (takeFit_none hfit c hc))
          · split
            · exact le_pageUp _
            · exact hlow
          · rw [if_pos hhigh]
            exact le_pageUp _
        dsimp only
        split
        · exact (carve_spec _ n s.free).2.1 (by dsimp only; omega)
        · dsimp only
          omega

theorem malloc_gives_init : Gives init 100 (mallocAt init 100).1 (mallocAt init 100).2 :=
  (malloc_gives_iff init 100 inv_init (by decide)).mpr (.inr (.inl (by decide)))

/-- For 12280 bytes the fresh chunk is 12288 bytes with a header of 24. -/
theorem not_gives_init :
    Inv init ∧ ¬ Gives init 12280 (mallocAt init 12280).1 (mallocAt init 12280).2 :=
  ⟨inv_init, fun h => absurd h.size (by decide)⟩

/-- After the merging the tail of the heap starts at most 24 bytes before a page
boundary and is longer than two pages. -/
def badTail (s : St) : Bool :=
  match s.free.getLast? with
  | none => false
  | some c =>
    c.addr + c.size + blockMetaSize = s.brk ∧ c.addr % minDealloc ≠ 0 ∧
      (c.size + blockMetaSize) / minDealloc > 1 ∧
      (c.size + blockMetaSize) % minDealloc ≤ blockMetaSize

/-- Everything else lies below a last block that ends at the break. -/
theorem Inv.below_tail (h : Inv s) {c : Block} (hlast : s.free.getLast? = some c)
    (hend : c.addr + c.size + blockMetaSize = s.brk) :
    userMemStart ≤ c.addr ∧ Packed userMemStart c.addr
      (s.free.dropLast.map Block.extent ++ s.live.map Block.extent) := by
  have hext : c.extent = ⟨c.addr, s.brk⟩ := by
    unfold Block.extent
    congr 1
    omega
  have hpacked : Packed userMemStart s.brk (⟨c.addr, s.brk⟩ ::
      (s.free.dropLast.map Block.extent ++ s.live.map Block.extent)) := by
    rw [← hext, ← List.cons_append, ← List.map_cons]
    exact h.packed.perm (((getLast_perm hlast).map _).append_right _)
  exact ⟨hpacked.pop.1, hpacked.pop.2.2⟩

/-- The last block is cut down to what lies below the next page boundary. -/
theorem Inv.cut (h : Inv s) {c : Block} (hlast : s.free.getLast? = some c)
    (hend : c.addr + c.size + blockMetaSize = s.brk) {k : ℕ}
    (hal : (c.addr + blockMetaSize + k) % minDealloc = 0) :
    Inv { s with
      free := s.free.dropLast ++ [⟨c.addr, k⟩]
      brk := c.addr + blockMetaSize + k } := by
  obtain ⟨hlo, hrest⟩ := h.below_tail hlast hend
  have hlt : c.addr < c.addr + blockMetaSize + k := by
    unfold blockMetaSize
    omega
  refine ⟨?_, hal, by dsimp only; omega⟩
  apply (hrest.push hlo hlt).perm
  rw [List.map_append, List.map_singleton, List.append_assoc, List.singleton_append]
  exact List.perm_middle.symm

/-- The part of the last block below the next page boundary, from its length. -/
theorem pageUp_tail {a t e : ℕ} (hend : a + t = e) (he : e % minDealloc = 0)
    (ha : a % minDealloc ≠ 0) : pageUp a = a + t % minDealloc ∧ 0 < t % minDealloc := by
  unfold pageUp minDealloc at *
  omega

theorem Inv.trim (h : Inv s) (hgood : badTail s = false) : Inv (trim s) := by
  unfold Umalloc.trim
  split
  · exact h
  split
  · exact h
  rename_i c hlast
  dsimp only
  split
  swap
  · exact h
  rename_i htail
  obtain ⟨hend, hbig⟩ := htail
  obtain ⟨hlo, hrest⟩ := h.below_tail hlast hend
  split
  · rename_i hal
    rw [doBrk_of_aligned hlo hal]
    exact ⟨hrest, hal, hlo⟩
  rename_i hal
  split
  · exact h
  split
  · -- the case of the defect
    rename_i hcase
    rw [badTail, hlast] at hgood
    simp only [decide_eq_false_iff_not] at hgood
    exact absurd ⟨hend, hal, hcase⟩ hgood
  split
  swap
  · exact h
  rename_i hcase
  have hend' : c.addr + (c.size + blockMetaSize) = s.brk := by omega
  obtain ⟨hup, -⟩ := pageUp_tail hend' h.aligned hal
  have hsplit := Nat.div_add_mod (c.size + blockMetaSize) minDealloc
  have hcut : pageUp c.addr = c.addr + blockMetaSize +
      (c.size - (c.size + blockMetaSize) / minDealloc * minDealloc) := by
    rw [hup]
    unfold blockMetaSize minDealloc at *
    omega
  rw [doBrk_of_aligned (Nat.le_trans hlo (le_pageUp _)) (pageUp_mod _), hcut]
  apply h.cut hlast hend
  rw [← hcut]
  exact pageUp_mod _

/-- In the case of the defect the last block ends one page behind the new break. -/
theorem trim_badTail (h : Inv s) (hbad : badTail s = true) :
    ∃ c ∈ (Umalloc.trim s).free, (Umalloc.trim s).brk < c.extent.hi := by
  unfold badTail at hbad
  split at hbad
  · cases hbad
  rename_i c hlast
  simp only [decide_eq_true_eq] at hbad
  obtain ⟨hend, hal, hcount, hrem⟩ := hbad
  obtain ⟨hlo, -⟩ := h.below_tail hlast hend
  have hend' : c.addr + (c.size + blockMetaSize) = s.brk := by omega
  obtain ⟨hup, -⟩ := pageUp_tail hend' h.aligned hal
  have hpos : s.brk ≠ 0 := by
    have := h.lo
    have : 0 < userMemStart := by decide
    omega
  have hbig : c.size + blockMetaSize ≥ minDealloc := by
    unfold blockMetaSize minDealloc at *
    omega
  have hcount1 : ¬ ((c.size + blockMetaSize) % minDealloc ≤ blockMetaSize ∧
      (c.size + blockMetaSize) / minDealloc = 1) := by omega
  simp only [Umalloc.trim, if_neg hpos, hlast, if_pos (And.intro hend hbig), if_neg hal,
    if_neg hcount1, if_pos (And.intro hcount hrem),
    doBrk_of_aligned (Nat.le_trans hlo (le_pageUp _)) (pageUp_mod _)]
  refine ⟨_, List.mem_append_right _ (List.mem_singleton_self _), ?_⟩
  rw [hup]
  have hsplit := Nat.div_add_mod (c.size + blockMetaSize) minDealloc
  unfold Block.extent blockMetaSize minDealloc at *
  dsimp only
  omega

theorem Inv.putBack (h : Inv s) {ptr : ℕ} {live : List Block}
    (hlive : takeLive ptr s.live = some (b, live)) : Inv (putBack s b live) := by
  refine ⟨?_, h.aligned, h.lo⟩
  apply mergeLoop_packed
  apply h.packed.perm
  calc (s.free.map Block.extent ++ s.live.map Block.extent).Perm
        (s.free.map Block.extent ++ (b :: live).map Block.extent) :=
        ((takeLive_some hlive).map _).append_left _
    List.Perm _ ((b :: s.free).map Block.extent ++ live.map Block.extent) := by
        rw [List.map_cons, List.map_cons, List.cons_append]
        exact List.perm_middle
    List.Perm _ _ := ((addToFreelist_perm b s.free).symm.map _).append_right _

theorem Inv.fill (h : Inv s) (b : Block) (n : ℕ) : Inv (fill s b n) := by
  unfold Umalloc.fill
  split
  · exact h
  · exact ⟨h.packed, h.aligned, h.lo⟩

end Steps

/-! ## §6  Runs -/

/-- Header and memory of no two blocks overlap, and all lie below the break. -/
def Integrity (s : St) : Prop :=
  ((s.free ++ s.live).map Block.extent).Pairwise Apart ∧
    ∀ b ∈ s.free ++ s.live, b.extent.hi ≤ s.brk

theorem Inv.integrity {s : St} (h : Inv s) : Integrity s := by
  constructor
  · rw [List.map_append]
    exact h.packed.apart
  · intro b hb
    have hmem : b.extent ∈ s.free.map Block.extent ++ s.live.map Block.extent := by
      rw [← List.map_append]
      exact List.mem_map_of_mem hb
    exact (h.packed.inside _ hmem).2.2

/-- Freeing `ptr` does not make the tail of the heap a bad one. -/
def freeOk (s : St) (ptr : ℕ) : Bool :=
  match takeLive ptr s.live with
  | none => true
  | some (b, live) => !badTail (putBack s b live)

/-- What `realloc` has done when it calls `free`. -/
def copied (s : St) (ptr n : ℕ) : Option St :=
  match takeLive ptr s.live, malloc s n with
  | some (old, _), some (b, s') => some (fill s' b (if n > old.size then old.size else n))
  | _, _ => none

def Trimmable (s : St) : Act → Prop
  | .malloc _ => True
  | .calloc _ _ => True
  | .free ptr => freeOk s ptr = true
  | .realloc ptr n => n ≠ 0 → ∀ s', copied s ptr n = some s' → s'.faulted = false →
      freeOk s' ptr = true

section Steps

variable {s s' : St} {ptr n : ℕ}

theorem Inv.free (h : Inv s) (hok : freeOk s ptr = true) (hf : Umalloc.free s ptr = some s') :
    Inv s' := by
  obtain ⟨⟨b, live⟩, hlive, rfl⟩ := Option.map_eq_some_iff.mp hf
  rw [freeOk, hlive] at hok
  exact (h.putBack hlive).trim (by simpa using hok)

theorem not_integrity_free (h : Inv s) (hok : freeOk s ptr ≠ true)
    (hf : Umalloc.free s ptr = some s') : ¬ Integrity s' := by
  obtain ⟨⟨b, live⟩, hlive, rfl⟩ := Option.map_eq_some_iff.mp hf
  rw [freeOk, hlive] at hok
  obtain ⟨c, hc, hlt⟩ := trim_badTail (h.putBack hlive) (by simpa using hok)
  intro hint
  exact absurd (hint.2 c (List.mem_append_left _ hc)) (Nat.not_le.mpr hlt)

/-- `realloc` as `free` after the copy. -/
theorem realloc_cases (h : Inv s) (hr : realloc s ptr n = some s') :
    s' = s ∧ n = 0 ∨ n ≠ 0 ∧ ∃ s₁, copied s ptr n = some s₁ ∧ Inv s₁ ∧
      (s₁.faulted = true ∧ s' = s₁ ∨ s₁.faulted = false ∧ Umalloc.free s₁ ptr = some s') := by
  unfold realloc at hr
  split at hr
  · cases hr
  rename_i old rest hlive
  split at hr
  · cases hr
    exact Or.inl ⟨rfl, ‹_›⟩
  rename_i hn
  split at hr
  · cases hr
  rename_i b s₁ hm
  refine Or.inr ⟨hn, fill s₁ b (if n > old.size then old.size else n), ?_,
    (h.malloc hm).fill b _, ?_⟩
  · rw [copied, hlive, hm]
  · generalize fill s₁ b (if n > old.size then old.size else n) = s₂ at hr
    dsimp only at hr
    split at hr
    · cases hr
      exact Or.inl ⟨‹_›, rfl⟩
    · rename_i hf
      exact Or.inr ⟨Bool.eq_false_iff.mpr hf, hr⟩

theorem inv_step {a : Act} (h : Inv s) (ha : Trimmable s a) (hstep : step s a = some s') :
    Inv s' := by
  unfold step at hstep
  split at hstep
  · cases hstep
  cases a with
  | malloc size =>
    obtain ⟨⟨b, s₁⟩, hm, rfl⟩ := Option.map_eq_some_iff.mp hstep
    exact h.malloc hm
  | calloc n m =>
    dsimp only [calloc] at hstep
    split at hstep
    · cases hstep
      exact h
    · obtain ⟨⟨b, s₁⟩, hm, rfl⟩ := Option.map_eq_some_iff.mp hstep
      exact (h.malloc hm).fill b _
  | realloc ptr n =>
    rcases realloc_cases h hstep with ⟨rfl, -⟩ | ⟨hn, s₁, hc, hinv, hrest⟩
    · exact h
    · rcases hrest with ⟨-, rfl⟩ | ⟨hf, hfree⟩
      · exact hinv
      · exact hinv.free (ha hn s₁ hc hf) hfree
  | free ptr => exact h.free ha hstep

theorem not_integrity_step {a : Act} (h : Inv s) (ha : ¬ Trimmable s a)
    (hstep : step s a = some s') : ¬ Integrity s' := by
  unfold step at hstep
  split at hstep
  · cases hstep
  cases a with
  | malloc size => exact absurd trivial ha
  | calloc n m => exact absurd trivial ha
  | realloc ptr n =>
    simp only [Trimmable, not_forall] at ha
    obtain ⟨hn, s₂, hc₂, hf₂, hbad⟩ := ha
    rcases realloc_cases h hstep with ⟨-, hn'⟩ | ⟨-, s₁, hc, hinv, hrest⟩
    · exact absurd hn' hn
    · rw [hc₂] at hc
      cases hc
      rcases hrest with ⟨hf, -⟩ | ⟨-, hfree⟩
      · rw [hf₂] at hf
        cases hf
      · exact not_integrity_free hinv hbad hfree
  | free ptr => exact not_integrity_free h ha hstep

end Steps

/-- The heap keeps its integrity in exactly the runs without a call that trims a bad tail. -/
theorem integrity_iff_trimmable (as : List Act) :
    Along step Integrity init as ↔ Steps step Trimmable init as :=
  along_iff_steps (fun _ h => h.integrity) (fun _ _ _ h ha hs => inv_step h ha hs)
    (fun _ _ _ h ha hs => not_integrity_step h ha hs) inv_init

/-- `p = malloc(4050); q = malloc(100); free(q)`: the tail of the heap starts 22 bytes before
a page boundary. -/
def trimTail : List Act :=
  [.malloc 4050, .malloc 100, .free (userMemStart + 24 + 4050 + 24)]

theorem not_integrity_trimTail : ¬ Along step Integrity init trimTail := by
  intro h
  obtain ⟨s, hs, hbad⟩ : ∃ s, runFrom step init trimTail = some s ∧
      ∃ c ∈ s.free, ¬ c.extent.hi ≤ s.brk :=
    ⟨_, rfl, ⟨userMemStart + 24 + 4050, 4094⟩, by decide +kernel, by decide +kernel⟩
  obtain ⟨c, hc, hlt⟩ := hbad
  exact hlt ((h.last hs).2 c (List.mem_append_left _ hc))

end RiscvBm.Umalloc

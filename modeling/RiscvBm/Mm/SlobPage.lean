import Mathlib.Order.Interval.Finset.Nat
import RiscvBm.Mm.SlabHeap

/-!
# One slob page

The free units of a slob page form a chain of blocks in address order that ends at the end
of the page. `SlobPage` ties such a chain to the page descriptor and to the headers in the
page. `slob_page_alloc` makes `page->freelist` point behind the block that it takes from, also
when that block is not the first one: `allocKeeps_iff`.
-/

namespace RiscvBm.Slab

open Wp Function

/-! ## §1  The chain -/

/-- A free block, by its first unit in the page. -/
structure Hole where
  start : ℕ
  units : ℕ
deriving DecidableEq, Repr

def pageUnits : ℕ := unitsOf pgsize

/-- The address of a unit of page `p`. -/
def unitAddr (p u : ℕ) : ℕ := p * pgsize + 2 * u

/-- Where a chain begins; the empty one begins at the end of the page. -/
def first : List Hole → ℕ
  | [] => pageUnits
  | h :: _ => h.start

/-- The header of `h`, which points to the unit `next`: a block of one unit has room for the
offset only. -/
def Header (cell : ℕ → ℤ) (p : ℕ) (h : Hole) (next : ℕ) : Prop :=
  if 1 < h.units then
    cell (p * pageUnits + h.start) = h.units ∧ cell (p * pageUnits + h.start + 1) = next
  else cell (p * pageUnits + h.start) = -next

/-- Blocks inside the page, in order and apart, each with its header. -/
def Chain (cell : ℕ → ℤ) (p : ℕ) : List Hole → Prop
  | [] => True
  | h :: l => 0 < h.units ∧ h.start + h.units ≤ first l ∧ Header cell p h (first l) ∧
      Chain cell p l

/-- Unit `x` lies in `h`. -/
def Hole.Has (h : Hole) (x : ℕ) : Prop := h.start ≤ x ∧ x < h.start + h.units

/-- Unit `x` is free. -/
def Frees (l : List Hole) (x : ℕ) : Prop := ∃ h ∈ l, h.Has x

structure SlobPage (s : St) (p : ℕ) (l : List Hole) : Prop where
  chain : Chain s.cell p l
  freelist : (s.desc (.page p)).freelist = unitAddr p (first l)
  left : (s.desc (.page p)).leftUnits = ((l.map Hole.units).sum : ℕ)
  /-- the page and the address behind it are addresses -/
  addr : (p + 1) * pgsize < 2 ^ 64

variable {s : St} {cell cell' : ℕ → ℤ} {p u v n : ℕ} {h : Hole} {l : List Hole}

theorem pageUnits_eq : pageUnits = 2048 := rfl

theorem pgsize_eq : pgsize = 4096 := rfl

theorem Chain.first_le (hc : Chain cell p l) : first l ≤ pageUnits := by
  induction l with
  | nil => exact le_rfl
  | cons h l ih =>
    obtain ⟨_, hle, _, hl⟩ := hc
    have hrest := ih hl
    simp only [first]
    omega

/-- A free unit lies behind the start of the chain and inside the page. -/
theorem Chain.bounds (hc : Chain cell p l) {x : ℕ} (hx : Frees l x) :
    first l ≤ x ∧ x < pageUnits := by
  induction l with
  | nil =>
    obtain ⟨h, hm, _⟩ := hx
    cases hm
  | cons h l ih =>
    obtain ⟨_, hle, _, hl⟩ := hc
    have hfirst := hl.first_le
    obtain ⟨h', hm, hlo, hhi⟩ := hx
    simp only [first]
    rcases List.mem_cons.mp hm with rfl | hm
    · omega
    · have hrest := ih hl ⟨h', hm, hlo, hhi⟩
      omega

/-- The free units fit behind the start of the chain, and each block has one of them. -/
theorem Chain.sum_le (hc : Chain cell p l) :
    l.length ≤ (l.map Hole.units).sum ∧ (l.map Hole.units).sum + first l ≤ pageUnits := by
  induction l with
  | nil => simp [first]
  | cons h l ih =>
    obtain ⟨hpos, hle, _, hl⟩ := hc
    obtain ⟨hlen, hrest⟩ := ih hl
    simp only [first, List.length_cons, List.map_cons, List.sum_cons]
    omega

theorem Header.congr (hh : Header cell p h v) (hpos : 0 < h.units)
    (heq : ∀ i, p * pageUnits + h.start ≤ i → i < p * pageUnits + h.start + h.units →
      cell' i = cell i) : Header cell' p h v := by
  unfold Header at hh ⊢
  rw [heq _ le_rfl (by omega)]
  split
  · next hbig =>
      rw [if_pos hbig] at hh
      rw [heq _ (by omega) (by omega)]
      exact hh
  · next hone =>
      rw [if_neg hone] at hh
      exact hh

/-- Only the cells behind the start of the chain matter. -/
theorem Chain.congr (hc : Chain cell p l)
    (heq : ∀ i, p * pageUnits + first l ≤ i → i < p * pageUnits + pageUnits → cell' i = cell i) :
    Chain cell' p l := by
  induction l with
  | nil => trivial
  | cons h l ih =>
    obtain ⟨hpos, hle, hhead, hl⟩ := hc
    have hfirst := hl.first_le
    simp only [first] at heq
    exact ⟨hpos, hle, hhead.congr hpos fun i hlo hhi => heq i hlo (by omega),
      ih hl fun i hlo hhi => heq i (by omega) hhi⟩

/-! ## §2  Headers -/

theorem short_eq {x : ℤ} (hlo : -2 ^ 15 ≤ x) (hhi : x < 2 ^ 15) : short x = x := by
  unfold short Int.bmod
  dsimp only
  split <;> omega

theorem unitAddr_half (p u : ℕ) : unitAddr p u / 2 = p * pageUnits + u := by
  rw [unitAddr, pgsize_eq, pageUnits_eq]
  omega

theorem pageBase_unitAddr (hu : u < pageUnits) : pageBase (unitAddr p u) = p * pgsize := by
  rw [pageUnits_eq] at hu
  rw [pageBase, unitAddr, pgsize_eq]
  omega

theorem slobUnits_of_header (hpos : 0 < h.units) (hh : Header s.cell p h v) :
    slobUnits s (unitAddr p h.start) = h.units := by
  rw [slobUnits, unitAddr_half]
  unfold Header at hh
  split at hh
  · rw [hh.1, if_pos (by omega)]
  · rw [hh, if_neg (by omega)]
    omega

theorem slobNext_of_header (hu : h.start < pageUnits) (hv : 0 < v) (hle : v ≤ pageUnits)
    (hp : (p + 1) * pgsize < 2 ^ 64) (hh : Header s.cell p h v) :
    slobNext s (unitAddr p h.start) = unitAddr p v := by
  rw [pageUnits_eq] at hle
  have hnext : (if s.cell (unitAddr p h.start / 2) < 0
      then short (-s.cell (unitAddr p h.start / 2))
      else s.cell (unitAddr p h.start / 2 + 1)) = v := by
    rw [unitAddr_half]
    unfold Header at hh
    split at hh
    · rw [hh.1, if_neg (by omega), hh.2]
    · rw [hh, if_pos (by omega), neg_neg, short_eq (by omega) (by omega)]
  unfold slobNext
  simp only [hnext, pageBase_unitAddr hu]
  rw [unitAddr]
  rw [pgsize_eq] at hp ⊢
  omega

/-- `set_slob` writes the header and touches no cell outside the block. -/
theorem header_setSlob (s : St) (hpos : 0 < n) (hu : u < pageUnits) (hle : v < 2 ^ 15) :
    Header (setSlob s (unitAddr p u) n (unitAddr p v)).cell p ⟨u, n⟩ v ∧
      ∀ i, i < p * pageUnits + u ∨ p * pageUnits + u + n ≤ i →
        (setSlob s (unitAddr p u) n (unitAddr p v)).cell i = s.cell i := by
  have hoff : short (((unitAddr p v : ℤ) - pageBase (unitAddr p u)) / 2) = v := by
    rw [pageBase_unitAddr hu, unitAddr]
    push_cast
    rw [add_sub_cancel_left, Int.mul_ediv_cancel_left _ (by decide),
      short_eq (by omega) (by omega)]
  unfold Header setSlob
  simp only [hoff, unitAddr_half, Nat.one_lt_cast]
  by_cases hbig : 1 < n
  · simp only [if_pos hbig]
    refine ⟨⟨?_, ?_⟩, ?_⟩
    · rw [update_of_ne (by omega), update_self]
    · rw [update_self]
    · intro i hi
      rw [update_of_ne (by omega), update_of_ne (by omega)]
  · simp only [if_neg hbig]
    refine ⟨?_, ?_⟩
    · rw [update_self, short_eq (by omega) (by omega)]
    · intro i hi
      rw [update_of_ne (by omega)]

/-- A block that `set_slob` puts in front of a chain. -/
theorem chain_setSlob (s : St) (hc : Chain s.cell p l) (hpos : 0 < n) (hle : u + n ≤ first l) :
    Chain (setSlob s (unitAddr p u) n (unitAddr p (first l))).cell p (⟨u, n⟩ :: l) ∧
      ∀ i, i < p * pageUnits + u ∨ p * pageUnits + u + n ≤ i →
        (setSlob s (unitAddr p u) n (unitAddr p (first l))).cell i = s.cell i := by
  have hfirst := hc.first_le
  obtain ⟨hhead, hsame⟩ := header_setSlob (p := p) (u := u) (v := first l) s hpos
    (by omega) (by rw [pageUnits_eq] at hfirst; omega)
  refine ⟨⟨hpos, hle, hhead, hc.congr fun i hlo hhi => ?_⟩, hsame⟩
  exact hsame i (.inr (by omega))

/-! ## §3  Allocation -/

/-- What `slob_page_alloc` does when it takes `n` units from `h`. -/
def takeFrom (s : St) (p : ℕ) (h : Hole) (n next : ℕ) : St :=
  let s :=
    if (h.units : ℤ) = n then
      setDesc s (.page p) { s.desc (.page p) with freelist := unitAddr p next }
    else
      let s := setDesc s (.page p)
        { s.desc (.page p) with freelist := unitAddr p h.start + 2 * n }
      setSlob s (unitAddr p h.start + 2 * n) (h.units - n) (unitAddr p next)
  setDesc s (.page p) { s.desc (.page p) with leftUnits := (s.desc (.page p)).leftUnits - n }

theorem unitAddr_add (p u n : ℕ) : unitAddr p u + 2 * n = unitAddr p (u + n) := by
  rw [unitAddr, unitAddr]
  omega

theorem unitAddr_injective (h : unitAddr p u = unitAddr p v) : u = v := by
  rw [unitAddr, unitAddr] at h
  omega

/-- What the code reads in the first header of a chain. -/
theorem Chain.decode (hc : Chain s.cell p (h :: l)) (hp : (p + 1) * pgsize < 2 ^ 64) :
    slobUnits s (unitAddr p h.start) = h.units ∧
      slobNext s (unitAddr p h.start) = unitAddr p (first l) ∧
      slobLast s (unitAddr p h.start) = decide (l = []) := by
  obtain ⟨hpos, hle, hhead, hl⟩ := hc
  have hfirst := hl.first_le
  have hnext := slobNext_of_header (by omega) (by omega) hfirst hp hhead
  refine ⟨slobUnits_of_header hpos hhead, hnext, ?_⟩
  rw [slobLast, hnext, unitAddr]
  cases l with
  | nil =>
    rw [first, pageUnits_eq, pgsize_eq, decide_eq_true rfl, beq_iff_eq]
    omega
  | cons h' l =>
    have hlt := hl.2.1.trans hl.2.2.2.first_le
    have hunit := hl.1
    simp only [first, pageUnits_eq] at hlt hle ⊢
    rw [pgsize_eq, decide_eq_false (List.cons_ne_nil _ _), beq_eq_false_iff_ne]
    omega

/-- A block that is too small is passed. -/
theorem slobPageAllocLoop_cons (size k : ℕ) (hc : Chain s.cell p (h :: l))
    (hp : (p + 1) * pgsize < 2 ^ 64) :
    slobPageAllocLoop (.page p) size (k + 1) (unitAddr p h.start) s =
      if unitsOf size ≤ h.units then
        .ok (some (unitAddr p h.start), takeFrom s p h (unitsOf size) (first l))
      else if l = [] then .ok (none, s)
      else slobPageAllocLoop (.page p) size k (unitAddr p (first l)) s := by
  obtain ⟨hunits, hnext, hlast⟩ := hc.decode hp
  rw [slobPageAllocLoop]
  change (if (unitsOf size : ℤ) ≤ slobUnits s (unitAddr p h.start) then _ else _ : Prog _) s = _
  rw [hunits, hlast, hnext]
  by_cases hfit : unitsOf size ≤ h.units
  · rw [if_pos hfit, if_pos (by omega)]
    rfl
  · rw [if_neg hfit, if_neg (by omega)]
    by_cases hl : l = []
    · rw [if_pos hl, if_pos (by simpa using hl)]
      rfl
    · rw [if_neg hl, if_neg (by simpa using hl)]

/-- The search ends at the first block that is large enough, or at the end of the chain. -/
def FirstFit (c : Prog (Option ℕ)) (s : St) (p : ℕ) (l : List Hole) (size : ℕ) : Prop :=
  ((∀ h ∈ l, h.units < unitsOf size) ∧ c s = .ok (none, s)) ∨
    ∃ pre h post, l = pre ++ h :: post ∧ (∀ h' ∈ pre, h'.units < unitsOf size) ∧
      unitsOf size ≤ h.units ∧ Chain s.cell p (h :: post) ∧
      c s = .ok (some (unitAddr p h.start), takeFrom s p h (unitsOf size) (first post))

theorem slobPageAllocLoop_run (size : ℕ) (hp : (p + 1) * pgsize < 2 ^ 64) (hne : l ≠ [])
    (hc : Chain s.cell p l) {k : ℕ} (hk : l.length ≤ k) :
    FirstFit (slobPageAllocLoop (.page p) size k (unitAddr p (first l))) s p l size := by
  induction l generalizing k with
  | nil => exact absurd rfl hne
  | cons h l ih =>
    obtain ⟨k, rfl⟩ : ∃ k', k = k' + 1 := ⟨k - 1, by simp at hk; omega⟩
    rw [FirstFit, first, slobPageAllocLoop_cons size k hc hp]
    split_ifs with hfit hl
    · exact .inr ⟨[], h, l, rfl, by simp, hfit, hc, rfl⟩
    · exact .inl ⟨by simpa [hl] using hfit, rfl⟩
    · have hsmall := Nat.lt_of_not_le hfit
      rcases ih hl hc.2.2.2 (Nat.le_of_succ_le_succ hk) with
        ⟨hall, hnone⟩ | ⟨pre, h', post, rfl, hpre, hfit, hc', hsome⟩
      · exact .inl ⟨List.forall_mem_cons.mpr ⟨hsmall, hall⟩, hnone⟩
      · exact .inr ⟨h :: pre, h', post, rfl, List.forall_mem_cons.mpr ⟨hsmall, hpre⟩, hfit, hc',
          hsome⟩

theorem slobPageAlloc_run (size : ℕ) (hs : SlobPage s p l) (hne : l ≠ []) :
    FirstFit (slobPageAlloc (.page p) size) s p l size := by
  have hlen := hs.chain.sum_le
  have hrun := slobPageAllocLoop_run size hs.addr hne hs.chain (k := pgsize / 2 + 1)
    (by rw [pageUnits_eq] at hlen; rw [pgsize_eq]; omega)
  rw [← hs.freelist] at hrun
  exact hrun

/-- The chain after `n` units were taken from its first block. -/
def cut (h : Hole) (n : ℕ) (l : List Hole) : List Hole :=
  if h.units = n then l else ⟨h.start + n, h.units - n⟩ :: l

@[simp] theorem setSlob_desc (s : St) (b : ℕ) (size : ℤ) (next : ℕ) :
    (setSlob s b size next).desc = s.desc := by
  unfold setSlob
  dsimp only
  split <;> rfl

theorem freelist_takeFrom (s : St) (p : ℕ) (h : Hole) (n : ℕ) (l : List Hole) :
    ((takeFrom s p h n (first l)).desc (.page p)).freelist = unitAddr p (first (cut h n l)) := by
  unfold takeFrom cut
  by_cases heq : h.units = n
  · simp [if_pos heq, setDesc]
  · simp [if_neg heq, setDesc, first, unitAddr_add]

theorem slobPage_takeFrom (hs : SlobPage s p (h :: l)) (hfit : n ≤ h.units) :
    SlobPage (takeFrom s p h n (first l)) p (cut h n l) := by
  obtain ⟨⟨hpos, hle, hhead, hl⟩, hfree, hleft, haddr⟩ := hs
  have hfirst := hl.first_le
  rw [List.map_cons, List.sum_cons] at hleft
  have hfree' := freelist_takeFrom s p h n l
  unfold takeFrom cut at hfree' ⊢
  by_cases heq : h.units = n
  · simp only [if_pos heq, if_pos (congrArg Nat.cast heq)] at hfree' ⊢
    refine ⟨hl, hfree', ?_, haddr⟩
    simp only [setDesc, update_self]
    omega
  · simp only [if_neg heq, Nat.cast_inj, unitAddr_add, ← Nat.cast_sub hfit] at hfree' ⊢
    have hnew := (chain_setSlob (u := h.start + n) (n := h.units - n)
      (setDesc s (.page p) { s.desc (.page p) with freelist := unitAddr p (h.start + n) }) hl
      (by omega) (by omega)).1
    refine ⟨hnew, hfree', ?_, haddr⟩
    simp only [setDesc, setSlob_desc, update_self, List.map_cons, List.sum_cons]
    omega

theorem le_first_cut (hc : Chain cell p (h :: l)) :
    h.start + n ≤ first (cut h n l) := by
  have hle := hc.2.1
  unfold cut
  split
  · omega
  · exact le_rfl

/-- The returned units, and nothing else, are no longer free. -/
theorem frees_cut (hc : Chain cell p (h :: l)) (hfit : n ≤ h.units) (x : ℕ) :
    Frees (cut h n l) x ↔ Frees (h :: l) x ∧ ¬ Hole.Has ⟨h.start, n⟩ x := by
  obtain ⟨hpos, hle, hhead, hl⟩ := hc
  have hrest : Frees l x → first l ≤ x := fun hx => (hl.bounds hx).1
  have hcut : Frees (cut h n l) x ↔
      Hole.Has ⟨h.start + n, h.units - n⟩ x ∨ Frees l x := by
    unfold cut Frees
    split
    · next heq =>
        simp only [Hole.Has, heq]
        constructor
        · exact .inr
        · rintro (hx | hx)
          · omega
          · exact hx
    · simp
  have hcons : Frees (h :: l) x ↔ h.Has x ∨ Frees l x := by simp [Frees]
  rw [hcut, hcons]
  simp only [Hole.Has] at *
  constructor
  · rintro (hx | hx)
    · exact ⟨.inl (by omega), by omega⟩
    · exact ⟨.inr hx, by have := hrest hx; omega⟩
  · rintro ⟨hx | hx, hnot⟩
    · exact .inl (by omega)
    · exact .inr hx

/-- An allocation that loses nothing: without a block of enough units it returns NULL and
changes nothing; otherwise it returns units of one free block, and the other free units stay
free. -/
def AllocKeeps (s : St) (p size : ℕ) (l : List Hole) : Prop :=
  ((∀ h ∈ l, h.units < unitsOf size) → slobPageAlloc (.page p) size s = .ok (none, s)) ∧
  ((∃ h ∈ l, unitsOf size ≤ h.units) → ∃ u s' l',
    slobPageAlloc (.page p) size s = .ok (some (unitAddr p u), s') ∧
    (∃ h ∈ l, h.start ≤ u ∧ u + unitsOf size ≤ h.start + h.units) ∧ SlobPage s' p l' ∧
    ∀ x, Frees l' x ↔ Frees l x ∧ ¬ Hole.Has ⟨u, unitsOf size⟩ x)

/-- Where the first block is too small and a later one is not, units are lost. -/
theorem not_allocKeeps {size : ℕ} (hs : SlobPage s p (h :: l)) (hsmall : h.units < unitsOf size)
    (hlater : ∃ h' ∈ l, unitsOf size ≤ h'.units) : ¬ AllocKeeps s p size (h :: l) := by
  obtain ⟨h₁, hm₁, hfit₁⟩ := hlater
  rcases slobPageAlloc_run size hs (List.cons_ne_nil h l) with
    ⟨hall, -⟩ | ⟨pre, h', post, hl, -, hfit, hc, hrun⟩
  · exact absurd (hall h₁ (List.mem_cons_of_mem _ hm₁)) (by omega)
  have hm : h' ∈ l := by
    cases pre with
    | nil =>
      obtain ⟨rfl, rfl⟩ := List.cons.inj hl
      omega
    | cons h₀ pre =>
      obtain ⟨rfl, rfl⟩ := List.cons.inj hl
      simp
  rintro ⟨-, hsome⟩
  obtain ⟨u, s', l', hrun', -, hs', hfree⟩ := hsome ⟨h', List.mem_cons_of_mem _ hm, hfit⟩
  rw [hrun, Except.ok.injEq, Prod.mk.injEq, Option.some.injEq] at hrun'
  obtain ⟨hu, rfl⟩ := hrun'
  have hu := unitAddr_injective hu
  have hnew := unitAddr_injective (hs'.freelist.symm.trans (freelist_takeFrom ..))
  have hcut := le_first_cut (n := unitsOf size) hc
  obtain ⟨hpos, hgap, -, hrest⟩ := hs.chain
  have hle := (hrest.bounds (x := h'.start)
    ⟨h', hm, le_rfl, Nat.lt_add_of_pos_right hc.1⟩).1
  -- the first unit of the first block is still free, but the new chain begins behind it
  have hunit : Frees (h :: l) h.start :=
    ⟨h, List.mem_cons_self, le_rfl, Nat.lt_add_of_pos_right hpos⟩
  have hkept := (hfree h.start).mpr ⟨hunit, fun hin => absurd hin.1 (by simp only; omega)⟩
  have hlost := (hs'.chain.bounds hkept).1
  omega

/-- **Allocation from a slob page loses nothing exactly if the first free block is large
enough or no block is.** Where a later block is the first large enough one, the blocks before
it are no longer reached from `page->freelist`. A page without free units is only asked for
nothing, and then the code takes the end of the page for a block. -/
theorem allocKeeps_iff (s : St) (p size : ℕ) (l : List Hole) (hs : SlobPage s p l)
    (hleft : (unitsOf size : ℤ) ≤ (s.desc (.page p)).leftUnits) :
    AllocKeeps s p size l ↔
      ∃ h rest, l = h :: rest ∧
        (unitsOf size ≤ h.units ∨ ∀ h' ∈ rest, h'.units < unitsOf size) := by
  cases l with
  | nil =>
    -- the request is for no unit at all, and the end of the page is returned
    have hzero : unitsOf size = 0 := by
      have := hs.left
      simp only [List.map_nil, List.sum_nil] at this
      omega
    simp only [reduceCtorEq, false_and, exists_false, iff_false]
    rintro ⟨hnone, -⟩
    have hrun := hnone (by simp)
    have hunits : (unitsOf size : ℤ) ≤ slobUnits s (s.desc (.page p)).freelist := by
      rw [hzero, slobUnits]
      split <;> omega
    change slobPageAllocLoop (.page p) size (pgsize / 2 + 1) (s.desc (.page p)).freelist s = _
      at hrun
    rw [slobPageAllocLoop] at hrun
    change (if (unitsOf size : ℤ) ≤ slobUnits s _ then _ else _ : Prog _) s = _ at hrun
    rw [if_pos hunits] at hrun
    cases hrun
  | cons h rest =>
    constructor
    · intro hkeeps
      refine ⟨h, rest, rfl, ?_⟩
      by_contra! hno
      exact not_allocKeeps hs hno.1 hno.2 hkeeps
    · rintro ⟨h₁, rest₁, hl, hcond⟩
      obtain ⟨rfl, rfl⟩ := List.cons.inj hl
      rcases slobPageAlloc_run size hs (List.cons_ne_nil h rest) with
        ⟨hall, hrun⟩ | ⟨pre, h', post, hl, hpre, hfit, hc, hrun⟩
      · refine ⟨fun _ => hrun, ?_⟩
        rintro ⟨h', hm, hbig⟩
        exact absurd (hall h' hm) (by omega)
      · cases pre with
        | nil =>
          obtain ⟨rfl, rfl⟩ := List.cons.inj hl
          refine ⟨fun hall => absurd (hall h List.mem_cons_self) (by omega), fun _ => ?_⟩
          exact ⟨h.start, _, _, hrun, ⟨h, List.mem_cons_self, le_rfl, by omega⟩,
            slobPage_takeFrom hs hfit, frees_cut hc hfit⟩
        | cons h₀ pre =>
          obtain ⟨rfl, rfl⟩ := List.cons.inj hl
          have hsmall := hpre h List.mem_cons_self
          rcases hcond with hbig | hrest
          · omega
          · exact absurd (hrest h' (by simp)) (by omega)

/-- Page 1 with the headers of `l`. -/
def pageWith (l : List Hole) : St :=
  let rec headers : List Hole → St
    | [] => init PageAlloc.init
    | h :: l => setSlob (headers l) (unitAddr 1 h.start) h.units (unitAddr 1 (first l))
  { setDesc (headers l) (.page 1) ⟨true, unitAddr 1 (first l), ((l.map Hole.units).sum : ℕ)⟩ with
    list := [1] }

/-- Two free blocks, of two and of eight units. -/
def twoHoles : List Hole := [⟨0, 2⟩, ⟨4, 8⟩]

theorem slobPage_twoHoles : SlobPage (pageWith twoHoles) 1 twoHoles where
  chain := by
    simp only [Chain, Header, twoHoles]
    decide +kernel
  freelist := by decide
  left := by decide
  addr := by decide

theorem allocKeeps_twoHoles : AllocKeeps (pageWith twoHoles) 1 4 twoHoles :=
  (allocKeeps_iff _ 1 4 twoHoles slobPage_twoHoles (by decide)).mpr
    ⟨⟨0, 2⟩, _, rfl, .inl (by decide)⟩

/-- Eight bytes are taken from the second block, and the first one is lost. -/
theorem not_allocKeeps_twoHoles :
    SlobPage (pageWith twoHoles) 1 twoHoles ∧ ¬ AllocKeeps (pageWith twoHoles) 1 8 twoHoles :=
  ⟨slobPage_twoHoles, not_allocKeeps slobPage_twoHoles (by decide) (by decide)⟩

end RiscvBm.Slab

import RiscvBm.Vm.Spaces

/-!
# The layout of a process

A process that has come through `move_to_user_mode`, `exec` and well-behaved heap requests has at
most three areas: its program from `USER_CODE_VM_START` on, the heap from `USER_MEM_START` up to
the page of the break, and the stack below `STACK_TOP`. A `Layout` is such a set of areas, with
the facts that keep them apart; `Layout.mm` is the address space it stands for.

`wp_doBrk` says when `do_brk` leads from a layout to the one with the new break: `Fits`.
-/

namespace RiscvBm.Vm

open Wp

/-! ## §1  Rounding -/

section Rounding

variable {a : ℕ}

theorem pgRoundUp_spec (h : a < 2 ^ 63) :
    pgRoundUp a % pgsize = 0 ∧ a ≤ pgRoundUp a ∧ pgRoundUp a < a + pgsize := by
  unfold pgRoundUp pgsize
  omega

theorem pgRoundDown_spec (a : ℕ) :
    pgRoundDown a % pgsize = 0 ∧ pgRoundDown a ≤ a ∧ a < pgRoundDown a + pgsize := by
  unfold pgRoundDown pgsize
  omega

theorem pgRoundUp_of_aligned (h : a % pgsize = 0) (hlt : a < 2 ^ 63) : pgRoundUp a = a := by
  have hup := pgRoundUp_spec hlt
  unfold pgsize at *
  omega

/-- The order of the regions: program, heap, stack. -/
theorem regions : userCodeVmStart < userMemStart ∧ userMemStart < userMemEnd ∧
    userMemEnd = stackBottom ∧ stackBottom + pgsize < stackTop ∧ stackTop = maxva ∧
      maxva < 2 ^ 62 := by
  decide

theorem regions_aligned : userCodeVmStart % pgsize = 0 ∧ userMemStart % pgsize = 0 ∧
    userMemEnd % pgsize = 0 ∧ stackTop % pgsize = 0 := by
  decide

end Rounding

/-! ## §2  Layouts -/

/-- The heap area for the break `b`. -/
def heapArea (b : ℕ) : Vma := ⟨userMemStart, pgRoundUp b, vmDataFlagsNonExec⟩

/-- There is no heap area before the first byte is asked for. -/
def heapAreas (b : ℕ) : List Vma := if userMemStart < b then [heapArea b] else []

structure Layout where
  root : ℕ
  code : Vma
  stack : Vma
  brk : ℕ
  code_start : code.vmStart = userCodeVmStart
  code_le : code.vmStart ≤ code.vmEnd
  code_end : code.vmEnd ≤ userMemStart
  code_aligned : code.vmEnd % pgsize = 0
  code_flags : code.vmFlags.testBit 8 = false
  stack_start : stackBottom ≤ stack.vmStart
  stack_lt : stack.vmStart < stack.vmEnd
  stack_end : stack.vmEnd = stackTop
  stack_aligned : stack.vmStart % pgsize = 0
  le_brk : userMemStart ≤ brk
  brk_le : brk ≤ userMemEnd

namespace Layout

def mm (L : Layout) : Mm :=
  ⟨L.root, L.code :: (heapAreas L.brk ++ [L.stack]), userMemStart, L.brk⟩

def setBrk (L : Layout) (b : ℕ) (h : userMemStart ≤ b) (h' : b ≤ userMemEnd) : Layout :=
  { L with brk := b, le_brk := h, brk_le := h' }

/-- The stack grows down to the page `a`. -/
def setStack (L : Layout) (a : ℕ) (h : stackBottom ≤ a) (hlt : a < stackTop)
    (hal : a % pgsize = 0) : Layout :=
  { L with
    stack := { L.stack with vmStart := a }
    stack_start := h
    stack_lt := by
      have hend := L.stack_end
      show a < L.stack.vmEnd
      omega
    stack_aligned := hal }

variable (L : Layout) {a b : ℕ}

theorem mmap_of_lt (h : userMemStart < L.brk) :
    L.mm.mmap = [L.code, heapArea L.brk, L.stack] := by
  show L.code :: (heapAreas L.brk ++ [L.stack]) = _
  rw [heapAreas, if_pos h]
  rfl

theorem mmap_of_eq (h : L.brk = userMemStart) : L.mm.mmap = [L.code, L.stack] := by
  show L.code :: (heapAreas L.brk ++ [L.stack]) = _
  rw [heapAreas, if_neg (by omega)]
  rfl

theorem brk_lt : L.brk < 2 ^ 63 := by
  have hbrk := L.brk_le
  have hregions := regions
  omega

/-- The heap ends below the stack. -/
theorem pgRoundUp_brk_le : pgRoundUp L.brk ≤ userMemEnd := by
  have hup := pgRoundUp_spec L.brk_lt
  have hbrk := L.brk_le
  have halign := regions_aligned
  unfold pgsize at *
  omega

theorem mem_mmap {v : Vma} :
    v ∈ L.mm.mmap ↔ v = L.code ∨ (userMemStart < L.brk ∧ v = heapArea L.brk) ∨ v = L.stack := by
  show v ∈ L.code :: (heapAreas L.brk ++ [L.stack]) ↔ _
  unfold heapAreas
  split
  · rename_i h
    simp [h]
  · rename_i h
    simp [h]

/-- A relation between the areas, in the order of the list. -/
theorem pairwise {R : Vma → Vma → Prop} (hends : R L.code L.stack)
    (hheap : R L.code (heapArea L.brk) ∧ R (heapArea L.brk) L.stack) : L.mm.mmap.Pairwise R := by
  rcases Nat.lt_or_eq_of_le L.le_brk with h | h
  · rw [L.mmap_of_lt h]
    simp [hends, hheap]
  · rw [L.mmap_of_eq h.symm]
    simp [hends]

/-- The areas are in order. -/
theorem sorted : L.mm.mmap.Pairwise fun v w => v.vmEnd ≤ w.vmStart := by
  have hcode := L.code_end
  have hstack := L.stack_start
  have hup := L.pgRoundUp_brk_le
  have hregions := regions
  refine L.pairwise (by omega) ⟨hcode, ?_⟩
  show pgRoundUp L.brk ≤ _
  omega

theorem aligned {v : Vma} (hv : v ∈ L.mm.mmap) :
    v.vmStart ≤ v.vmEnd ∧ v.vmStart % pgsize = 0 ∧ v.vmEnd % pgsize = 0 := by
  have halign := regions_aligned
  have hup := pgRoundUp_spec L.brk_lt
  rcases L.mem_mmap.mp hv with rfl | ⟨h, rfl⟩ | rfl
  · exact ⟨L.code_le, by rw [L.code_start]; exact halign.1, L.code_aligned⟩
  · exact ⟨Nat.le_trans (Nat.le_of_lt h) hup.2.1, halign.2.1, hup.1⟩
  · exact ⟨Nat.le_of_lt L.stack_lt, L.stack_aligned, by rw [L.stack_end]; exact halign.2.2.2⟩

/-- Only the stack grows down. -/
theorem flags {v : Vma} (hv : v ∈ L.mm.mmap) (h : v.vmFlags.testBit 8 = true) : v = L.stack := by
  rcases L.mem_mmap.mp hv with rfl | ⟨-, rfl⟩ | rfl
  · rw [L.code_flags] at h
    cases h
  · exact absurd h (show ¬ vmDataFlagsNonExec.testBit 8 = true by decide)
  · rfl

theorem userCode_le {v : Vma} (hv : v ∈ L.mm.mmap) : userCodeVmStart ≤ v.vmStart := by
  have hregions := regions
  rcases L.mem_mmap.mp hv with rfl | ⟨-, rfl⟩ | rfl
  · exact Nat.le_of_eq L.code_start.symm
  · exact Nat.le_of_lt hregions.1
  · have hstack := L.stack_start
    omega

/-! ### Looking up areas -/

theorem findVma_heap (h₁ : userMemStart ≤ a) (h₂ : a < pgRoundUp L.brk) :
    findVma L.mm.mmap a = some (1, heapArea L.brk) := by
  have hup := pgRoundUp_spec L.brk_lt
  have halign := regions_aligned
  have hbrk : userMemStart < L.brk := by
    unfold pgsize at *
    omega
  have hcode := L.code_end
  have hregions := regions
  have hstart := L.code_start
  rw [L.mmap_of_lt hbrk, findVma, findVmaFrom, if_neg (by omega), if_neg (by omega),
    if_neg (by simp), findVmaFrom, if_pos ⟨h₁, h₂⟩]
  rfl

/-- Without a heap area, the one above the heap's start is the stack. -/
theorem findVma_noHeap (h : L.brk = userMemStart) :
    findVma L.mm.mmap userMemStart = some (1, L.stack) := by
  have hcode := L.code_end
  have hregions := regions
  have hstart := L.code_start
  have hstack := L.stack_start
  have hend := L.stack_end
  rw [L.mmap_of_eq h, findVma, findVmaFrom, if_neg (by omega), if_neg (by omega),
    if_neg (by simp), findVmaFrom, if_neg (by omega), if_neg (by simp), if_pos]
  · rfl
  · refine ⟨⟨L.code, rfl, by omega⟩, by omega⟩

end Layout

/-! ## §3  `do_brk` -/

/-- The requests for which `do_brk` keeps areas, break and pages in step: below the heap; down
to a page boundary, or into a page that is not there; from a page boundary up past the next one.
The last condition is about the first growth: there is memory for the area, and the stack has not
grown down to its end. -/
def Fits (kmalloc : Bool) (mm : Mm) (m : Mem) (c : ℕ) : Prop :=
  c < mm.startBrk ∨
    (c < mm.brk ∧ (c % pgsize = 0 ∨ isValid (translate m mm.pagetable c) = false)) ∨
    (mm.brk % pgsize = 0 ∧ (c = mm.brk ∨ mm.brk < pgRoundDown c ∧
      (mm.brk = mm.startBrk → kmalloc = true ∧ ∀ v ∈ mm.mmap, v.vmStart ≠ pgRoundUp c)))

section DoBrk

variable {alloc : Mem → ℕ} {kmalloc : Bool} {K : Kernel} {m : Mem} {L : Layout} {c n : ℕ}

theorem wp_doMunmap (h : Sound K m) (hr : m.IsRoot L.root)
    (hal : n % pgsize = 0) (hn : userMemStart ≤ n) (hlt : n < L.brk) (hn' : n ≤ userMemEnd) :
    wp (doMunmap alloc ⟨L.root, L.mm.mmap, userMemStart, n⟩ n (L.brk - n))
      (fun o m' => o = some (L.setBrk n hn hn').mm ∧ Sound K m' ∧
        Unmaps L.root (pagesFrom n ((pgRoundUp L.brk - n) / pgsize)) m m') noError m := by
  have hbrk := L.brk_le
  have hregions := regions
  have hup := pgRoundUp_spec L.brk_lt
  have hend := L.pgRoundUp_brk_le
  have hlen := pgRoundUp_spec (a := L.brk - n) (by omega)
  -- the end of what is unmapped is the end of the heap area
  have hsum : n + pgRoundUp (L.brk - n) = pgRoundUp L.brk := by
    unfold pgsize at *
    omega
  have hfind : findVmaIntersection L.mm.mmap n (pgRoundUp L.brk) = some (1, heapArea L.brk) := by
    rw [findVmaIntersection, L.findVma_heap hn (by omega)]
    exact if_neg (by show ¬ pgRoundUp L.brk ≤ userMemStart; omega)
  unfold doMunmap
  rw [if_neg (by omega), if_neg (by omega), hsum]
  dsimp only
  rw [hfind]
  dsimp only
  rw [if_neg (by show ¬ userMemStart > n; omega)]
  apply wp_bind (wp_error (wp_unmapValidpages h hr (by omega)) ?_)
  · rintro _ m' ⟨h', hun⟩
    have hareas := L.mmap_of_lt (by omega)
    apply wp_ite
    · -- the whole heap goes, and its area
      intro hstart
      have hstart : n = userMemStart := hstart.symm
      subst hstart
      rw [hareas]
      apply wp_pure_bind
      refine wp_pure ⟨?_, h', hun⟩
      have hareas' := (L.setBrk userMemStart hn hn').mmap_of_eq rfl
      show _ = some (⟨L.root, (L.setBrk userMemStart hn hn').mm.mmap, userMemStart,
        userMemStart⟩ : Mm)
      rw [hareas']
      rfl
    · intro hstart
      have hstart : ¬ userMemStart = n := hstart
      refine wp_pure ⟨?_, h', hun⟩
      rw [hareas]
      have hareas' := (L.setBrk n hn hn').mmap_of_lt (show userMemStart < n by omega)
      have hheap : heapArea n = { heapArea L.brk with vmEnd := n } := by
        rw [heapArea, pgRoundUp_of_aligned hal (by omega)]
        rfl
      show some (⟨L.root, [L.code, { heapArea L.brk with vmEnd := n }, L.stack], userMemStart,
        n⟩ : Mm) = some ⟨L.root, (L.setBrk n hn hn').mm.mmap, userMemStart, n⟩
      rw [hareas', ← hheap]
      rfl
  · rintro e (⟨-, hno⟩ | ⟨-, hno⟩)
    · exact hno hal
    · have hmul := Nat.div_mul_le_self (pgRoundUp L.brk - n) pgsize
      omega

theorem wp_doBrkFlags (hal : L.brk % pgsize = 0) (hlt : L.brk < pgRoundDown c)
    (hc : c ≤ userMemEnd) (hle : userMemStart ≤ c)
    (hedge : L.brk = userMemStart → kmalloc = true ∧ ∀ v ∈ L.mm.mmap, v.vmStart ≠ pgRoundUp c) :
    wp (doBrkFlags kmalloc L.mm L.brk (pgRoundUp c - L.brk))
      (fun mm m' => { mm with brk := c } = (L.setBrk c hle hc).mm ∧ m' = m) noError m := by
  have hregions := regions
  have hup := pgRoundUp_spec (a := c) (by omega)
  have hdown := pgRoundDown_spec c
  have hend := (L.setBrk c hle hc).pgRoundUp_brk_le
  have hend : pgRoundUp c ≤ userMemEnd := hend
  have hlen : pgRoundUp (pgRoundUp c - L.brk) = pgRoundUp c - L.brk := by
    apply pgRoundUp_of_aligned
    · unfold pgsize at *
      omega
    · omega
  have hlast : (L.brk + pgRoundUp (pgRoundUp c - L.brk)) % 2 ^ 64 = pgRoundUp c := by
    rw [hlen]
    omega
  have hareas := (L.setBrk c hle hc).mmap_of_lt (show userMemStart < c by have := L.le_brk; omega)
  unfold doBrkFlags
  simp only [hlast]
  rcases Nat.lt_or_eq_of_le L.le_brk with h | h
  · -- the heap area is extended
    have hfind := L.findVma_heap (Nat.le_refl userMemStart) (by
      have := pgRoundUp_spec L.brk_lt
      omega)
    rw [show findVma L.mm.mmap L.mm.startBrk = _ from hfind]
    dsimp only
    rw [if_neg (by show ¬ userMemStart > _; omega), if_pos (by
      show pgRoundUp L.brk ≤ _
      rw [pgRoundUp_of_aligned hal L.brk_lt]
      omega), L.mmap_of_lt h]
    refine wp_pure ⟨?_, rfl⟩
    show (⟨L.root, [L.code, heapArea c, L.stack], userMemStart, c⟩ : Mm) =
      ⟨L.root, (L.setBrk c hle hc).mm.mmap, userMemStart, c⟩
    rw [hareas]
    rfl
  · -- a heap area is put in between program and stack
    obtain ⟨hserved, hedge⟩ := hedge h.symm
    have hstack : L.stack.vmStart > pgRoundUp c := by
      have hne := hedge L.stack (L.mem_mmap.mpr (Or.inr (Or.inr rfl)))
      have hbottom := L.stack_start
      omega
    have hcode := L.code_end
    rw [show findVma L.mm.mmap L.mm.startBrk = _ from L.findVma_noHeap h.symm]
    dsimp only
    rw [if_pos hstack, if_pos hserved, L.mmap_of_eq h.symm, ← h]
    refine wp_pure ⟨?_, rfl⟩
    have hinsert : insertVmStruct [L.code, L.stack] (heapArea c) =
        [L.code, heapArea c, L.stack] := by
      have hvm : (heapArea c).vmEnd = pgRoundUp c := rfl
      have hstart := L.code_start
      have hcode_le := L.code_le
      simp only [insertVmStruct, insertVma, hvm]
      rw [if_neg (by omega), if_neg]
      · rfl
      · simp only [List.head?_cons, Option.mem_def, Option.some.injEq, exists_eq_left', not_lt]
        omega
    show (⟨L.root, insertVmStruct [L.code, L.stack] (heapArea c), userMemStart, c⟩ : Mm) =
      ⟨L.root, (L.setBrk c hle hc).mm.mmap, userMemStart, c⟩
    rw [hinsert, hareas]
    rfl

/-- What `do_brk(c)` has done: nothing; or moved the break up; or down to a page boundary,
with the pages above it unmapped. -/
def Moved (L : Layout) (m : Mem) (c ret : ℕ) (mm : Mm) (m' : Mem) : Prop :=
  (ret = L.brk ∧ mm = L.mm ∧ m' = m) ∨
    (ret = c ∧ L.brk < c ∧ (∃ h h', mm = (L.setBrk c h h').mm) ∧ m' = m) ∨
    (ret = c ∧ c < L.brk ∧ (∃ h h', mm = (L.setBrk (pgRoundDown c) h h').mm) ∧
      Unmaps L.root (pagesFrom (pgRoundDown c) ((pgRoundUp L.brk - pgRoundDown c) / pgsize)) m m')

theorem wp_doBrk (h : Sound K m) (hr : m.IsRoot L.root)
    (hc : c ≤ userMemEnd) (hfits : Fits kmalloc L.mm m c) :
    wp (doBrk alloc kmalloc L.mm c) (fun x m' => Sound K m' ∧ Moved L m c x.1 x.2 m')
      noError m := by
  have hdown := pgRoundDown_spec c
  have halign := regions_aligned
  unfold doBrk
  apply wp_ite
  · intro _
    exact wp_pure ⟨h, Or.inl ⟨rfl, rfl, rfl⟩⟩
  intro hlow
  have hle : userMemStart ≤ c := Nat.le_of_not_lt hlow
  have hle' : userMemStart ≤ pgRoundDown c := by
    unfold pgsize at *
    omega
  dsimp only
  apply wp_ite
  · -- the same page: only the old break itself fits
    intro heq
    have heq : L.brk = pgRoundDown c := heq
    have hsame : c = L.brk := by
      rcases hfits with hlt | ⟨hlt, -⟩ | ⟨-, hsame | ⟨hlt, -⟩⟩
      · exact absurd hlt hlow
      · have hlt : c < L.brk := hlt
        omega
      · exact hsame
      · have hlt : L.brk < pgRoundDown c := hlt
        omega
    exact wp_pure ⟨h, Or.inl ⟨hsame, by rw [hsame]; rfl, rfl⟩⟩
  intro hne
  have hne : ¬ L.brk = pgRoundDown c := hne
  apply wp_ite
  · intro hlt
    have hlt : c < L.brk := hlt
    apply wp_bind (wp_doMunmap h hr hdown.1 hle' (by omega) (by omega))
    rintro _ m' ⟨rfl, h', hun⟩
    exact wp_pure ⟨h', Or.inr (Or.inr ⟨rfl, hlt, ⟨_, _, rfl⟩, hun⟩)⟩
  · intro hge
    have hge : ¬ c < L.brk := hge
    obtain ⟨hal, hlt, hedge⟩ : L.brk % pgsize = 0 ∧ L.brk < pgRoundDown c ∧
        (L.brk = userMemStart → kmalloc = true ∧ ∀ v ∈ L.mm.mmap, v.vmStart ≠ pgRoundUp c) := by
      rcases hfits with hlt | ⟨hlt, -⟩ | ⟨hal, hsame | hgrow⟩
      · exact absurd hlt hlow
      · exact absurd hlt hge
      · -- an aligned break is its own page boundary
        have hsame : c = L.brk := hsame
        have hal : L.brk % pgsize = 0 := hal
        rw [hsame, pgRoundDown_of_aligned hal] at hne
        exact absurd rfl hne
      · exact ⟨hal, hgrow⟩
    have hup := pgRoundUp_spec (a := c) (by have := regions; omega)
    have hlen : (pgRoundUp c + 2 ^ 64 - L.brk) % 2 ^ 64 = pgRoundUp c - L.brk := by
      have hend := (L.setBrk c hle hc).pgRoundUp_brk_le
      have hend : pgRoundUp c ≤ userMemEnd := hend
      have hregions := regions
      omega
    rw [show (pgRoundUp c + 2 ^ 64 - L.mm.brk) % 2 ^ 64 = _ from hlen]
    apply wp_bind (wp_doBrkFlags hal hlt hc hle hedge)
    rintro mm _ ⟨hmm, rfl⟩
    exact wp_pure ⟨h, Or.inr (Or.inl ⟨rfl, by omega, ⟨hle, hc, hmm⟩, rfl⟩)⟩

end DoBrk

/-! ## §4  Page faults -/

theorem of_findVmaFrom {a : ℕ} {prev : Option Vma} {l : List Vma} {i : ℕ} {v : Vma}
    (h : findVmaFrom a prev l = some (i, v)) : l[i]? = some v ∧ (v.vmStart ≤ a → a < v.vmEnd) := by
  induction l generalizing prev i with
  | nil => cases h
  | cons w l ih =>
    unfold findVmaFrom at h
    split at h
    · rename_i hin
      cases h
      exact ⟨rfl, fun _ => hin.2⟩
    split at h
    · rename_i hbelow
      cases h
      exact ⟨rfl, fun hle => absurd hle (Nat.not_le.mpr hbelow.2)⟩
    split at h
    · rename_i hin
      cases h
      exact ⟨rfl, fun _ => hin.2⟩
    · obtain ⟨⟨j, w'⟩, hfound, heq⟩ := Option.map_eq_some_iff.mp h
      cases heq
      exact ih hfound

section Fault

variable {alloc : Mem → ℕ} {K : Kernel} {m : Mem} {L : Layout} {a : ℕ} {user sum : Bool}

/-- The stack's place in the list. -/
theorem Layout.set_stack {i : ℕ} {v : Vma} (hi : L.mm.mmap[i]? = some v) (hv : v = L.stack)
    {b : ℕ} (h : stackBottom ≤ b) (hlt : b < stackTop) (hal : b % pgsize = 0) :
    L.mm.mmap.set i { v with vmStart := b } = (L.setStack b h hlt hal).mm.mmap := by
  subst hv
  have hregions := regions
  have hbottom := L.stack_start
  have hcode := L.code_start
  -- the other areas start elsewhere, so the position is the last one
  rcases Nat.lt_or_eq_of_le L.le_brk with hb | hb
  · rw [(L.setStack b h hlt hal).mmap_of_lt hb, L.mmap_of_lt hb] at *
    match i, hi with
    | 0, hi =>
      have hstart := congrArg Vma.vmStart (Option.some.inj hi)
      omega
    | 1, hi =>
      have hstart : userMemStart = L.stack.vmStart :=
        congrArg Vma.vmStart (Option.some.inj hi)
      omega
    | 2, _ => rfl
  · rw [(L.setStack b h hlt hal).mmap_of_eq hb.symm, L.mmap_of_eq hb.symm] at *
    match i, hi with
    | 0, hi =>
      have hstart := congrArg Vma.vmStart (Option.some.inj hi)
      omega
    | 1, _ => rfl

/-- A page fault keeps the layout: it puts one page in, and may let the stack grow to it. -/
theorem wp_doPageFault (h : Sound K m) (hr : m.IsRoot L.root) :
    wp (doPageFault alloc L.mm a user sum)
      (fun mm m' => Sound K m' ∧ Changes L.root {a / pgsize} m m' ∧
        ∃ L' : Layout, mm = L'.mm ∧ L'.root = L.root ∧ L'.brk = L.brk ∧ L'.code = L.code ∧
          L'.stack.vmStart ≤ L.stack.vmStart ∧
          ∃ v ∈ L'.mm.mmap, v.vmStart ≤ a ∧ a < v.vmEnd)
      (fun e => e = .walk ∨ e = .badArea) m := by
  unfold doPageFault
  apply wp_ite
  · intro _
    exact wp_throw (Or.inr rfl)
  intro _
  cases hfind : findVma L.mm.mmap a with
  | none => exact wp_throw (Or.inr rfl)
  | some found =>
    obtain ⟨i, v⟩ := found
    obtain ⟨hi, hin⟩ := of_findVmaFrom hfind
    have hmem : v ∈ L.mm.mmap := List.mem_of_getElem? hi
    dsimp only
    apply wp_ite
    · intro hle
      have hva : userCodeVmStart ≤ a := Nat.le_trans (L.userCode_le hmem) hle
      apply wp_bind (wp_error (wp_handleMmFault h hr hva) fun _ he => Or.inl he)
      rintro _ m' ⟨h', hch, -⟩
      exact wp_pure ⟨h', hch, L, rfl, rfl, rfl, rfl, Nat.le_refl _, v, hmem, hle, hin hle⟩
    intro hnot
    apply wp_ite
    · intro _
      exact wp_throw (Or.inr rfl)
    intro hflag
    have hstack : v = L.stack := L.flags hmem (Bool.eq_true_of_not_eq_false hflag)
    unfold expandStack
    by_cases hlow : pgRoundDown a < stackBottom
    · rw [if_pos hlow]
      exact wp_throw (Or.inr rfl)
    · have hdown := pgRoundDown_spec a
      have hend := L.stack_end
      have hlt := L.stack_lt
      have hregions := regions
      have hbelow : a < L.stack.vmStart := by
        rw [← hstack]
        exact Nat.lt_of_not_le hnot
      rw [if_neg hlow, if_pos (by rw [hstack]; omega)]
      apply wp_bind (wp_error (wp_handleMmFault h hr (by omega)) fun _ he => Or.inl he)
      rintro _ m' ⟨h', hch, -⟩
      let L' := L.setStack (pgRoundDown a) (Nat.le_of_not_lt hlow) (by omega) hdown.1
      have hstack' : L'.stack ∈ L'.mm.mmap := L'.mem_mmap.mpr (Or.inr (Or.inr rfl))
      refine wp_pure ⟨h', hch, L', ?_, rfl, rfl, rfl, ?_, L'.stack, hstack', hdown.2.1, ?_⟩
      · rw [L.set_stack hi hstack (Nat.le_of_not_lt hlow) (by omega) hdown.1]
        rfl
      · show pgRoundDown a ≤ _
        omega
      · show a < L.stack.vmEnd
        omega

end Fault

/-! ## §5  The first process -/

section First

variable {alloc : Mem → ℕ} {K : Kernel} {m : Mem}

/-- The areas of a program of `size` bytes that starts. -/
def firstLayout (p : ℕ) {size : ℕ} (hsize : size ≤ userMemStart - userCodeVmStart) : Layout where
  root := p
  code := ⟨userCodeVmStart, userCodeVmStart + pgRoundUp size, vmExec ||| vmRead⟩
  stack := ⟨stackTop - pgsize, stackTop, vmStackFlags⟩
  brk := userMemStart
  code_start := rfl
  code_le := Nat.le_add_right ..
  code_end := by
    have hregions := regions
    have halign := regions_aligned
    have hup := pgRoundUp_spec (a := size) (by omega)
    show userCodeVmStart + pgRoundUp size ≤ userMemStart
    unfold pgsize at *
    omega
  code_aligned := by
    have hup := pgRoundUp_spec (a := size) (by have := regions; omega)
    have halign := regions_aligned
    show (userCodeVmStart + pgRoundUp size) % pgsize = 0
    unfold pgsize at *
    omega
  code_flags := show (vmExec ||| vmRead).testBit 8 = false by decide
  stack_start := by decide
  stack_lt := by decide
  stack_end := rfl
  stack_aligned := by decide
  le_brk := Nat.le_refl _
  brk_le := by decide

/-- `move_to_user_mode` sets up a layout, with at most the first page of the program. -/
theorem wp_moveToUserMode {size : ℕ} {src : ℕ → ℕ → ℕ} (h : Sound K m)
    (hsize : size ≤ userMemStart - userCodeVmStart) :
    wp (moveToUserMode alloc size src)
      (fun o m' => ∀ mm, o = some mm → ∃ r, mm = (firstLayout r hsize).mm ∧ Sound K m' ∧
        m'.IsRoot r ∧ KeepsUse m m' ∧ ∀ va, InUser va → va < 2 ^ 39 →
          isValid (translate m' r va) = true → va / pgsize = userCodeVmStart / pgsize ∧ 0 < size)
      (fun _ => True) m := by
  have hregions := regions
  have halign := regions_aligned
  have hup := pgRoundUp_spec (a := size) (by omega)
  have hcode : (userCodeVmStart + pgRoundUp size) % 2 ^ 64 = userCodeVmStart + pgRoundUp size := by
    have : pgsize < 2 ^ 62 := by decide
    omega
  have hstack : pgRoundUp stackTop = stackTop := pgRoundUp_of_aligned halign.2.2.2 (by omega)
  have hdown : pgRoundDown (stackTop - pgsize) = stackTop - pgsize := by decide
  unfold moveToUserMode
  apply wp_bind wp_copyKernelTbl
  rintro o m₁ (⟨rfl, rfl, -⟩ | ⟨p, rfl, hp, rfl⟩)
  · exact wp_throw trivial
  have hroot : (m.newTable p).place p = some (p, []) := Function.update_self ..
  apply wp_bind (wp_error (wp_mapProgramLoop (h.newTable hp.2.2) hroot (Nat.le_refl _) halign.1)
    fun _ _ => trivial)
  rintro o m₂ ⟨h₂, hch, huse⟩
  cases o with
  | none => exact wp_pure fun _ hnone => by cases hnone
  | some b =>
    refine wp_pure fun mm hmm => ?_
    cases hmm
    refine ⟨p, ?_, h₂, hch.root hroot, fun _ _ hu => huse (useOf_newTable hp.2.2 hu), ?_⟩
    · rw [hcode, hstack, hdown]
      show (⟨p, insertVmStruct [(firstLayout p hsize).code] (firstLayout p hsize).stack,
        userMemStart, userMemStart⟩ : Mm) =
          ⟨p, (firstLayout p hsize).mm.mmap, userMemStart, userMemStart⟩
      rw [(firstLayout p hsize).mmap_of_eq rfl, insertVmStruct, insertVma, if_neg,
        if_neg (by simp)]
      · rfl
      · show ¬ stackTop ≤ userCodeVmStart
        omega
      · exact List.cons_ne_nil _ _
    · intro va hva hlt hv
      by_contra hnot
      -- the table was empty, and this page is none of those mapped
      rw [hch.same hroot hva hlt, h.tables.translate_newTable_self (h.fresh_of_free hp.2.2) hva]
        at hv
      · cases hv
      · rintro - ⟨hpage, hne⟩
        apply hnot
        refine ⟨hpage, Nat.pos_of_ne_zero ?_⟩
        rintro rfl
        exact hne (by decide)

end First

end RiscvBm.Vm

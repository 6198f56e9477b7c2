import RiscvBm.Vm.Isolation
import RiscvBm.Vm.Layout

/-!
# The heap of a process: `brk` and `sbrk`

A process is set up by `move_to_user_mode` and then asks for heap with `brk` and `sbrk`, while
page faults put pages in and let the stack grow. The areas of such a process stay those of a
`Layout` as long as every request `Fits`; in between, an unaligned break leaves the heap
area short of it, or makes it end inside a page.
-/

namespace RiscvBm.Vm.Heap

open Wp Transition

/-! ## §1  The system -/

structure Proc where
  mm : Mm
  mem : Mem

/-- The calls come with `kmalloc`'s answer, should they ask for an area. -/
inductive Act where
  | brk (addr : ℕ) (kmalloc : Bool)
  | sbrk (size : ℕ) (kmalloc : Bool)
  | fault (addr : ℕ) (user sum : Bool)
deriving DecidableEq, Repr

/-- A system call, not a fault. -/
def Act.isCall : Act → Bool
  | .fault .. => false
  | _ => true

/-- The break that is asked for; `sbrk(0)` only reads it. -/
def requested (mm : Mm) : Act → ℕ
  | .brk addr _ => addr
  | .sbrk size _ => if size = 0 then mm.brk else sbrkTarget mm size
  | .fault .. => mm.brk

section System

variable (alloc : Mem → ℕ)

/-- A call, with what its return value says: that the break is the old one. -/
def call (mm : Mm) : Act → VmM (Bool × Mm)
  | .brk addr kmalloc => Vm.brk alloc kmalloc mm addr
  | .sbrk size kmalloc => do
    let (ret, mm') ← Vm.sbrk alloc kmalloc mm size
    pure (size = 0 ∨ ret = 0, mm')
  | .fault addr user sum => do
    let mm' ← doPageFault alloc mm addr user sum
    pure (false, mm')

/-- The requests are those that keep the break below `USER_MEM_END`. -/
def step (s : Proc) (a : Act) : Option Proc :=
  if requested s.mm a ≤ userMemEnd then
    match call alloc s.mm a s.mem with
    | .ok ((_, mm), m) => some ⟨mm, m⟩
    | .error _ => none
  else none

/-- The process that `move_to_user_mode` sets up for a program of `size` bytes. -/
def start (B : Boot) (size : ℕ) (src : ℕ → ℕ → ℕ) : Option Proc :=
  match moveToUserMode alloc size src B.mem with
  | .ok (some mm, m) => some ⟨mm, m⟩
  | _ => none

end System

/-! ## §2  What is to hold -/

/-- The areas are in order and cover the heap. -/
structure Ordered (mm : Mm) : Prop where
  sorted : mm.mmap.Pairwise fun v w => v.vmEnd ≤ w.vmStart
  aligned : ∀ v ∈ mm.mmap, v.vmStart ≤ v.vmEnd ∧ v.vmStart % pgsize = 0 ∧ v.vmEnd % pgsize = 0
  covered : mm.startBrk < mm.brk → ∃ v ∈ mm.mmap, v.vmStart = mm.startBrk ∧ mm.brk ≤ v.vmEnd

/-- The areas other than the heap. -/
def others (mm : Mm) : List Vma := mm.mmap.filter fun v => v.vmStart ≠ mm.startBrk

/-- What a request for the break `c` may do to a process. -/
structure Kept (s : Proc) (c : ℕ) (refused : Bool) (s' : Proc) : Prop where
  /-- pages with a byte below the break asked for, or below the one that is set -/
  populated : ∀ va, userCodeVmStart ≤ va → va < maxva →
    pgRoundDown va < c ∨ pgRoundDown va < s'.mm.brk →
    isValid (translate s.mem s.mm.pagetable va) = true →
      translate s'.mem s'.mm.pagetable va = translate s.mem s.mm.pagetable va
  others : others s'.mm = others s.mm
  refused : refused = true → s' = s

def Keeps (alloc : Mem → ℕ) (s : Proc) (a : Act) : Prop :=
  a.isCall = true → ∀ refused mm m, call alloc s.mm a s.mem = .ok ((refused, mm), m) →
    Kept s (requested s.mm a) refused ⟨mm, m⟩

/-- The actions for which the heap is kept. -/
def FitsAct (s : Proc) : Act → Prop
  | .brk addr kmalloc => Fits kmalloc s.mm s.mem addr
  | .sbrk size kmalloc => size = 0 ∨ Fits kmalloc s.mm s.mem (sbrkTarget s.mm size)
  | .fault .. => True

/-- Requests that fit are answered: the kernel does not panic. -/
def Answers (alloc : Mem → ℕ) (s : Proc) : Prop :=
  ∀ a, a.isCall = true → requested s.mm a ≤ userMemEnd → FitsAct s a → step alloc s a ≠ none

/-! ## §3  The invariant -/

/-- The process has the areas of a layout. -/
def Inv (K : Kernel) (s : Proc) : Prop :=
  ∃ L : Layout, s.mm = L.mm ∧ Sound K s.mem ∧ s.mem.IsRoot L.root

section Calls

variable {alloc : Mem → ℕ} {kmalloc : Bool} {K : Kernel} {m m' : Mem} {L : Layout} {c ret : ℕ}
  {mm : Mm}

theorem ordered_of_inv {s : Proc} (h : Inv K s) : Ordered s.mm := by
  obtain ⟨L, hmm, -, -⟩ := h
  rw [hmm]
  refine ⟨L.sorted, fun v hv => L.aligned hv, ?_⟩
  intro hlt
  exact ⟨heapArea L.brk, L.mem_mmap.mpr (Or.inr (Or.inl ⟨hlt, rfl⟩)), rfl,
    (pgRoundUp_spec L.brk_lt).2.1⟩

theorem others_layout (L : Layout) : others L.mm = [L.code, L.stack] := by
  have hregions := regions
  have hcode : L.code.vmStart ≠ userMemStart := by
    rw [L.code_start]
    omega
  have hstack : L.stack.vmStart ≠ userMemStart := by
    have := L.stack_start
    omega
  unfold others
  rcases Nat.lt_or_eq_of_le L.le_brk with h | h
  · rw [L.mmap_of_lt h]
    simp [hcode, hstack, heapArea, Layout.mm]
  · rw [L.mmap_of_eq h.symm]
    simp [hcode, hstack, Layout.mm]

/-- The pages that are unmapped start at the break. -/
theorem translate_of_unmaps {n va : ℕ} (hr : m.IsRoot L.root)
    (hfits : c % pgsize = 0 ∨ isValid (translate m L.root c) = false) (hc : c < maxva)
    (hun : Unmaps L.root (pagesFrom (pgRoundDown c) n) m m') (hva : userCodeVmStart ≤ va)
    (hlt : va < maxva) (hbelow : pgRoundDown va < c) (hv : isValid (translate m L.root va) = true) :
    translate m' L.root va = translate m L.root va := by
  have hmax := maxva_lt
  apply hun.same hr (inUser_of_range hva hlt) (by omega)
  rintro - ⟨hpage, -⟩
  exfalso
  rw [pgRoundDown_div] at hpage
  have hdown := pgRoundDown_spec va
  -- the page is the one that holds `c`, and it is not there
  have heq : va / pgsize = c / pgsize := by
    unfold pgRoundDown pgsize at *
    omega
  rcases hfits with hal | hno
  · unfold pgRoundDown pgsize at *
    omega
  · rw [translate_congr (by omega) (by omega) heq, hno] at hv
    cases hv

theorem inv_of_moved (h : Sound K m') (hr : m.IsRoot L.root)
    (hmoved : Moved L m c ret mm m') : Inv K ⟨mm, m'⟩ := by
  rcases hmoved with ⟨-, rfl, rfl⟩ | ⟨-, -, ⟨_, _, rfl⟩, rfl⟩ | ⟨-, -, ⟨_, _, rfl⟩, hun⟩
  · exact ⟨L, rfl, h, hr⟩
  · exact ⟨_, rfl, h, hr⟩
  · refine ⟨_, rfl, h, ?_⟩
    exact (congrFun hun.place L.root).trans hr

theorem kept_of_moved {refused : Bool} (hr : m.IsRoot L.root)
    (hc : c ≤ userMemEnd) (hfits : Fits kmalloc L.mm m c) (hmoved : Moved L m c ret mm m')
    (hrefused : refused = true → ret = L.brk) : Kept ⟨L.mm, m⟩ c refused ⟨mm, m'⟩ := by
  have hregions := regions
  rcases hmoved with ⟨-, rfl, rfl⟩ | ⟨hret, hlt, ⟨_, _, rfl⟩, rfl⟩ | ⟨hret, hlt, ⟨hle, _, rfl⟩, hun⟩
  · exact ⟨fun _ _ _ _ _ => rfl, rfl, fun _ => rfl⟩
  · refine ⟨fun _ _ _ _ _ => rfl, ?_, ?_⟩
    · rw [others_layout, others_layout]
      rfl
    · intro href
      have := hrefused href
      omega
  · refine ⟨?_, ?_, ?_⟩
    · intro va hva hva' hbelow hv
      have hdown := pgRoundDown_spec c
      have hbelow : pgRoundDown va < c := by
        rcases hbelow with h | h
        · exact h
        · have h : pgRoundDown va < pgRoundDown c := h
          omega
      refine translate_of_unmaps hr ?_ (by omega) hun hva hva' hbelow hv
      rcases hfits with hlow | ⟨-, hpage⟩ | ⟨-, hsame | ⟨hgrow, -⟩⟩
      · have hlow : c < userMemStart := hlow
        omega
      · exact hpage
      · have hsame : c = L.brk := hsame
        omega
      · have hgrow : L.brk < pgRoundDown c := hgrow
        omega
    · rw [others_layout, others_layout]
      rfl
    · intro href
      have := hrefused href
      omega

/-- `sbrk` returns 0 only when the break is the old one. -/
theorem wp_sbrk {size : ℕ} (hsize : size ≠ 0) (h : Sound K m)
    (hr : m.IsRoot L.root) (hc : sbrkTarget L.mm size ≤ userMemEnd)
    (hfits : Fits kmalloc L.mm m (sbrkTarget L.mm size)) :
    wp (Vm.sbrk alloc kmalloc L.mm size) (fun x m' => Sound K m' ∧
      ∃ ret, Moved L m (sbrkTarget L.mm size) ret x.2 m' ∧ (x.1 = 0 → ret = L.brk)) noError m := by
  unfold Vm.sbrk
  rw [if_neg hsize]
  apply wp_bind (wp_doBrk h hr hc hfits)
  rintro ⟨ret, mm⟩ m' ⟨h', hmoved⟩
  apply wp_ite
  · intro heq
    exact wp_pure ⟨h', ret, hmoved, fun _ => heq.symm⟩
  · intro hne
    refine wp_pure ⟨h', ret, hmoved, ?_⟩
    intro hzero
    -- otherwise the return value is the old break
    exfalso
    have hret : ret = sbrkTarget L.mm size := by
      rcases hmoved with ⟨hret, -, -⟩ | ⟨hret, -⟩ | ⟨hret, -⟩
      · exact absurd hret.symm hne
      · exact hret
      · exact hret
    have hbrk := L.brk_lt
    have hle := L.le_brk
    have hpos : 0 < userMemStart := by decide
    have hround : pgRoundUp size < 2 ^ 64 := by
      unfold pgRoundUp pgsize
      omega
    have hzero : (ret + 2 ^ 64 - pgRoundUp size) % 2 ^ 64 = 0 := hzero
    rw [hret] at hzero
    unfold sbrkTarget at hzero
    have hmm : L.mm.brk = L.brk := rfl
    omega

variable (alloc) in
/-- `brk` and `sbrk` on a layout. -/
theorem wp_call {a : Act} (ha : a.isCall = true) (h : Sound K m)
    (hr : m.IsRoot L.root) (hc : requested L.mm a ≤ userMemEnd)
    (hfits : FitsAct ⟨L.mm, m⟩ a) :
    wp (call alloc L.mm a) (fun x m' => Inv K ⟨x.2, m'⟩ ∧
      Kept ⟨L.mm, m⟩ (requested L.mm a) x.1 ⟨x.2, m'⟩) noError m := by
  have hsame : Inv K ⟨L.mm, m⟩ := ⟨L, rfl, h, hr⟩
  cases a with
  | fault addr user sum => cases ha
  | brk addr kmalloc =>
    apply wp_bind (wp_doBrk h hr hc hfits)
    rintro ⟨ret, mm⟩ m' ⟨h', hmoved⟩
    refine wp_pure ⟨inv_of_moved h' hr hmoved, kept_of_moved hr hc hfits hmoved ?_⟩
    intro href
    exact (of_decide_eq_true href).symm
  | sbrk size kmalloc =>
    simp only [requested] at hc ⊢
    by_cases hzero : size = 0
    · rw [if_pos hzero]
      subst hzero
      exact wp_of_run rfl ⟨hsame, fun _ _ _ _ _ => rfl, rfl, fun _ => rfl⟩
    · rw [if_neg hzero] at hc ⊢
      have hfits : Fits kmalloc L.mm m (sbrkTarget L.mm size) := hfits.resolve_left hzero
      apply wp_bind (wp_sbrk hzero h hr hc hfits)
      rintro ⟨x, mm⟩ m' ⟨h', ret, hmoved, hret⟩
      refine wp_pure ⟨inv_of_moved h' hr hmoved, kept_of_moved hr hc hfits hmoved ?_⟩
      intro href
      exact hret ((of_decide_eq_true href).resolve_left hzero)

theorem inv_fault {addr : ℕ} {user sum : Bool} (h : Sound K m)
    (hr : m.IsRoot L.root) :
    wp (call alloc L.mm (.fault addr user sum)) (fun x m' => Inv K ⟨x.2, m'⟩)
      (fun _ => True) m := by
  apply wp_bind (wp_error (wp_doPageFault h hr) fun _ _ => trivial)
  rintro _ m' ⟨h', hch, L', rfl, hroot, -⟩
  refine wp_pure ⟨L', rfl, h', ?_⟩
  rw [hroot]
  exact hch.root hr

end Calls

/-! ## §4  Runs -/

section Runs

variable {alloc : Mem → ℕ} {K : Kernel} {s s' : Proc} {a : Act}

theorem of_step (h : step alloc s a = some s') : requested s.mm a ≤ userMemEnd ∧
    ∃ refused, call alloc s.mm a s.mem = .ok ((refused, s'.mm), s'.mem) := by
  unfold step at h
  split at h
  · rename_i hc
    split at h
    · rename_i refused mm m hcall
      cases h
      exact ⟨hc, refused, hcall⟩
    · cases h
  · cases h

theorem answers_of_inv (h : Inv K s) : Answers alloc s := by
  obtain ⟨L, hmm, hs, hr⟩ := h
  intro a ha hc hfits hnone
  obtain ⟨mm, m⟩ := s
  have hmm : mm = L.mm := hmm
  subst hmm
  obtain ⟨x, m', hrun, -⟩ := exists_of_wp (wp_call alloc ha hs hr hc hfits)
  rw [step, if_pos hc, show call alloc L.mm a m = _ from hrun] at hnone
  cases hnone

theorem inv_step (h : Inv K s) (hfits : FitsAct s a) (hstep : step alloc s a = some s') :
    Inv K s' ∧ Keeps alloc s a := by
  obtain ⟨hc, refused, hcall⟩ := of_step hstep
  obtain ⟨L, hmm, hs, hr⟩ := h
  obtain ⟨mm, m⟩ := s
  have hmm : mm = L.mm := hmm
  subst hmm
  cases ha : a.isCall with
  | true =>
    have hwp := wp_call alloc ha hs hr hc hfits
    exact ⟨(post_of_ok hwp hcall).1, fun _ _ _ _ hcall' => (post_of_ok hwp hcall').2⟩
  | false =>
    refine ⟨?_, fun hcall' => by rw [ha] at hcall'; cases hcall'⟩
    cases a with
    | fault addr user sum =>
      have hpost := post_of_ok (inv_fault hs hr) hcall
      exact hpost
    | brk => cases ha
    | sbrk => cases ha

theorem inv_start {B : Boot} {size : ℕ} {src : ℕ → ℕ → ℕ}
    (hsize : size ≤ userMemStart - userCodeVmStart) (h : start alloc B size src = some s) :
    Inv B.kernel s := by
  unfold start at h
  split at h
  · rename_i mm m hrun
    cases h
    have hpost := post_of_ok (wp_moveToUserMode (sound_boot B) hsize) hrun
    obtain ⟨r, hmm, hs, hr, -⟩ := hpost mm rfl
    exact ⟨firstLayout r hsize, hmm, hs, hr⟩
  · cases h

end Runs

/-- A process whose program lies below the heap: in every run of requests that fit, and of page
faults, the areas are in order and cover the heap after each step, each request is answered, and
it keeps the other areas and the pages below the break. -/
theorem heap_of_fits (alloc : Mem → ℕ) (B : Boot) {size : ℕ} {src : ℕ → ℕ → ℕ} {s : Proc}
    (hsize : size ≤ userMemStart - userCodeVmStart) (hstart : start alloc B size src = some s)
    {as : List Act} (hfits : Steps (step alloc) FitsAct s as) :
    Along (step alloc) (fun s => Ordered s.mm ∧ Answers alloc s) s as ∧
      Steps (step alloc) (Keeps alloc) s as := by
  have hinv := inv_start hsize hstart
  constructor
  · apply along_of_steps (fun s h => ⟨ordered_of_inv h, answers_of_inv h⟩) _ hinv hfits
    exact fun s a s' h hc hstep => (inv_step h hc hstep).1
  · exact steps_of_steps (fun s a s' h hc hstep => inv_step h hc hstep) hinv hfits

instance (kmalloc : Bool) (mm : Mm) (m : Mem) (c : ℕ) : Decidable (Fits kmalloc mm m c) :=
  inferInstanceAs (Decidable (_ ∨ _ ∨ _))

instance (s : Proc) (a : Act) : Decidable (FitsAct s a) :=
  match a with
  | .brk addr kmalloc => inferInstanceAs (Decidable (Fits kmalloc s.mm s.mem addr))
  | .sbrk size kmalloc =>
    inferInstanceAs (Decidable (size = 0 ∨ Fits kmalloc s.mm s.mem (sbrkTarget s.mm size)))
  | .fault .. => inferInstanceAs (Decidable True)

theorem heap_of_fits_run : ∃ s,
    start above emptyBoot 5000 (fun _ _ => 0) = some s ∧
      Steps (step above) (Keeps above) s
        [.sbrk 5000 true, .fault (userMemStart + 20) true false, .brk (userMemStart + 4096) false,
          .brk userMemStart false] := by
  have hstart : ((start above emptyBoot 5000 fun _ _ => 0).map fun s => checkSteps (step above)
      (fun s a => decide (FitsAct s a)) s
        [.sbrk 5000 true, .fault (userMemStart + 20) true false, .brk (userMemStart + 4096) false,
          .brk userMemStart false]) = some true := by
    decide +kernel
  obtain ⟨s, hs, hcheck⟩ := Option.map_eq_some_iff.mp hstart
  refine ⟨s, hs, (heap_of_fits above emptyBoot (by decide) hs ?_).2⟩
  exact steps_of_check (fun _ _ => of_decide_eq_true) hcheck

/-- `brk(USER_MEM_START + 10)` of a new process moves the break, but there is no heap area. -/
theorem not_ordered_brk : ∃ s s', start above emptyBoot 5000 (fun _ _ => 0) = some s ∧
    step above s (.brk (userMemStart + 10) true) = some s' ∧ s'.mm.brk = userMemStart + 10 ∧
      ¬ Ordered s'.mm := by
  have hrun : ((start above emptyBoot 5000 fun _ _ => 0).bind fun s =>
      step above s (.brk (userMemStart + 10) true)).map Proc.mm =
      some ⟨2, [⟨userCodeVmStart, userCodeVmStart + 8192, vmExec ||| vmRead⟩,
        ⟨stackTop - 4096, stackTop, vmStackFlags⟩], userMemStart, userMemStart + 10⟩ := by
    decide +kernel
  obtain ⟨s', hs', hmm⟩ := Option.map_eq_some_iff.mp hrun
  obtain ⟨s, hs, hstep⟩ := Option.bind_eq_some_iff.mp hs'
  refine ⟨s, s', hs, hstep, by rw [hmm], ?_⟩
  intro hord
  obtain ⟨v, hv, hstart, -⟩ := hord.covered (by rw [hmm]; exact Nat.lt_add_of_pos_right (by decide))
  rw [hmm] at hv hstart
  simp only [List.mem_cons, List.not_mem_nil, or_false] at hv
  rcases hv with rfl | rfl
  · exact absurd hstart (by decide)
  · exact absurd hstart (by decide)

end RiscvBm.Vm.Heap

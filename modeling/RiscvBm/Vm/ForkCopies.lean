import RiscvBm.Vm.Fork
import RiscvBm.Vm.Layout

/-!
# When `fork` copies the address space

`dup_mm` visits the addresses `vm_start`, `vm_start + PGSIZE`, … of each area. It skips those that
have no bottom table, and panics at one whose table is there but whose entry is empty: the first
page of a table that a page fault has filled makes the whole table's range uncopyable unless all
of it is filled. `forks_iff_copyable` says that this, and areas that start inside a page, is all
that can go wrong when there is enough memory.
-/

namespace RiscvBm.Vm

open Radix Wp Function

/-! ## §1  The order of the areas -/

/-- The areas are sorted and disjoint, in user space. -/
structure Areas (vs : List Vma) : Prop where
  sorted : vs.Pairwise fun v w => v.vmStart < w.vmStart ∧ v.vmEnd ≤ w.vmStart
  le : ∀ v ∈ vs, v.vmStart ≤ v.vmEnd
  user : ∀ v ∈ vs, userCodeVmStart ≤ v.vmStart

section Order

variable {vs l : List Vma} {w : Vma}

theorem insertVma_last {prev : Option Vma} (hl : l ≠ [])
    (h : ∀ v ∈ l, v.vmStart < w.vmStart) (hw : w.vmStart ≤ w.vmEnd) :
    insertVma w prev l = some (l ++ [w]) := by
  induction l generalizing prev with
  | nil => exact absurd rfl hl
  | cons v l ih =>
    have hv := h v List.mem_cons_self
    rw [insertVma, if_neg (by omega)]
    cases l with
    | nil =>
      rw [if_neg (by simp)]
      rfl
    | cons n l =>
      have hn := h n (List.mem_cons_of_mem v List.mem_cons_self)
      rw [if_pos ⟨n, rfl, by omega⟩, ih (List.cons_ne_nil n l) fun x hx =>
        h x (List.mem_cons_of_mem v hx)]
      rfl

/-- An area above all others is put at the end. -/
theorem insertVmStruct_last (h : ∀ v ∈ l, v.vmStart < w.vmStart) (hw : w.vmStart ≤ w.vmEnd) :
    insertVmStruct l w = l ++ [w] := by
  cases l with
  | nil => rfl
  | cons v l =>
    rw [insertVmStruct, insertVma_last (List.cons_ne_nil v l) h hw]
    · rfl
    · exact fun hnil => List.cons_ne_nil v l hnil

theorem foldl_insertVmStruct (h : (l ++ vs).Pairwise fun v w => v.vmStart < w.vmStart)
    (hle : ∀ v ∈ vs, v.vmStart ≤ v.vmEnd) : vs.foldl insertVmStruct l = l ++ vs := by
  induction vs generalizing l with
  | nil => simp
  | cons w vs ih =>
    have hw : ∀ v ∈ l, v.vmStart < w.vmStart := fun v hv =>
      (List.pairwise_append.mp h).2.2 v hv w List.mem_cons_self
    have hassoc : l ++ w :: vs = l ++ [w] ++ vs := by simp
    rw [List.foldl_cons, insertVmStruct_last hw (hle w List.mem_cons_self), hassoc]
    rw [hassoc] at h
    exact ih h fun v hv => hle v (List.mem_cons_of_mem w hv)

theorem Areas.foldl (h : Areas vs) : vs.foldl insertVmStruct [] = vs :=
  foldl_insertVmStruct (h.sorted.imp fun hvw => hvw.1) h.le

/-- The addresses are visited in order. -/
theorem Areas.pairwise_strides (h : Areas vs) : (vs.flatMap strides).Pairwise (· < ·) := by
  rw [List.pairwise_flatMap]
  constructor
  · intro v _
    unfold strides
    rw [List.pairwise_map]
    apply List.pairwise_lt_range.imp
    intro i j hij
    unfold pgsize
    omega
  · apply h.sorted.imp
    intro v w hvw va hva vb hvb
    have hle := (le_of_mem_strides hva).2
    have hle' := (le_of_mem_strides hvb).1
    omega

/-- A page with its last byte in an area is visited. -/
theorem exists_stride {v : Vma} {P : ℕ} (h₁ : v.vmStart ≤ P * pgsize + (pgsize - 1))
    (h₂ : P * pgsize + (pgsize - 1) < v.vmEnd) : ∃ va ∈ strides v, va / pgsize = P := by
  by_cases hstart : P * pgsize ≤ v.vmStart
  · refine ⟨v.vmStart, mem_strides.mpr ⟨0, by simp, by omega⟩, ?_⟩
    unfold pgsize at *
    omega
  · refine ⟨P * pgsize + v.vmStart % pgsize, mem_strides.mpr ⟨P - v.vmStart / pgsize, ?_, ?_⟩, ?_⟩
    · unfold pgsize at *
      omega
    · unfold pgsize at *
      omega
    · unfold pgsize at *
      omega

end Order

/-! ## §2  The child -/

/-- A process that forks: its areas are in order, its mapped pages lie inside them, and are in
use. -/
structure Parent (K : Kernel) (m : Mem) (mm : Mm) : Prop where
  shaped : Shaped K m
  root : m.IsRoot mm.pagetable
  areas : Areas mm.mmap
  inside : ∀ va, userCodeVmStart ≤ va → va < maxva →
    isValid (translate m mm.pagetable va) = true → ∃ v ∈ mm.mmap, v.vmStart ≤ va ∧ va < v.vmEnd
  inUse : ∀ va, userCodeVmStart ≤ va → va < maxva →
    isValid (translate m mm.pagetable va) = true →
      m.useOf (pte2pa (translate m mm.pagetable va)) ≠ none

/-- The address space `mm'` is a copy of `mm`, which is as it was. -/
structure IsCopy (m m' : Mem) (mm mm' : Mm) : Prop where
  mmap : mm'.mmap = mm.mmap
  breaks : mm'.startBrk = mm.startBrk ∧ mm'.brk = mm.brk
  mapped : ∀ va, userCodeVmStart ≤ va → va < maxva →
    (isValid (translate m' mm'.pagetable va) = true ↔ isValid (translate m mm.pagetable va) = true)
  pages : ∀ va, userCodeVmStart ≤ va → va < maxva → isValid (translate m mm.pagetable va) = true →
    pteFlags (translate m' mm'.pagetable va) = pteFlags (translate m mm.pagetable va) ∧
      m'.word (pte2pa (translate m' mm'.pagetable va)) =
        m.word (pte2pa (translate m mm.pagetable va))
  disjoint : ∀ va vb, userCodeVmStart ≤ va → va < maxva → userCodeVmStart ≤ vb → vb < maxva →
    isValid (translate m' mm'.pagetable va) = true → isValid (translate m mm.pagetable vb) = true →
      pte2pa (translate m' mm'.pagetable va) ≠ pte2pa (translate m mm.pagetable vb)
  table : ∀ va, entries m' mm.pagetable va = entries m mm.pagetable va
  contents : ∀ va, userCodeVmStart ≤ va → va < maxva →
    isValid (translate m mm.pagetable va) = true →
      m'.word (pte2pa (translate m mm.pagetable va)) = m.word (pte2pa (translate m mm.pagetable va))

def Forks (alloc : Mem → ℕ) (m : Mem) (mm : Mm) : Prop :=
  ∃ mm' m', dupMm alloc mm m = .ok (some mm', m') ∧ IsCopy m m' mm mm'

/-- Every address that is visited has no table, or is mapped and the area starts on a page. -/
def Copyable (m : Mem) (mm : Mm) : Prop :=
  ∀ v ∈ mm.mmap, ∀ va ∈ strides v, va < maxva ∧ (Tabled m mm.pagetable va →
    isValid (translate m mm.pagetable va) = true ∧ v.vmStart % pgsize = 0)

section Child

variable {alloc : Mem → ℕ} {K : Kernel} {m m' : Mem} {mm : Mm} {q r va : ℕ}

section

variable (h : Parent K m mm)

include h

/-- The parent's pages and the new table. -/
theorem Parent.sources (hr : m.useOf r = none) :
    Sources (m.newTable r) mm.pagetable r := by
  intro va hva hlt hv
  have hfresh := h.shaped.fresh_of_free hr
  rw [h.shaped.tables.translate_newTable hfresh h.root (inUser_of_range hva hlt)] at hv ⊢
  have hused := h.inUse va hva hlt hv
  obtain ⟨u, hu⟩ := Option.ne_none_iff_exists'.mp hused
  have hne : pte2pa (translate m mm.pagetable va) ≠ r := by
    intro heq
    rw [heq] at hused
    exact hused hr
  refine ⟨by rw [useOf_newTable hr hu]; exact Option.some_ne_none u, ?_⟩
  intro σ hσ
  -- nothing was linked below the new table yet
  rw [place_newTable, update_of_ne hne] at hσ
  have hplace := (h.shaped.tables.linked.descend_of_place hσ).1
  rw [hfresh.place] at hplace
  cases hplace

theorem Parent.ne_root (hr : m.useOf r = none) : mm.pagetable ≠ r :=
  Linked.ne_of_place h.root (h.shaped.fresh_of_free hr).place

theorem Parent.root_newTable (hr : m.useOf r = none) :
    (m.newTable r).place mm.pagetable = some (mm.pagetable, []) := by
  rw [place_newTable, update_of_ne (h.ne_root hr), h.root]

theorem Parent.copying (hr : m.useOf r = none) : Copying K (m.newTable r) mm.pagetable r :=
  ⟨h.shaped.newTable hr, h.root_newTable hr, update_self .., h.ne_root hr, h.sources hr⟩

/-- What `dup_mm` has done when it returns, with a new table at `r`. -/
structure Dup (K : Kernel) (m : Mem) (mm : Mm) (r : ℕ) (m' : Mem) : Prop where
  parent : Parent K m mm
  free : m.useOf r = none
  shaped : Shaped K m'
  extended : Extends r (m.newTable r) m'
  copied : Copied mm.pagetable r (mm.mmap.flatMap strides) (m.newTable r) m'

theorem Parent.ready (hcopyable : Copyable m mm) (hr : m.useOf r = none) :
    Ready (m.newTable r) mm.pagetable r (mm.mmap.flatMap strides) := by
  have hfresh := h.shaped.fresh_of_free hr
  have hrange : ∀ va ∈ mm.mmap.flatMap strides, userCodeVmStart ≤ va ∧ va < maxva := by
    intro va hva
    obtain ⟨v, hv, hva⟩ := List.mem_flatMap.mp hva
    exact ⟨Nat.le_trans (h.areas.user v hv) (le_of_mem_strides hva).1, (hcopyable v hv va hva).1⟩
  refine ⟨hrange, ?_, h.areas.pairwise_strides, ?_⟩
  · intro va hva htab
    have hin := inUser_of_range (hrange va hva).1 (hrange va hva).2
    rw [Tabled, h.shaped.tables.descend_newTable hfresh h.root hin] at htab
    rw [h.shaped.tables.translate_newTable hfresh h.root hin]
    obtain ⟨v, hv, hva⟩ := List.mem_flatMap.mp hva
    obtain ⟨hvalid, hal⟩ := (hcopyable v hv va hva).2 htab
    refine ⟨hvalid, ?_⟩
    obtain ⟨i, rfl, -⟩ := mem_strides.mp hva
    rwa [Nat.add_mul_mod_self_right]
  · intro va hva _
    rw [h.shaped.tables.translate_newTable_self hfresh
      (inUser_of_range (hrange va hva).1 (hrange va hva).2)]
    rfl

/-- With enough memory, only a panic can keep `dup_mm` from copying, and only where the address
space is not copyable. -/
theorem wp_dupMm
    (hmem : Suffices alloc (m.used.length + 1 + 3 * (mm.mmap.flatMap strides).length)) :
    wp (dupMm alloc mm)
      (fun o m' => ∃ r, o = some { mm with pagetable := r } ∧ Dup K m mm r m')
      (fun _ => ¬ Copyable m mm) m := by
  unfold dupMm
  apply wp_bind wp_copyKernelTbl
  rintro o m₁ (⟨rfl, rfl, hno⟩ | ⟨r, rfl, hr, rfl⟩)
  · exact absurd (hmem m (by omega)) hno
  have hr := hr.2.2
  apply wp_bind (wp_error (wp_dupMmap (h.copying hr) h.areas.user)
    fun _ hno hcopyable => hno ⟨hmem, Nat.le_refl _, h.ready hcopyable hr⟩)
  rintro _ m₂ ⟨rfl, hp⟩
  rw [h.areas.foldl]
  exact wp_pure ⟨r, rfl, h, hr, hp.shaped, hp.extended, hp.copied⟩

/-- Every page of the parent is visited. -/
theorem Parent.exists_visit (hva : userCodeVmStart ≤ va) (hlt : va < maxva)
    (hv : isValid (translate m mm.pagetable va) = true) :
    ∃ v ∈ mm.mmap, ∃ vb ∈ strides v, vb / pgsize = va / pgsize := by
  have hmax := maxva_lt
  have hlast : va / pgsize * pgsize + (pgsize - 1) < maxva ∧
      userCodeVmStart ≤ va / pgsize * pgsize + (pgsize - 1) ∧
      (va / pgsize * pgsize + (pgsize - 1)) / pgsize = va / pgsize := by
    unfold maxva userCodeVmStart pgsize at *
    omega
  obtain ⟨hlt', hlo, hpage⟩ := hlast
  rw [← translate_congr (by omega) (by omega) hpage] at hv
  obtain ⟨v, hmem, hin⟩ := h.inside _ hlo hlt' hv
  exact ⟨v, hmem, exists_stride hin.1 hin.2⟩

end

/-! ### Reading off the copy -/

section

variable (h : Dup K m mm r m')

include h

theorem Dup.range {v : Vma} (hv : v ∈ mm.mmap) (hva : va ∈ strides v) :
    userCodeVmStart ≤ va ∧ va < maxva :=
  ⟨Nat.le_trans (h.parent.areas.user v hv) (le_of_mem_strides hva).1,
    h.copied.below va (List.mem_flatMap.mpr ⟨v, hv, hva⟩)⟩

theorem Dup.translate_eq (hva : userCodeVmStart ≤ va) (hlt : va < maxva) :
    translate (m.newTable r) mm.pagetable va = translate m mm.pagetable va :=
  h.parent.shaped.tables.translate_newTable (h.parent.shaped.fresh_of_free h.free) h.parent.root
    (inUser_of_range hva hlt)

theorem Dup.tabled_iff (hva : userCodeVmStart ≤ va) (hlt : va < maxva) :
    Tabled (m.newTable r) mm.pagetable va ↔ Tabled m mm.pagetable va := by
  unfold Tabled
  rw [h.parent.shaped.tables.descend_newTable (h.parent.shaped.fresh_of_free h.free) h.parent.root
    (inUser_of_range hva hlt)]

theorem Dup.present {v : Vma} (hv : v ∈ mm.mmap) (hva : va ∈ strides v)
    (ht : Tabled m mm.pagetable va) : isValid (translate m mm.pagetable va) = true := by
  obtain ⟨hlo, hlt⟩ := h.range hv hva
  rw [← h.translate_eq hlo hlt]
  exact h.copied.present va (List.mem_flatMap.mpr ⟨v, hv, hva⟩) ((h.tabled_iff hlo hlt).mpr ht)

/-- A child with no more pages than the parent: no area starts inside a page, since the second
of two pages mapped at once would be visited again. -/
theorem Dup.copyable
    (hmapped : ∀ va, userCodeVmStart ≤ va → va < maxva → isValid (translate m' r va) = true →
      isValid (translate m mm.pagetable va) = true) : Copyable m mm := by
  intro v hv va hva
  obtain ⟨hlo, hlt⟩ := h.range hv hva
  have hvisit : va ∈ mm.mmap.flatMap strides := List.mem_flatMap.mpr ⟨v, hv, hva⟩
  refine ⟨hlt, fun ht => ⟨h.present hv hva ht, ?_⟩⟩
  by_contra hal
  have hal : va % pgsize ≠ 0 := by
    obtain ⟨i, rfl, -⟩ := mem_strides.mp hva
    rwa [Nat.add_mul_mod_self_right]
  have ht' := (h.tabled_iff hlo hlt).mpr ht
  have hsucc := mem_touched_succ hal
  obtain ⟨hlt', -, hchild⟩ := h.copied.fresh va hvisit ht' _ hsucc
  have hlo' := userCode_le_of_touched hlo hsucc
  have hparent := hmapped _ hlo' hlt' hchild
  obtain ⟨w, hw, vb, hvb, hpage⟩ := h.parent.exists_visit hlo' hlt' hparent
  rw [Nat.mul_div_cancel _ (by decide)] at hpage
  obtain ⟨hlo'', hlt''⟩ := h.range hw hvb
  have hmax := maxva_lt
  have htb : Tabled (m.newTable r) mm.pagetable vb := by
    rw [h.tabled_iff hlo'' hlt'']
    apply tabled_of_valid
    rw [translate_congr (b := (va / pgsize + 1) * pgsize) (by omega) (by omega)
      (by rw [hpage, Nat.mul_div_cancel _ (by decide)])]
    exact hparent
  have hsymm : Std.Symm fun va vb => Tabled (m.newTable r) mm.pagetable va →
      Tabled (m.newTable r) mm.pagetable vb → ∀ v ∈ touched va, v ∉ touched vb :=
    ⟨fun a b hab ha hb v hva hvb => hab hb ha v hvb hva⟩
  have hne : va ≠ vb := by
    rintro rfl
    omega
  have hapart := h.copied.apart.forall hvisit (List.mem_flatMap.mpr ⟨w, hw, hvb⟩) hne ht' htb
  exact hapart _ hsucc (hpage ▸ mem_touched)

/-- The child's entry for a page of the parent. -/
theorem Dup.page (hlo : userCodeVmStart ≤ va) (hlt : va < maxva)
    (hv : isValid (translate m mm.pagetable va) = true) :
    ∃ p, m.useOf p = none ∧ m'.word p = m.word (pte2pa (translate m mm.pagetable va)) ∧
      translate m' r va = pa2pte p ||| pteFlags (translate m mm.pagetable va) ||| pteV := by
  have hmax := maxva_lt
  obtain ⟨w, hw, vb, hvb, hpage⟩ := h.parent.exists_visit hlo hlt hv
  obtain ⟨hlo', hlt'⟩ := h.range hw hvb
  have hcongr : translate m mm.pagetable vb = translate m mm.pagetable va :=
    translate_congr (by omega) (by omega) hpage
  have ht : Tabled (m.newTable r) mm.pagetable vb :=
    (h.tabled_iff hlo' hlt').mpr (tabled_of_valid (by rw [hcongr, hv]))
  obtain ⟨p, hfree, -, -, hword, hentry⟩ :=
    h.copied.copy vb (List.mem_flatMap.mpr ⟨w, hw, hvb⟩) ht
  rw [h.translate_eq hlo' hlt', hcongr] at hword hentry
  rw [translate_congr (by omega) (by omega) hpage] at hentry
  have hused := h.parent.inUse va hlo hlt hv
  have hne : p ≠ r ∧ pte2pa (translate m mm.pagetable va) ≠ r := by
    constructor
    · rintro rfl
      rw [show (m.newTable p).useOf p = _ from useOf_take_self] at hfree
      cases hfree
    · intro heq
      rw [heq] at hused
      exact hused h.free
  refine ⟨p, ?_, ?_, hentry⟩
  · rwa [show (m.newTable r).useOf p = m.useOf p from useOf_take_of_ne hne.1] at hfree
  · rw [hword, word_newTable_of_ne hne.2]

theorem Dup.isCopy (hcopyable : Copyable m mm) :
    IsCopy m m' mm { mm with pagetable := r } := by
  have hfresh := h.parent.shaped.fresh_of_free h.free
  have hmax := maxva_lt
  have hchild : ∀ va, userCodeVmStart ≤ va → va < maxva → isValid (translate m' r va) = true →
      isValid (translate m mm.pagetable va) = true := by
    intro va hlo hlt hv
    by_contra hno
    have hin := inUser_of_range hlo hlt
    rw [h.copied.changes.same (update_self ..) hin (by omega),
      h.parent.shaped.tables.translate_newTable_self hfresh hin] at hv
    · cases hv
    · -- the page was mapped at a visit, so the parent has it
      rintro - ⟨vb, hvb, ht, hpage⟩
      obtain ⟨w, hw, hvb⟩ := List.mem_flatMap.mp hvb
      obtain ⟨hlo', hlt'⟩ := h.range hw hvb
      have ht := (h.tabled_iff hlo' hlt').mp ht
      have hal : vb % pgsize = 0 := by
        have hstart := ((hcopyable w hw vb hvb).2 ht).2
        obtain ⟨i, rfl, -⟩ := mem_strides.mp hvb
        rwa [Nat.add_mul_mod_self_right]
      rw [touched_of_aligned hal] at hpage
      apply hno
      rw [translate_congr (by omega) (by omega) hpage]
      exact h.present hw hvb ht
  refine ⟨rfl, ⟨rfl, rfl⟩, ?_, ?_, ?_, ?_, ?_⟩
  · intro va hlo hlt
    refine ⟨hchild va hlo hlt, fun hv => ?_⟩
    obtain ⟨p, -, -, hentry⟩ := h.page hlo hlt hv
    show isValid (translate m' r va) = true
    rw [hentry]
    exact isValid_mkPte
  · intro va hlo hlt hv
    obtain ⟨p, -, hword, hentry⟩ := h.page hlo hlt hv
    show pteFlags (translate m' r va) = _ ∧ m'.word (pte2pa (translate m' r va)) = _
    rw [hentry, pte2pa_mkPte (pteFlags_lt _), pteFlags_mkPte hv]
    exact ⟨rfl, hword⟩
  · intro va vb hlo hlt hlo' hlt' hv hv'
    obtain ⟨p, hfree, -, hentry⟩ := h.page hlo hlt (hchild va hlo hlt hv)
    show pte2pa (translate m' r va) ≠ _
    rw [hentry, pte2pa_mkPte (pteFlags_lt _)]
    rintro rfl
    exact h.parent.inUse vb hlo' hlt' hv' hfree
  · intro va
    apply h.parent.shaped.tables.entries_eq h.shaped.tables (Or.inr h.parent.root)
    intro f σ hf
    have hfr : f ≠ r := Linked.ne_of_place hf hfresh.place
    rw [h.extended.others (q := mm.pagetable) (σ := σ) _ (h.parent.ne_root h.free),
      word_newTable_of_ne hfr]
    rw [place_newTable, update_of_ne hfr, hf]
  · intro va hlo hlt hv
    have hsrc := h.parent.sources h.free va hlo hlt (by rw [h.translate_eq hlo hlt, hv])
    rw [h.translate_eq hlo hlt] at hsrc
    rw [(h.extended.apart hsrc).2, word_newTable_of_ne]
    intro heq
    have hused := h.parent.inUse va hlo hlt hv
    rw [heq] at hused
    exact hused h.free

end

end Child

/-- With enough memory `fork` copies the address space of a process exactly when it is copyable. -/
theorem forks_iff_copyable {alloc : Mem → ℕ} {K : Kernel} {m : Mem} {mm : Mm}
    (h : Parent K m mm)
    (hmem : Suffices alloc (m.used.length + 1 + 3 * (mm.mmap.flatMap strides).length)) :
    Forks alloc m mm ↔ Copyable m mm := by
  constructor
  · rintro ⟨mm', m', hrun, hcopy⟩
    obtain ⟨r, heq, hdup⟩ := post_of_ok (wp_dupMm h hmem) hrun
    cases heq
    exact hdup.copyable fun va hlo hlt hv => (hcopy.mapped va hlo hlt).mp hv
  · intro hcopyable
    obtain ⟨_, m', hrun, r, rfl, hdup⟩ := exists_of_wp (wp_error (wp_dupMm h hmem)
      fun _ hno => hno hcopyable)
    exact ⟨_, m', hrun, hdup.isCopy hcopyable⟩

instance (m : Mem) (q va : ℕ) : Decidable (Tabled m q va) :=
  inferInstanceAs (Decidable (¬ _ = none))

instance (m : Mem) (mm : Mm) : Decidable (Copyable m mm) :=
  inferInstanceAs (Decidable (∀ v ∈ mm.mmap, ∀ va ∈ strides v, _ ∧ (_ → _)))

theorem Layout.areas (L : Layout) : Areas L.mm.mmap where
  sorted := by
    have hregions := regions
    have hcode := L.code_start
    have hstack := L.stack_start
    have hheap : (heapArea L.brk).vmStart = userMemStart := rfl
    exact List.Pairwise.and (L.pairwise (by omega) (by omega)) L.sorted
  le v hv := (L.aligned hv).1
  user v hv := L.userCode_le hv

/-- The first process may fork. -/
theorem parent_first {alloc : Mem → ℕ} {B : Boot} {size : ℕ} {src : ℕ → ℕ → ℕ} {mm : Mm} {m : Mem}
    (hsize : size ≤ userMemStart - userCodeVmStart)
    (hrun : moveToUserMode alloc size src B.mem = .ok (some mm, m)) : Parent B.kernel m mm := by
  obtain ⟨r, rfl, hs, hroot, -, hpages⟩ :=
    post_of_ok (wp_moveToUserMode (sound_boot B) hsize) hrun mm rfl
  have hmax := maxva_lt
  refine ⟨hs.toShaped, hroot, (firstLayout r hsize).areas, ?_, ?_⟩
  · intro va hlo hlt hv
    obtain ⟨hpage, hpos⟩ := hpages va (inUser_of_range hlo hlt) (by omega) hv
    refine ⟨(firstLayout r hsize).code, (firstLayout r hsize).mem_mmap.mpr (Or.inl rfl), hlo, ?_⟩
    have hup := pgRoundUp_spec (a := size) (by have := regions; omega)
    show va < userCodeVmStart + pgRoundUp size
    unfold userCodeVmStart pgsize at *
    omega
  · intro va hlo hlt hv
    have hleaf := hs.leaf hroot (inUser_of_range hlo hlt) (by omega) hv
    show m.useOf (pte2pa (translate m r va)) ≠ none
    rw [hleaf]
    exact Option.some_ne_none _

theorem suffices_above (n : ℕ) : Suffices above n := fun m _ => answer_above m

/-- The test of a result of `move_to_user_mode` and of the memory after it. -/
def checkFirst (test : Mm → Mem → Bool) : Except Panic (Option Mm × Mem) → Bool
  | .ok (some mm, m) => test mm m
  | _ => false

theorem exists_of_checkFirst {test : Mm → Mem → Bool} {r : Except Panic (Option Mm × Mem)}
    (h : checkFirst test r = true) : ∃ mm m, r = .ok (some mm, m) ∧ test mm m = true := by
  rcases r with e | ⟨_ | mm, m⟩
  · cases h
  · cases h
  · exact ⟨mm, m, rfl, h⟩

def panicsWith {α : Type} (e : Panic) : Except Panic α → Bool
  | .error e' => e' = e
  | .ok _ => false

theorem eq_of_panicsWith {α : Type} {e : Panic} {r : Except Panic α} (h : panicsWith e r = true) :
    r = .error e := by
  cases r with
  | error e' => exact congrArg Except.error (of_decide_eq_true h)
  | ok a => cases h

/-- A program of one page. -/
theorem forks_onePage : ∃ mm m, moveToUserMode above 100 (fun _ _ => 7) emptyBoot.mem =
    .ok (some mm, m) ∧ Forks above m mm := by
  have hcheck : checkFirst (fun mm m => decide (Copyable m mm))
      (moveToUserMode above 100 (fun _ _ => 7) emptyBoot.mem) = true := by
    decide +kernel
  obtain ⟨mm, m, hrun, hcopyable⟩ := exists_of_checkFirst hcheck
  have hparent : Parent emptyBoot.kernel m mm := parent_first (by decide) hrun
  exact ⟨mm, m, hrun, (forks_iff_copyable hparent (suffices_above _)).mpr
    (of_decide_eq_true hcopyable)⟩

/-- A program of two pages of which only the first is there, as `move_to_user_mode` leaves it:
the second has a table and an empty entry. -/
theorem not_forks_twoPages : ∃ mm m, moveToUserMode above 5000 (fun _ _ => 7) emptyBoot.mem =
    .ok (some mm, m) ∧ Parent emptyKernel m mm ∧ (∀ n, Suffices above n) ∧
      dupMm above mm m = .error .dupNotPresent := by
  have hcheck : checkFirst (fun mm m => panicsWith .dupNotPresent (dupMm above mm m))
      (moveToUserMode above 5000 (fun _ _ => 7) emptyBoot.mem) = true := by
    decide +kernel
  obtain ⟨mm, m, hrun, hdup⟩ := exists_of_checkFirst hcheck
  have hparent : Parent emptyBoot.kernel m mm := parent_first (by decide) hrun
  exact ⟨mm, m, hrun, hparent, suffices_above, eq_of_panicsWith hdup⟩

end RiscvBm.Vm

import Mathlib.Data.List.Pairwise
import RiscvBm.Vm.Spaces

/-!
# Copying an address space (`kernel/fork.c`)

`dup_mm` makes a new table and copies the areas of the parent one by one; of an area it copies
page after page. `Copies` says what the memory looks like when the pages of a list of addresses have
been copied. It holds for every run that gets that far, also for areas that do not start at a
page boundary, where `mappages` maps two pages at a time.
-/

namespace RiscvBm.Vm

open Radix Wp Function

/-! ## §1  The functions -/

section Functions

variable (alloc : Mem → ℕ)

/-- The label `err` of `dup_vma_mmap`. -/
def dupErr (newpt newva sz : ℕ) : VmM Bool := do
  unmapValidpages alloc newpt newva (newva + sz / pgsize)
  pure false

/-- One round of `dup_vma_mmap`, with whether the loop goes on; `newva` is `va`, since both
areas start at the same address. -/
def dupPage (oldpt newpt start sz va : ℕ) : VmM Bool := do
  match ← walk alloc oldpt va false with
  | none => pure true
  | some (t, k) => do
    let m ← get
    let pte := m.word t k
    if isValid pte = false then throw .dupNotPresent
    else
      match ← getFreePage alloc (.leaf newpt (va / pgsize)) with
      | none => dupErr alloc newpt start sz
      | some mem => do
        modify fun m => m.copyPage mem (pte2pa pte)
        match ← mappages alloc newpt va pgsize mem (pteFlags pte) with
        | true => pure true
        | false => do
          freePage mem
          dupErr alloc newpt start sz

def dupLoop (oldpt newpt start sz : ℕ) : List ℕ → VmM Bool
  | [] => pure true
  | va :: l => do
    match ← dupPage alloc oldpt newpt start sz va with
    | true => dupLoop oldpt newpt start sz l
    | false => pure false

/-- The addresses `vm_start`, `vm_start + PGSIZE`, … of an area. -/
def strides (v : Vma) : List ℕ :=
  (List.range ((v.vmEnd - v.vmStart + pgsize - 1) / pgsize)).map fun i => v.vmStart + i * pgsize

def dupVmaMmap (oldpt newpt : ℕ) (v : Vma) : VmM Bool :=
  dupLoop alloc oldpt newpt v.vmStart (v.vmEnd - v.vmStart) (strides v)

/-- The loop of `dup_mmap`, which ignores what `dup_vma_mmap` returns. -/
def dupMmap (oldpt newpt : ℕ) : List Vma → List Vma → VmM (List Vma)
  | [], mmap => pure mmap
  | v :: l, mmap => do
    let _ ← dupVmaMmap alloc oldpt newpt v
    dupMmap oldpt newpt l (insertVmStruct mmap v)

/-- `dup_mm`; `none` when there is no page for the new table. -/
def dupMm (mm : Mm) : VmM (Option Mm) := do
  match ← copyKernelTbl alloc with
  | none => pure none
  | some pagetable => do
    let mmap ← dupMmap alloc mm.pagetable pagetable mm.mmap []
    pure (some { mm with pagetable := pagetable, mmap := mmap })

end Functions

/-! ## §2  `mappages` on any range -/

section MapLoop

variable {alloc : Mem → ℕ} {K : Kernel} {m : Mem} {n r a p perm : ℕ}

/-- What the loop of `mappages` does: all pages were unmapped, and are mapped now. -/
theorem wp_mapLoop (h : Shaped K m) (hr : m.IsRoot r) (ha : userCodeVmStart ≤ a) :
    wp (mapLoop alloc r perm n a p)
      (fun b m' => Shaped K m' ∧ Extends r m m' ∧ Changes r (pagesFrom a n) m m' ∧
        (b = true → ∀ i < n, a + i * pgsize < maxva ∧
          isValid (translate m r (a + i * pgsize)) = false ∧
          translate m' r (a + i * pgsize) = pa2pte (nextFrame^[i] p) ||| perm ||| pteV))
      (fun _ => True) m := by
  induction n generalizing m a p with
  | zero =>
    refine wp_pure ⟨h, Extends.refl r m, Changes.refl r _ m, ?_⟩
    intro _ i hi
    exact absurd hi (Nat.not_lt_zero i)
  | succ n ih =>
    refine wp_mapLoop_succ (shaped_tableInv alloc K) ha h hr (fun _ => trivial) ?_ ?_
    · intro o m₁ h₁ hw _
      exact ⟨h₁, hw.toExtends, ⟨fun hq => hw.place hq, fun hq hvb _ _ => hw.same hq hvb⟩,
        fun hb => by cases hb⟩
    · intro t m₁ h₁ hw ht hv
      have hlt39 := Nat.lt_trans hw.lt maxva_lt
      have hin := inUser_of_range ha hw.lt
      have hmaps : Maps m₁ (m₁.setWord t (px 0 a) (pa2pte p ||| perm ||| pteV)) r a
          (pa2pte p ||| perm ||| pteV) := h₁.tables.maps_setLeaf ht hlt39
      have hext₂ := hw.toExtends.trans (Extends.setWord (k := px 0 a)
        (w := pa2pte p ||| perm ||| pteV) ht)
      have hch₂ : Changes r {a / pgsize} m (m₁.setWord t (px 0 a) (pa2pte p ||| perm ||| pteV)) :=
        ⟨fun hq => hext₂.place hq, fun hq hvb hlt' hS => by
          rw [hmaps (hw.place hq) hvb hlt', if_neg fun hpage => hS hpage.1 hpage.2,
            hw.same hq hvb]⟩
      refine wp_post (ih (h₁.setLeaf ht) (hext₂.place hr) (by omega)) ?_
      rintro b m₃ ⟨h₃, hext₃, hch₃, hnew⟩
      have hsub : pagesFrom (a + pgsize) n ⊆ pagesFrom a (n + 1) := by
        rintro v ⟨hlo, hhi⟩
        rw [page_succ] at hlo hhi
        exact ⟨by omega, by omega⟩
      have hone : ({a / pgsize} : Set ℕ) ⊆ pagesFrom a (n + 1) := by
        rintro v rfl
        exact ⟨Nat.le_refl _, by omega⟩
      refine ⟨h₃, hext₂.trans hext₃, (hch₂.mono hone).trans (hch₃.mono hsub), ?_⟩
      intro hb i hi
      cases i with
      | zero =>
        rw [Nat.zero_mul, Nat.add_zero]
        refine ⟨hw.lt, hv, ?_⟩
        -- the rest of the loop is about later pages
        rw [hch₃.same (hext₂.place hr) hin hlt39, hmaps (hw.place hr) hin hlt39,
          if_pos ⟨rfl, rfl⟩, iterate_zero_apply]
        rintro - ⟨hlo, -⟩
        rw [page_succ] at hlo
        omega
      | succ i =>
        obtain ⟨hlt', hv', hnew'⟩ := hnew hb i (by omega)
        have haddr : a + pgsize + i * pgsize = a + (i + 1) * pgsize := by
          rw [Nat.succ_mul]
          omega
        rw [haddr] at hlt' hv' hnew'
        refine ⟨hlt', ?_, ?_⟩
        · rw [← hch₂.same hr (inUser_of_range (by omega) hlt') (Nat.lt_trans hlt' maxva_lt)]
          · exact hv'
          · intro _ hpage
            have hpage : (a + (i + 1) * pgsize) / pgsize = a / pgsize := hpage
            rw [page_add] at hpage
            omega
        · rw [hnew', iterate_succ_apply]

theorem wp_mapLoop_one {N : ℕ} (hmem : Suffices alloc N) (hN : m.used.length + 2 ≤ N)
    (h : Shaped K m) (hr : m.IsRoot r) (ha : userCodeVmStart ≤ a) (hlt : a < maxva)
    (hv : isValid (translate m r a) = false) :
    wp (mapLoop alloc r perm 1 a p) (fun b m' => b = true ∧ m'.used.length ≤ m.used.length + 2)
      noError m := by
  refine wp_mapLoop_succ (shaped_tableInv alloc K) ha h hr
    (fun hge => absurd hlt (Nat.not_lt.mpr hge)) ?_ ?_
  · intro o m₁ _ hw hwhy
    rw [hv] at hwhy
    exact absurd (hwhy.resolve_right (by simp)) (hw.found hmem hN rfl)
  · exact fun t m₁ _ hw _ _ => wp_pure ⟨rfl, hw.count⟩

end MapLoop

/-! ## §3  What has been copied -/

/-- There is a bottom table for `va`. -/
def Tabled (m : Mem) (q va : ℕ) : Prop := descend next m.word q (vpath va) ≠ none

/-- The pages that `mappages(newpt, va, PGSIZE, …)` maps: two unless `va` is aligned. -/
def touched (va : ℕ) : Set ℕ := pagesFrom va ((va + pgsize - 1) / pgsize - va / pgsize + 1)

/-- The pages at the addresses `l` of the table at `q` have been copied to the one at `r`. -/
structure Copied (q r : ℕ) (l : List ℕ) (m m' : Mem) : Prop where
  below : ∀ va ∈ l, va < maxva
  present : ∀ va ∈ l, Tabled m q va → isValid (translate m q va) = true
  apart : l.Pairwise fun va vb => Tabled m q va → Tabled m q vb →
    ∀ v ∈ touched va, v ∉ touched vb
  fresh : ∀ va ∈ l, Tabled m q va → ∀ v ∈ touched va, v * pgsize < maxva ∧
    isValid (translate m r (v * pgsize)) = false ∧ isValid (translate m' r (v * pgsize)) = true
  copy : ∀ va ∈ l, Tabled m q va → ∃ p, m.useOf p = none ∧ m'.useOf p ≠ none ∧
    m'.place p = none ∧ m'.word p = m.word (pte2pa (translate m q va)) ∧
      translate m' r va = pa2pte p ||| pteFlags (translate m q va) ||| pteV
  changes : Changes r {v | ∃ va ∈ l, Tabled m q va ∧ v ∈ touched va} m m'

/-- A page in use that is none of the tables of `r`. -/
def Apart (m : Mem) (r f : ℕ) : Prop := m.useOf f ≠ none ∧ ∀ σ, m.place f ≠ some (r, σ)

/-- The pages to be copied to the table at `r` are. -/
def Sources (m : Mem) (q r : ℕ) : Prop :=
  ∀ va, userCodeVmStart ≤ va → va < maxva → isValid (translate m q va) = true →
    Apart m r (pte2pa (translate m q va))

/-- What is needed to copy the table at `q` to the one at `r`. -/
structure Copying (K : Kernel) (m : Mem) (q r : ℕ) : Prop where
  shaped : Shaped K m
  source : m.IsRoot q
  target : m.IsRoot r
  ne : q ≠ r
  pages : Sources m q r

section Copied

variable {K : Kernel} {m m₁ m' : Mem} {q r va vb v f : ℕ} {l l' : List ℕ}

theorem tabled_of_valid (h : isValid (translate m q va) = true) : Tabled m q va := by
  intro hnone
  rw [translate, view_of_none hnone] at h
  cases h

theorem mem_touched : va / pgsize ∈ touched va := ⟨Nat.le_refl _, by omega⟩

theorem touched_of_aligned (h : va % pgsize = 0) : touched va = {va / pgsize} := by
  ext v
  simp only [touched, pagesFrom, spare_aligned h, Set.mem_ofPred_eq, Set.mem_singleton_iff]
  omega

/-- An unaligned address takes the next page too. -/
theorem mem_touched_succ (h : va % pgsize ≠ 0) : va / pgsize + 1 ∈ touched va := by
  refine ⟨Nat.le_succ _, ?_⟩
  unfold pgsize at *
  omega

theorem userCode_le_of_touched (hva : userCodeVmStart ≤ va) (hv : v ∈ touched va) :
    userCodeVmStart ≤ v * pgsize := by
  have hlo := hv.1
  unfold userCodeVmStart at *
  unfold pgsize at *
  omega

theorem Extends.apart (hext : Extends r m m') (h : Apart m r f) :
    Apart m' r f ∧ m'.word f = m.word f := by
  obtain ⟨hused, hplace⟩ := h
  have hused' := hext.inUse hused
  cases hf : m.place f with
  | none =>
    obtain ⟨hplace', hword⟩ := hext.data hused hf
    refine ⟨⟨hused', fun σ hσ => ?_⟩, hword⟩
    rw [hplace'] at hσ
    cases hσ
  | some x =>
    have hne : x.1 ≠ r := by
      rintro rfl
      exact hplace x.2 hf
    refine ⟨⟨hused', fun σ hσ => ?_⟩, hext.others hf hne⟩
    rw [hext.place hf] at hσ
    exact hne (congrArg Prod.fst (Option.some.inj hσ))

/-- The table that is copied from stays as it is. -/
theorem Copying.same (h : Copying K m q r) (hext : Extends r m m') (hva : InUser va) :
    (Tabled m' q va ↔ Tabled m q va) ∧ translate m' q va = translate m q va := by
  refine ⟨?_, h.shaped.tables.translate_other hext h.source h.ne hva⟩
  unfold Tabled
  rw [h.shaped.tables.descend_other hext h.source h.ne (ownPath_vpath hva)
    (Nat.le_of_eq (length_vpath va))]

theorem Copying.extends (h : Copying K m q r) (h' : Shaped K m') (hext : Extends r m m') :
    Copying K m' q r := by
  refine ⟨h', hext.place h.source, hext.place h.target, h.ne, ?_⟩
  intro va hva hlt hv
  rw [(h.same hext (inUser_of_range hva hlt)).2] at hv ⊢
  exact (hext.apart (h.pages va hva hlt hv)).1

theorem Copied.nil (q r : ℕ) (m : Mem) : Copied q r [] m m where
  below := fun _ h => (List.not_mem_nil h).elim
  present := fun _ h => (List.not_mem_nil h).elim
  apart := List.Pairwise.nil
  fresh := fun _ h => (List.not_mem_nil h).elim
  copy := fun _ h => (List.not_mem_nil h).elim
  changes := Changes.refl ..

/-- No table for the address: it is skipped. -/
theorem Copied.skip (hlt : va < maxva) (h : ¬ Tabled m q va) : Copied q r [va] m m where
  below := by simpa using hlt
  present := by simp [h]
  apart := List.pairwise_singleton ..
  fresh := by simp [h]
  copy := by simp [h]
  changes := Changes.refl ..

/-- One list after the other: what the first has mapped the second finds mapped, so the two
are about different pages. -/
theorem Copied.append (h : Copied q r l m m₁) (h' : Copied q r l' m₁ m')
    (hc : Copying K m q r) (hext : Extends r m m₁) (hext' : Extends r m₁ m')
    (hl : ∀ va ∈ l ++ l', userCodeVmStart ≤ va) : Copied q r (l ++ l') m m' := by
  have hbelow : ∀ va ∈ l ++ l', va < maxva := by
    intro va hva
    rcases List.mem_append.mp hva with hva | hva
    · exact h.below va hva
    · exact h'.below va hva
  have hin : ∀ {va}, va ∈ l ++ l' → InUser va :=
    fun hva => inUser_of_range (hl _ hva) (hbelow _ hva)
  have htab : ∀ {va}, va ∈ l' → (Tabled m₁ q va ↔ Tabled m q va) :=
    fun hva => (hc.same hext (hin (List.mem_append_right l hva))).1
  have htrans : ∀ {va}, va ∈ l' → translate m₁ q va = translate m q va :=
    fun hva => (hc.same hext (hin (List.mem_append_right l hva))).2
  have hr₁ := hext.place hc.target
  -- the address of a page that was touched
  have hpage : ∀ {va v}, va ∈ l ++ l' → v ∈ touched va → v * pgsize < maxva →
      InUser (v * pgsize) ∧ v * pgsize < 2 ^ 39 := by
    intro va v hva hv hlt
    exact ⟨inUser_of_range (userCode_le_of_touched (hl va hva) hv) hlt, Nat.lt_trans hlt maxva_lt⟩
  have hdisj : ∀ {va vb}, va ∈ l → vb ∈ l' → Tabled m q va → Tabled m q vb →
      ∀ v ∈ touched va, v ∉ touched vb := by
    intro va vb hva hvb ht ht' v hv hv'
    have hvalid := (h.fresh va hva ht v hv).2.2
    rw [(h'.fresh vb hvb ((htab hvb).mpr ht') v hv').2.1] at hvalid
    cases hvalid
  have hdiv : ∀ v, v * pgsize / pgsize = v := fun v => Nat.mul_div_cancel v (by decide)
  refine ⟨hbelow, ?_, ?_, ?_, ?_, ?_⟩
  · intro va hva ht
    rcases List.mem_append.mp hva with hva | hva
    · exact h.present va hva ht
    · rw [← htrans hva]
      exact h'.present va hva ((htab hva).mpr ht)
  · rw [List.pairwise_append]
    refine ⟨h.apart, ?_, fun va hva vb hvb => hdisj hva hvb⟩
    apply h'.apart.imp_of_mem
    intro va vb hva hvb hR ht ht'
    exact hR ((htab hva).mpr ht) ((htab hvb).mpr ht')
  · intro va hva ht v hv
    rcases List.mem_append.mp hva with hva' | hva'
    · obtain ⟨hlt, hno, hyes⟩ := h.fresh va hva' ht v hv
      refine ⟨hlt, hno, ?_⟩
      obtain ⟨hin', hlt'⟩ := hpage hva hv hlt
      rw [h'.changes.same hr₁ hin' hlt', hyes]
      rintro - ⟨vb, hvb, ht', hv'⟩
      rw [hdiv] at hv'
      exact hdisj hva' hvb ht ((htab hvb).mp ht') v hv hv'
    · obtain ⟨hlt, hno, hyes⟩ := h'.fresh va hva' ((htab hva').mpr ht) v hv
      refine ⟨hlt, ?_, hyes⟩
      obtain ⟨hin', hlt'⟩ := hpage hva hv hlt
      rw [← h.changes.same hc.target hin' hlt', hno]
      rintro - ⟨vb, hvb, ht', hv'⟩
      rw [hdiv] at hv'
      exact hdisj hvb hva' ht' ht v hv' hv
  · intro va hva ht
    rcases List.mem_append.mp hva with hva' | hva'
    · obtain ⟨p, hfree, hused, hplace, hword, hentry⟩ := h.copy va hva' ht
      obtain ⟨hplace', hword'⟩ := hext'.data hused hplace
      refine ⟨p, hfree, hext'.inUse hused, hplace', hword'.trans hword, ?_⟩
      rw [h'.changes.same hr₁ (hin hva) (Nat.lt_trans (h.below va hva') maxva_lt), hentry]
      rintro - ⟨vb, hvb, ht', hv'⟩
      exact hdisj hva' hvb ht ((htab hvb).mp ht') _ mem_touched hv'
    · obtain ⟨p, hfree, hused, hplace, hword, hentry⟩ := h'.copy va hva' ((htab hva').mpr ht)
      rw [htrans hva'] at hword hentry
      refine ⟨p, ?_, hused, hplace, ?_, hentry⟩
      · by_contra hne
        exact hext.inUse hne hfree
      · have hv := h'.present va hva' ((htab hva').mpr ht)
        rw [htrans hva'] at hv
        rw [hword, (hext.apart (hc.pages va (hl va hva) (h'.below va hva') hv)).2]
  · apply (h.changes.mono _).trans (h'.changes.mono _)
    · rintro v ⟨va, hva, ht, hv⟩
      exact ⟨va, List.mem_append_left l' hva, ht, hv⟩
    · rintro v ⟨va, hva, ht, hv⟩
      exact ⟨va, List.mem_append_right l hva, (htab hva).mp ht, hv⟩

end Copied

/-! ## §4  `dup_vma_mmap` -/

/-- What is asked of the addresses that are still to be copied. -/
structure Ready (m : Mem) (q r : ℕ) (l : List ℕ) : Prop where
  range : ∀ va ∈ l, userCodeVmStart ≤ va ∧ va < maxva
  present : ∀ va ∈ l, Tabled m q va → isValid (translate m q va) = true ∧ va % pgsize = 0
  sorted : l.Pairwise (· < ·)
  empty : ∀ va ∈ l, Tabled m q va → isValid (translate m r va) = false

/-- The addresses can be copied, with memory for a page each and the tables above it. -/
structure Enough (alloc : Mem → ℕ) (N : ℕ) (m : Mem) (q r : ℕ) (l : List ℕ) : Prop where
  memory : Suffices alloc N
  room : m.used.length + 3 * l.length ≤ N
  ready : Ready m q r l

/-- What a part of the copying leaves. -/
structure Progress (alloc : Mem → ℕ) (K : Kernel) (N q r : ℕ) (l : List ℕ) (m m' : Mem) :
    Prop where
  shaped : Shaped K m'
  extended : Extends r m m'
  copied : Copied q r l m m'
  count : Enough alloc N m q r l → m'.used.length ≤ m.used.length + 3 * l.length

section Dup

variable {alloc : Mem → ℕ} {K : Kernel} {m m₁ m' : Mem} {q r va start sz p src N : ℕ}
  {l l' : List ℕ}

theorem Ready.left (h : Ready m q r (l ++ l')) : Ready m q r l where
  range va hva := h.range va (List.mem_append_left l' hva)
  present va hva := h.present va (List.mem_append_left l' hva)
  sorted := (List.pairwise_append.mp h.sorted).1
  empty va hva := h.empty va (List.mem_append_left l' hva)

/-- The first part has been copied: the second is as ready as before. -/
theorem Ready.right (h : Ready m q r (l ++ l')) (hc : Copying K m q r) (hext : Extends r m m₁)
    (hcopy : Copied q r l m m₁) : Ready m₁ q r l' := by
  have hmem : ∀ {va}, va ∈ l' → va ∈ l ++ l' := fun hva => List.mem_append_right l hva
  have hin : ∀ {va}, va ∈ l' → InUser va := fun hva =>
    inUser_of_range (h.range _ (hmem hva)).1 (h.range _ (hmem hva)).2
  have htab : ∀ {va}, va ∈ l' → Tabled m₁ q va → Tabled m q va := fun hva ht =>
    (hc.same hext (hin hva)).1.mp ht
  refine ⟨fun va hva => h.range va (hmem hva), ?_, (List.pairwise_append.mp h.sorted).2.1, ?_⟩
  · intro va hva ht
    rw [(hc.same hext (hin hva)).2]
    exact h.present va (hmem hva) (htab hva ht)
  · intro va hva ht
    have ht := htab hva ht
    rw [hcopy.changes.same hc.target (hin hva) (Nat.lt_trans (h.range va (hmem hva)).2 maxva_lt)]
    · exact h.empty va (hmem hva) ht
    · -- a page that was copied belongs to a smaller address
      rintro - ⟨vb, hvb, ht', hpage⟩
      have hal := (h.present va (hmem hva) ht).2
      have hal' := (h.present vb (List.mem_append_left l' hvb) ht').2
      have hlt := (List.pairwise_append.mp h.sorted).2.2 vb hvb va hva
      rw [touched_of_aligned hal'] at hpage
      have hpage : va / pgsize = vb / pgsize := hpage
      unfold pgsize at *
      omega

theorem Enough.left (h : Enough alloc N m q r (l ++ l')) : Enough alloc N m q r l := by
  have hroom := h.room
  rw [List.length_append] at hroom
  exact ⟨h.memory, by omega, h.ready.left⟩

theorem Enough.right (h : Enough alloc N m q r (l ++ l')) (hc : Copying K m q r)
    (hp : Progress alloc K N q r l m m₁) : Enough alloc N m₁ q r l' := by
  have hroom := h.room
  have hcount := hp.count h.left
  rw [List.length_append] at hroom
  exact ⟨h.memory, by omega, h.ready.right hc hp.extended hp.copied⟩

theorem Progress.append (h : Progress alloc K N q r l m m₁) (h' : Progress alloc K N q r l' m₁ m')
    (hc : Copying K m q r) (hl : ∀ va ∈ l ++ l', userCodeVmStart ≤ va) :
    Progress alloc K N q r (l ++ l') m m' where
  shaped := h'.shaped
  extended := h.extended.trans h'.extended
  copied := h.copied.append h'.copied hc h.extended h'.extended hl
  count henough := by
    have hcount := h.count henough.left
    have hcount' := h'.count (henough.right hc h)
    rw [List.length_append]
    omega

theorem Copying.progress (hc : Copying K m q r) : Progress alloc K N q r [] m m :=
  ⟨hc.shaped, Extends.refl r m, Copied.nil q r m, fun _ => Nat.le_refl _⟩

/-- The label `err` asks for so many pages that it ends in a panic. -/
theorem wp_dupErr (hstart : userCodeVmStart ≤ start) :
    wp (dupErr alloc r start sz) (fun _ _ => False) (fun _ => True) m := by
  unfold dupErr
  apply wp_bind (Q := fun _ _ => False)
  · unfold unmapValidpages
    apply wp_ite
    · exact fun _ => wp_throw trivial
    · intro _
      apply wp_forRange_never (j := maxva / pgsize)
      · unfold userCodeVmStart maxva pgsize at *
        omega
      · intro m'
        unfold unmapValid
        apply wp_bind (Q := fun _ _ => False)
        · apply wp_walk_false
          · intro hlt
            unfold maxva pgsize at *
            omega
          · exact fun _ => trivial
        · exact fun _ _ hfalse => hfalse.elim
  · exact fun _ _ hfalse => hfalse.elim

/-- A page is taken for `u` and filled. -/
structure Filled (K : Kernel) (r p : ℕ) (u : Use) (page : ℕ → ℕ) (m m' : Mem) : Prop where
  shaped : Shaped K m'
  extended : Extends r m m'
  same : ∀ {q vb}, m.IsRoot q → InUser vb → translate m' q vb = translate m q vb
  useOf : m'.useOf p = some u
  place : m'.place p = none
  word : m'.word p = page
  count : m'.used.length = m.used.length + 1

theorem Shaped.filled {u : Use} (page : ℕ → ℕ) (h : Shaped K m) (hp : m.useOf p = none) (r : ℕ) :
    Filled K r p u page m ((m.take p u).setPage p page) := by
  have hfresh := h.fresh_of_free hp
  refine ⟨(h.take hp).setPage ⟨hfresh.place, hfresh.shared⟩, ?_,
    fun hq hvb => h.tables.translate_setPage hfresh hq hvb, useOf_take_self, hfresh.place,
    fill_same .., rfl⟩
  refine ⟨fun hf => hf, fun hq => useOf_take_of_some hp hq, ?_,
    fun hf _ => fill_of_ne _ _ (Linked.ne_of_place hf hfresh.place), rfl⟩
  intro f hf hnone
  refine ⟨hnone, fill_of_ne _ _ ?_⟩
  rintro rfl
  exact hf hp

/-- `mappages` of the page `p` at `va`, aligned or not. -/
theorem wp_mappages_touched {perm : ℕ} (h : Shaped K m) (hr : m.IsRoot r)
    (hva : userCodeVmStart ≤ va) :
    wp (mappages alloc r va pgsize p perm)
      (fun b m' => Shaped K m' ∧ Extends r m m' ∧ Changes r (touched va) m m' ∧
        (b = true → va < maxva ∧ translate m' r va = pa2pte p ||| perm ||| pteV ∧
          ∀ v ∈ touched va, v * pgsize < maxva ∧ isValid (translate m r (v * pgsize)) = false ∧
            isValid (translate m' r (v * pgsize)) = true))
      (fun _ => True) m := by
  unfold mappages
  rw [if_neg (by decide)]
  apply wp_post (wp_mapLoop h hr (userCode_le_pgRoundDown hva))
  rintro b m' ⟨h', hext, hch, hnew⟩
  have hset : pagesFrom (pgRoundDown va) ((va + pgsize - 1) / pgsize - va / pgsize + 1) =
      touched va := by
    unfold touched pagesFrom
    rw [pgRoundDown_div]
  rw [hset] at hch
  refine ⟨h', hext, hch, ?_⟩
  intro hb
  obtain ⟨hlt, -, hentry⟩ := hnew hb 0 (by omega)
  rw [Nat.zero_mul, Nat.add_zero] at hlt hentry
  have hlt : va < maxva := by
    have hdown := pgRoundDown_mod va
    unfold pgRoundDown maxva pgsize at *
    omega
  have hlt39 := Nat.lt_trans hlt maxva_lt
  refine ⟨hlt, ?_, ?_⟩
  · rw [translate_congr hlt39 (by unfold pgRoundDown pgsize at *; omega) (pgRoundDown_div va).symm]
    exact hentry
  · rintro v ⟨hlo, hhi⟩
    obtain ⟨hlt', hno, hyes⟩ := hnew hb (v - va / pgsize) (by omega)
    have haddr : pgRoundDown va + (v - va / pgsize) * pgsize = v * pgsize := by
      unfold pgRoundDown
      rw [← Nat.add_mul]
      congr 1
      omega
    rw [haddr] at hlt' hno hyes
    exact ⟨hlt', hno, by rw [hyes]; exact isValid_mkPte⟩

/-- The page of `va` was copied to a page that was mapped in its place. -/
theorem Filled.copied {m₂ m₃ : Mem}
    (hfill : Filled K r p (.leaf r (va / pgsize)) (m.word (pte2pa (translate m q va))) m m₂)
    (hr : m.IsRoot r) (hva : userCodeVmStart ≤ va) (hlt : va < maxva)
    (htab : Tabled m q va) (hv : isValid (translate m q va) = true) (hp : m.useOf p = none)
    (hext : Extends r m₂ m₃) (hch : Changes r (touched va) m₂ m₃)
    (hentry : translate m₃ r va = pa2pte p ||| pteFlags (translate m q va) ||| pteV)
    (hpages : ∀ v ∈ touched va, v * pgsize < maxva ∧ isValid (translate m₂ r (v * pgsize)) = false ∧
      isValid (translate m₃ r (v * pgsize)) = true) : Copied q r [va] m m₃ := by
  have hused : m₂.useOf p ≠ none := by
    rw [hfill.useOf]
    exact Option.some_ne_none _
  obtain ⟨hplace, hword⟩ := hext.data hused hfill.place
  obtain hused' := hext.used hfill.useOf
  refine ⟨?_, ?_, List.pairwise_singleton .., ?_, ?_, ?_⟩
  · intro vb hvb
    rwa [List.mem_singleton.mp hvb]
  · intro vb hvb _
    rwa [List.mem_singleton.mp hvb]
  · intro vb hvb _ v hv'
    rw [List.mem_singleton.mp hvb] at hv'
    obtain ⟨hlt', hno, hyes⟩ := hpages v hv'
    rw [hfill.same hr (inUser_of_range (userCode_le_of_touched hva hv') hlt')] at hno
    exact ⟨hlt', hno, hyes⟩
  · intro vb hvb _
    rw [List.mem_singleton.mp hvb]
    exact ⟨p, hp, by rw [hused']; exact Option.some_ne_none _, hplace, hword.trans hfill.word,
      hentry⟩
  · refine ⟨fun hq => hext.place (hfill.extended.place hq), ?_⟩
    intro q' vb hq' hvb hlt' hS
    rw [hch.same (hfill.extended.place hq') hvb hlt', hfill.same hq' hvb]
    intro hqr hmem
    exact hS hqr ⟨va, List.mem_singleton.mpr rfl, htab, hmem⟩

/-- One page; with enough memory nothing fails. -/
theorem wp_dupPage (hc : Copying K m q r) (hstart : userCodeVmStart ≤ start)
    (hva : userCodeVmStart ≤ va) :
    wp (dupPage alloc q r start sz va) (fun b m' => b = true ∧ Progress alloc K N q r [va] m m')
      (fun _ => ¬ Enough alloc N m q r [va]) m := by
  have h := hc.shaped
  have hself : va ∈ [va] := List.mem_singleton.mpr rfl
  unfold dupPage
  apply wp_bind (wp_walk_false (Q := fun o m' => m' = m ∧ va < maxva ∧
    o = (descend next m.word q (vpath va)).map fun t => (t, px 0 va))
    (fun hlt => ⟨rfl, hlt, rfl⟩) fun hge hen => absurd (hen.ready.range va hself).2
      (not_lt.mpr hge))
  rintro o m' ⟨rfl, hlt, rfl⟩
  have hin := inUser_of_range hva hlt
  cases hd : descend next m'.word q (vpath va) with
  | none =>
    exact wp_pure ⟨rfl, h, Extends.refl r m', Copied.skip hlt fun ht => ht hd,
      fun _ => Nat.le_add_right ..⟩
  | some t =>
    have htab : Tabled m' q va := by
      rw [Tabled, hd]
      exact Option.some_ne_none t
    have ht := h.tables.linked.place_of_descend hc.source (ownPath_vpath hin)
      (Nat.le_of_eq (length_vpath va)) hd
    have htrans := h.tables.translate_of_place ht
    apply wp_get
    dsimp only
    rw [← htrans]
    apply wp_ite
    · intro hv
      refine wp_throw fun hen => ?_
      rw [(hen.ready.present va hself htab).1] at hv
      cases hv
    intro hv
    have hv : isValid (translate m' q va) = true := Bool.eq_true_of_not_eq_false hv
    apply wp_bind (wp_getFreePage_cases _)
    rintro o m₁ (⟨rfl, rfl, hno⟩ | ⟨p, rfl, hp, rfl⟩)
    · exact wp_mono (wp_dupErr hstart) (fun _ _ hfalse => hfalse.elim) fun _ _ hen =>
        hno (hen.memory m' (Nat.lt_of_lt_of_le (by simp) hen.room))
    apply wp_modify_bind
    rw [copyPage_eq]
    change wp _ _ _ ((m'.take p _).setPage p (m'.word _))
    have hfill := h.filled (u := .leaf r (va / pgsize))
      (m'.word (pte2pa (translate m' q va))) hp.2.2 r
    generalize Mem.setPage .. = m₂ at hfill ⊢
    have hr := hfill.extended.place hc.target
    -- one page, which is empty
    have hone : Enough alloc N m' q r [va] →
        wp (mappages alloc r va pgsize p (pteFlags (translate m' q va)))
          (fun b m₃ => b = true ∧ m₃.used.length ≤ m'.used.length + 3) noError m₂ := by
      intro hen
      have hempty := hen.ready.empty va hself htab
      rw [← hfill.same hc.target hin] at hempty
      have hcount := hfill.count
      have hroom : m'.used.length + 3 * 1 ≤ N := hen.room
      rw [mappages_one (hen.ready.present va hself htab).2]
      apply wp_post (wp_mapLoop_one hen.memory (by omega) hfill.shaped hr hva hlt hempty)
      rintro b m₃ ⟨hb, hcount'⟩
      exact ⟨hb, by omega⟩
    apply wp_bind (wp_error (wp_and (wp_mappages_touched hfill.shaped hr hva) (wp_when hone))
      fun _ he => he.2)
    rintro b m₃ ⟨⟨h₃, hext, hch, hnew⟩, hok⟩
    cases b with
    | false =>
      refine wp_bind (wp_modify (R := fun _ _ => True) trivial) fun _ _ _ =>
        wp_mono (wp_dupErr hstart) (fun _ _ hfalse => hfalse.elim) fun _ _ hen => ?_
      cases (hok hen).1
    | true =>
      obtain ⟨-, hentry, hpages⟩ := hnew rfl
      exact wp_pure ⟨rfl, h₃, hfill.extended.trans hext,
        hfill.copied hc.target hva hlt htab hv hp.2.2 hext hch hentry hpages,
        fun hen => (hok hen).2⟩

theorem wp_dupLoop (hc : Copying K m q r) (hstart : userCodeVmStart ≤ start)
    (hl : ∀ va ∈ l, userCodeVmStart ≤ va) :
    wp (dupLoop alloc q r start sz l) (fun b m' => b = true ∧ Progress alloc K N q r l m m')
      (fun _ => ¬ Enough alloc N m q r l) m := by
  induction l generalizing m with
  | nil => exact wp_pure ⟨rfl, hc.progress⟩
  | cons va l ih =>
    unfold dupLoop
    apply wp_bind (wp_error (wp_dupPage hc hstart (hl va List.mem_cons_self))
      fun _ hno hen => hno (Enough.left (l := [va]) hen))
    rintro _ m₁ ⟨rfl, hp⟩
    apply wp_mono (ih (hc.extends hp.shaped hp.extended)
      fun vb hvb => hl vb (List.mem_cons_of_mem va hvb))
    · exact fun b m₂ hpost => ⟨hpost.1, hp.append hpost.2 hc hl⟩
    · exact fun _ hno hen => hno (Enough.right (l := [va]) hen hc hp)

theorem mem_strides {v : Vma} : va ∈ strides v ↔
    ∃ i, va = v.vmStart + i * pgsize ∧ va < v.vmEnd := by
  simp only [strides, List.mem_map, List.mem_range]
  constructor
  · rintro ⟨i, hi, rfl⟩
    refine ⟨i, rfl, ?_⟩
    unfold pgsize at *
    omega
  · rintro ⟨i, rfl, hlt⟩
    refine ⟨i, ?_, rfl⟩
    unfold pgsize at *
    omega

theorem le_of_mem_strides {v : Vma} (hva : va ∈ strides v) :
    v.vmStart ≤ va ∧ va < v.vmEnd := by
  obtain ⟨i, rfl, hlt⟩ := mem_strides.mp hva
  exact ⟨Nat.le_add_right .., hlt⟩

theorem wp_dupMmap {vs mmap : List Vma} (hc : Copying K m q r)
    (hvs : ∀ v ∈ vs, userCodeVmStart ≤ v.vmStart) :
    wp (dupMmap alloc q r vs mmap)
      (fun mmap' m' => mmap' = vs.foldl insertVmStruct mmap ∧
        Progress alloc K N q r (vs.flatMap strides) m m')
      (fun _ => ¬ Enough alloc N m q r (vs.flatMap strides)) m := by
  induction vs generalizing m mmap with
  | nil => exact wp_pure ⟨rfl, hc.progress⟩
  | cons v vs ih =>
    have hstart := hvs v List.mem_cons_self
    have hstrides : ∀ va ∈ strides v, userCodeVmStart ≤ va :=
      fun va hva => Nat.le_trans hstart (le_of_mem_strides hva).1
    have hrest : ∀ w ∈ vs, userCodeVmStart ≤ w.vmStart :=
      fun w hw => hvs w (List.mem_cons_of_mem v hw)
    unfold dupMmap dupVmaMmap
    rw [List.flatMap_cons]
    apply wp_bind (wp_error (wp_dupLoop hc hstart hstrides) fun _ hno hen => hno hen.left)
    rintro _ m₁ ⟨-, hp⟩
    apply wp_mono (ih (hc.extends hp.shaped hp.extended) hrest)
    · rintro mmap' m₂ ⟨hmmap, hp'⟩
      refine ⟨hmmap, hp.append hp' hc ?_⟩
      intro va hva
      rcases List.mem_append.mp hva with hva | hva
      · exact hstrides va hva
      · obtain ⟨w, hw, hva⟩ := List.mem_flatMap.mp hva
        exact Nat.le_trans (hrest w hw) (le_of_mem_strides hva).1
    · exact fun _ hno hen => hno (hen.right hc hp)

end Dup

end RiscvBm.Vm

import RiscvBm.Vm.Sound
import RiscvBm.Vm.Vma

/-!
# What the functions on address spaces do to the tables

One lemma for each function of `mmap.c`, `trap.c` and `vm.c` that a process runs on its own
table: the memory stays sound, and only translations of that table change, and only those of
the pages named in the lemma (`Changes`).
-/

namespace RiscvBm.Vm

open Radix Wp Function

/-! ## §1  Changes of one table -/

/-- Only the pages `S` of the table at `r` may be translated differently. -/
structure Changes (r : ℕ) (S : Set ℕ) (m m' : Mem) : Prop where
  root : ∀ {q}, m.IsRoot q → m'.IsRoot q
  same : ∀ {q vb}, m.IsRoot q → InUser vb → vb < 2 ^ 39 →
    (q = r → vb / pgsize ∉ S) → translate m' q vb = translate m q vb

/-- What is in use stays so. -/
def KeepsUse (m m' : Mem) : Prop := ∀ ⦃f u⦄, m.useOf f = some u → m'.useOf f = some u

section Changes

variable {K : Kernel} {m m' m'' : Mem} {r p va w : ℕ} {u : Use} {S T : Set ℕ}

theorem Changes.refl (r : ℕ) (S : Set ℕ) (m : Mem) : Changes r S m m :=
  ⟨fun h => h, fun _ _ _ _ => rfl⟩

theorem Changes.trans (h : Changes r S m m') (h' : Changes r S m' m'') : Changes r S m m'' where
  root hq := h'.root (h.root hq)
  same hq hvb hlt hS := (h'.same (h.root hq) hvb hlt hS).trans (h.same hq hvb hlt hS)

theorem Changes.mono (h : Changes r S m m') (hST : S ⊆ T) : Changes r T m m' :=
  ⟨h.root, fun hq hvb hlt hT => h.same hq hvb hlt fun hqr hmem => hT hqr (hST hmem)⟩

theorem Maps.changes (h : Maps m m' r va w) (hext : Extends r m m') :
    Changes r {va / pgsize} m m' where
  root hq := hext.place hq
  same hq hvb hlt hS := by
    rw [h hq hvb hlt, if_neg]
    rintro ⟨hqr, hpage⟩
    exact hS hqr hpage

theorem Changes.tick (r : ℕ) (S : Set ℕ) (m : Mem) : Changes r S m m.tick :=
  ⟨fun h => h, fun _ _ _ _ => rfl⟩

theorem Changes.take (r : ℕ) (S : Set ℕ) (m : Mem) : Changes r S m (m.take p u) :=
  ⟨fun h => h, fun _ _ _ _ => rfl⟩

theorem Sound.changes_setPage {page : ℕ → ℕ} (h : Sound K m) (hp : Fresh K m p) :
    Changes r S m (m.setPage p page) :=
  ⟨fun hq => hq, fun hq hvb _ _ => h.tables.translate_setPage hp hq hvb⟩

/-- A page is taken and cleared. -/
theorem Sound.newLeaf (h : Sound K m) (hp : m.useOf p = none) (r va : ℕ) (S : Set ℕ) :
    Sound K (m.newLeaf r va p) ∧ Changes r S m (m.newLeaf r va p) ∧
      KeepsUse m (m.newLeaf r va p) := by
  have hfresh : Fresh K (m.take p (.leaf r (va / pgsize))) p :=
    ⟨(h.fresh_of_free hp).place, (h.fresh_of_free hp).shared⟩
  have htake := h.take (u := .leaf r (va / pgsize)) hp
  exact ⟨htake.setPage hfresh, (Changes.take r S m).trans (htake.changes_setPage hfresh),
    fun _ _ hu => useOf_take_of_some hp hu⟩

end Changes

/-! ## §2  Single pages -/

section Pages

variable {alloc : Mem → ℕ} {K : Kernel} {m : Mem} {r va p perm : ℕ}

/-- `mappages` of a new page, its result ignored. -/
theorem wp_mappages_changes (h : Sound K m) (hr : m.IsRoot r)
    (hva : userCodeVmStart ≤ va) (hal : va % pgsize = 0) (hp : m.useOf p = none)
    (hperm : perm < 1024) :
    wp (mappages alloc r va pgsize p perm)
      (fun _ m' => Sound K m' ∧ Changes r {va / pgsize} m m' ∧ KeepsUse m m' ∧
        m'.useOf p = some (.leaf r (va / pgsize)))
      (fun e => e = .walk) (m.newLeaf r va p) := by
  obtain ⟨h₁, hch, huse⟩ := h.newLeaf hp r va {va / pgsize}
  have hleaf : (m.newLeaf r va p).useOf p = some (.leaf r (va / pgsize)) := by
    rw [Mem.newLeaf, useOf_zeroPage, useOf_take_self]
  apply wp_mono (wp_mappages h₁ (hch.root hr) hva hal hleaf hperm)
  · rintro b m' ⟨h', hext, -, heffect⟩
    refine ⟨h', hch.trans ?_, fun _ _ hu => hext.used (huse hu), hext.used hleaf⟩
    cases b with
    | true => exact Maps.changes heffect.2 hext
    | false => exact ⟨fun hq => hext.place hq, fun hq hvb _ _ => heffect.1 hq hvb⟩
  · exact fun _ he => he.1

theorem userCode_le_pgRoundDown {a : ℕ} (h : userCodeVmStart ≤ a) :
    userCodeVmStart ≤ pgRoundDown a := by
  unfold pgRoundDown pgsize
  unfold userCodeVmStart at *
  omega

theorem faultPerm_lt (v : Vma) (user : Bool) : faultPerm v user < 1024 := by
  unfold faultPerm
  cases user <;> cases v.vmFlags.testBit 2 <;> cases v.vmFlags.testBit 0 <;>
    cases v.vmFlags.testBit 1 <;> decide

theorem wp_handleMmFault {mm : Mm} {v : Vma} {user : Bool} (h : Sound K m)
    (hr : m.IsRoot mm.pagetable) (hva : userCodeVmStart ≤ va) :
    wp (handleMmFault alloc mm v va user)
      (fun _ m' => Sound K m' ∧ Changes mm.pagetable {va / pgsize} m m' ∧ KeepsUse m m')
      (fun e => e = .walk) m := by
  unfold handleMmFault
  apply wp_bind (wp_getFreePage_cases _)
  rintro o m₁ (⟨rfl, rfl, -⟩ | ⟨p, rfl, hp, rfl⟩)
  · exact wp_pure ⟨h.tick, Changes.tick .., fun _ _ hu => hu⟩
  · apply wp_modify_bind
    have hmap := @wp_mappages_changes alloc _ _ _ _ _ _ h hr (userCode_le_pgRoundDown hva)
      (pgRoundDown_mod va) hp.2.2 (faultPerm_lt v user)
    rw [Mem.newLeaf, pgRoundDown_div] at hmap
    apply wp_bind hmap
    rintro _ m₂ ⟨h₂, hch, huse, -⟩
    exact wp_pure ⟨h₂, hch, huse⟩

theorem of_userFrame (h : userFrame m r va = some p) :
    va < maxva ∧ isValid (translate m r va) = true ∧ isUser (translate m r va) = true ∧
      pte2pa (translate m r va) = p := by
  unfold userFrame at h
  split at h
  · rename_i hcond
    exact ⟨hcond.1, hcond.2.1, hcond.2.2, Option.some.inj h⟩
  · cases h

/-- The page that `walkaddr` finds is the process's own. -/
theorem Sound.useOf_userFrame (h : Sound K m) (hr : m.IsRoot r)
    (hva : userCodeVmStart ≤ va) (hp : userFrame m r va = some p) :
    m.useOf p = some (.leaf r (va / pgsize)) := by
  obtain ⟨hlt, hv, -, rfl⟩ := of_userFrame hp
  exact h.leaf hr (inUser_of_range hva hlt) (Nat.lt_trans hlt maxva_lt) hv

/-- A round of `vm_map_program`, at the start of a page or in one that is there already. -/
theorem wp_mapProgramPage {n : ℕ} {src : ℕ → ℕ} (h : Sound K m) (hr : m.IsRoot r)
    (hva : userCodeVmStart ≤ va) (hal : va % pgsize = 0 ∨ userFrame m r va ≠ none) :
    wp (mapProgramPage alloc r va n src)
      (fun _ m' => Sound K m' ∧ Changes r {va / pgsize} m m' ∧ KeepsUse m m')
      (fun e => e = .walk) m := by
  unfold mapProgramPage mapPage
  apply wp_bind_run (walkaddr_eq alloc m r va)
  cases ho : userFrame m r va with
  | some mem =>
    have hfresh := h.fresh_of_leaf (h.useOf_userFrame hr hva ho)
    apply wp_modify_bind
    exact wp_pure ⟨h.setPage hfresh, h.changes_setPage hfresh, fun _ _ hu => hu⟩
  | none =>
    have hal : va % pgsize = 0 := hal.resolve_right fun hne => hne ho
    apply wp_bind (wp_getFreePage_cases _)
    rintro o m₂ (⟨rfl, rfl, -⟩ | ⟨p, rfl, hp, rfl⟩)
    · exact wp_pure ⟨h.tick, Changes.tick .., fun _ _ hu => hu⟩
    · apply wp_modify_bind
      apply wp_bind (wp_mappages_changes h hr hva hal hp.2.2 (by decide))
      rintro _ m₃ ⟨h₃, hch, huse, hleaf⟩
      apply wp_modify_bind
      have hfresh := h₃.fresh_of_leaf hleaf
      exact wp_pure ⟨h₃.setPage hfresh, hch.trans (h₃.changes_setPage hfresh), huse⟩

theorem wp_mapProgramLoop {size : ℕ} {src : ℕ → ℕ → ℕ} {l : List ℕ} {ret : Bool}
    (h : Sound K m) (hr : m.IsRoot r) (hva : userCodeVmStart ≤ va)
    (hal : va % pgsize = 0) :
    wp (mapProgramLoop alloc r va size src l ret)
      (fun _ m' => Sound K m' ∧ Changes r {v | v = va / pgsize ∧ l ≠ []} m m' ∧ KeepsUse m m')
      (fun e => e = .walk) m := by
  induction l generalizing m ret with
  | nil => exact wp_pure ⟨h, Changes.refl .., fun _ _ hu => hu⟩
  | cons i l ih =>
    have hsub : ∀ {S : Set ℕ}, S ⊆ {va / pgsize} → S ⊆ {v | v = va / pgsize ∧ i :: l ≠ []} :=
      fun hS v hv => ⟨hS hv, List.cons_ne_nil i l⟩
    unfold mapProgramLoop
    apply wp_bind (wp_mapProgramPage h hr hva (Or.inl hal))
    rintro o m₁ ⟨h₁, hch, huse⟩
    have hch := hch.mono (hsub fun _ hv => hv)
    cases o with
    | none => exact wp_pure ⟨h₁, hch, huse⟩
    | some new =>
      apply wp_post (ih h₁ (hch.root hr))
      rintro _ m₂ ⟨h₂, hch', huse'⟩
      exact ⟨h₂, hch.trans (hch'.mono (hsub fun _ hv => hv.1)), fun _ _ hu => huse' (huse hu)⟩

end Pages

end RiscvBm.Vm

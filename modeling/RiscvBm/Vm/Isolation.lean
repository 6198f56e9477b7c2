import RiscvBm.Lib.Transition
import RiscvBm.Vm.Sound

/-!
# Isolation of the page tables (`kernel/vm.c`)

`copy_kernel_tbl` copies the kernel's top-level page only, so the tables below it are
shared by all processes. A table stays the business of its process all the same: as long as
`get_free_page` answers with pages that no table reaches, calls of `mappages`,
`unmap_validpages`, `uvmunmap` and `walk` in the range of user addresses change no entry that
is read under another table, the kernel's included (`isolated_run`).
-/

namespace RiscvBm.Vm

open Radix Wp Transition Function

/-! ## §1  Calls on one table -/

inductive Call where
  | walk (va : ℕ)
  | mappages (va size pa perm : ℕ)
  | unmapValidpages (va npages : ℕ)
  | uvmunmap (va npages : ℕ) (doFree : Bool)
deriving DecidableEq, Repr

/-- All addresses of the call are in `[USER_CODE_VM_START, STACK_TOP)`. -/
def Call.InRange : Call → Prop
  | .walk va => userCodeVmStart ≤ va ∧ va < stackTop
  | .mappages va size _ _ => userCodeVmStart ≤ va ∧ va + size ≤ stackTop
  | .unmapValidpages va npages => userCodeVmStart ≤ va ∧ va + npages * pgsize ≤ stackTop
  | .uvmunmap va npages _ => userCodeVmStart ≤ va ∧ va + npages * pgsize ≤ stackTop

instance (c : Call) : Decidable c.InRange := by
  cases c <;> exact inferInstanceAs (Decidable (_ ∧ _))

def Call.run (alloc : Mem → ℕ) (r : ℕ) : Call → VmM Unit
  | .walk va => do let _ ← Vm.walk alloc r va true
  | .mappages va size pa perm => do let _ ← Vm.mappages alloc r va size pa perm
  | .unmapValidpages va npages => Vm.unmapValidpages alloc r va npages
  | .uvmunmap va npages doFree => Vm.uvmunmap alloc r va npages doFree

/-- The memory after a run that returned. -/
def after {α : Type} (c : VmM α) (m : Mem) : Option Mem :=
  match c m with
  | .ok (_, m') => some m'
  | .error _ => none

inductive Act where
  /-- `copy_kernel_tbl` -/
  | create
  | call (r : ℕ) (c : Call)
deriving DecidableEq, Repr

def step (alloc : Mem → ℕ) (m : Mem) : Act → Option Mem
  | .create => after (copyKernelTbl alloc) m
  | .call r c =>
    if r ∈ m.tables ∧ r ≠ m.kernelPagetable ∧ c.InRange then after (c.run alloc r) m else none

/-- A sequence of calls on the table at `r`. -/
def callsOn (alloc : Mem → ℕ) (r : ℕ) (cs : List Call) (m : Mem) : Option Mem :=
  runFrom (step alloc) m (cs.map (Act.call r))

/-- A table leads to `p`, as a table or as a page. -/
def Reachable (m : Mem) (p : ℕ) : Prop :=
  ∃ r ∈ m.tables, ∃ σ : List ℕ, σ.length ≤ 3 ∧ (∀ i ∈ σ, i < 512) ∧
    descend next m.word r σ = some p

/-! ## §2  The invariant -/

structure Isolated (K : Kernel) (m : Mem) : Prop where
  tables : Tables K m
  kernel_mem : K.root ∈ m.tables
  root_mem : ∀ {f q σ}, m.place f = some (q, σ) → q ∈ m.tables
  place_of_mem : ∀ {q}, q ∈ m.tables → q = K.root ∨ m.IsRoot q

section Invariant

variable {K : Kernel} {m m' : Mem} {p q r va : ℕ} {alloc : Mem → ℕ}

theorem isolated_boot (K : Kernel) (used : List (ℕ × Use)) : Isolated K (boot K used) where
  tables := tables_boot K used
  kernel_mem := List.mem_singleton_self _
  root_mem := by
    intro f q σ hf
    cases hf
  place_of_mem := fun hq => Or.inl (List.mem_singleton.mp hq)

/-- A frame that no table reaches is not a table. -/
theorem Isolated.fresh (h : Isolated K m) (hp : ¬ Reachable m p) : Fresh K m p where
  place := by
    cases hplace : m.place p with
    | none => rfl
    | some x =>
      obtain ⟨q, σ⟩ := x
      have hlinked := h.tables.linked
      have hlen := hlinked.length_le hplace
      refine absurd ⟨q, h.root_mem hplace, σ, by omega, ?_, (hlinked.descend_of_place hplace).2⟩ hp
      intro i hi
      obtain ⟨σ₁, σ₂, hσ⟩ := List.append_of_mem hi
      exact (hlinked.ownPath_of_place hplace σ₁ i σ₂ hσ).1
  shared := by
    rintro n hn ⟨σ, rfl, hbound, hd⟩
    refine hp ⟨K.root, h.kernel_mem, σ, by omega, hbound, ?_⟩
    rwa [h.tables.descend_kernel (by omega) hbound]

variable (halloc : ∀ m, alloc m ≠ 0 → ¬ Reachable m (alloc m))

include halloc in
theorem isolated_tableInv : TableInv alloc K (Isolated K) where
  tables := fun h => h.tables
  fresh := by
    rintro m p h ⟨rfl, hne, -⟩
    exact h.fresh (halloc m hne)
  tick := fun h => ⟨h.tables.tick, h.kernel_mem, h.root_mem, h.place_of_mem⟩
  link := by
    rintro m p f r σ i h ⟨rfl, hne, hfree⟩ hf hlen hown hempty
    have hfresh := h.fresh (halloc m hne)
    refine ⟨h.tables.link hfresh hf hlen hown hempty, h.kernel_mem, ?_, ?_⟩
    · intro g q τ hg
      rw [place_link] at hg
      by_cases hgp : g = alloc m
      · rw [hgp, update_self] at hg
        cases hg
        exact h.root_mem hf
      · rw [update_of_ne hgp] at hg
        exact h.root_mem hg
    · intro q hq
      rcases h.place_of_mem hq with hroot | hplace
      · exact Or.inl hroot
      · right
        rwa [Mem.IsRoot, place_link, update_of_ne (Linked.ne_of_place hplace hfresh.place)]

/-- Nothing of the other tables has changed. -/
structure Elsewhere (r : ℕ) (m m' : Mem) : Prop where
  place : ∀ {f x}, m.place f = some x → m'.place f = some x
  others : ∀ {f q σ}, m.place f = some (q, σ) → q ≠ r → m'.word f = m.word f
  tables : m'.tables = m.tables

theorem Extends.elsewhere (h : Extends r m m') : Elsewhere r m m' :=
  ⟨h.place, h.others, h.tables⟩

theorem Elsewhere.refl (r : ℕ) (m : Mem) : Elsewhere r m m := ⟨fun h => h, fun _ _ => rfl, rfl⟩

theorem Elsewhere.trans {m'' : Mem} (h : Elsewhere r m m') (h' : Elsewhere r m' m'') :
    Elsewhere r m m'' where
  place hf := h'.place (h.place hf)
  others hf hq := (h'.others (h.place hf) hq).trans (h.others hf hq)
  tables := h'.tables.trans h.tables

theorem Elsewhere.entries_eq (hE : Elsewhere r m m') (h : Isolated K m) (h' : Isolated K m')
    (hq : q ∈ m.tables) (hqr : q ≠ r) : entries m' q va = entries m q va :=
  h.tables.entries_eq h'.tables (h.place_of_mem hq) fun hf => hE.others hf hqr

end Invariant

/-! ## §3  One call -/

section Calls

variable {K : Kernel} {m m' : Mem} {p q r va : ℕ} {alloc : Mem → ℕ}

/-- What a call on the table at `r` keeps. -/
def Confined (K : Kernel) (r : ℕ) (m m' : Mem) : Prop := Isolated K m' ∧ Elsewhere r m m'

theorem Confined.trans {m'' : Mem} (h : Confined K r m m') (h' : Confined K r m' m'') :
    Confined K r m m'' := ⟨h'.1, h.2.trans h'.2⟩

/-- A word of a bottom table of `r` is set. -/
theorem Isolated.setLeaf (h : Isolated K m) {t k w : ℕ} (ht : m.place t = some (r, vpath va)) :
    Confined K r m (m.setWord t k w) := by
  refine ⟨⟨h.tables.setLeaf ht (length_vpath va), h.kernel_mem, h.root_mem, h.place_of_mem⟩, ?_⟩
  exact Extends.elsewhere (Extends.setWord ht)

theorem Isolated.release (h : Isolated K m) : Confined K r m (m.release p) :=
  ⟨⟨⟨h.tables.kernelPagetable, h.tables.linked, h.tables.shared, h.tables.copied⟩,
    h.kernel_mem, h.root_mem, h.place_of_mem⟩, fun hf => hf, fun _ _ => rfl, rfl⟩

variable (halloc : ∀ m, alloc m ≠ 0 → ¬ Reachable m (alloc m))

include halloc

theorem wp_walk_isolated (b : Bool) (hva : userCodeVmStart ≤ va) (h : Isolated K m)
    (hr : m.IsRoot r) :
    wp (walk alloc r va b)
      (fun o m' => Confined K r m m' ∧ ∀ t k, o = some (t, k) → m'.place t = some (r, vpath va))
      (fun _ => True) m := by
  apply wp_mono (wp_walk (isolated_tableInv halloc) b hva h hr)
  · rintro o m' ⟨hm', hw⟩
    exact ⟨⟨hm', hw.toExtends.elsewhere⟩, fun t k htk => (hw.slot t k htk).1⟩
  · exact fun _ _ => trivial

theorem wp_mapLoop_isolated {perm n a pa : ℕ} (ha : userCodeVmStart ≤ a) (h : Isolated K m)
    (hr : m.IsRoot r) :
    wp (mapLoop alloc r perm n a pa) (fun _ m' => Confined K r m m') (fun _ => True) m := by
  induction n generalizing m a pa with
  | zero => exact wp_pure ⟨h, Elsewhere.refl r m⟩
  | succ n ih =>
    refine wp_mapLoop_succ (isolated_tableInv halloc) ha h hr (fun _ => trivial) ?_ ?_
    · exact fun o m₁ h₁ hw _ => ⟨h₁, hw.toExtends.elsewhere⟩
    · intro t m₁ h₁ hw ht _
      have hset := Confined.trans ⟨h₁, hw.toExtends.elsewhere⟩ (h₁.setLeaf (k := px 0 a)
        (w := pa2pte pa ||| perm ||| pteV) ht)
      refine wp_post (ih (Nat.le_trans ha (Nat.le_add_right a pgsize)) hset.1 (hset.2.place hr)) ?_
      exact fun _ m₂ hrest => hset.trans hrest

omit halloc in
/-- An entry is cleared and its page freed. -/
theorem Isolated.clear (h : Isolated K m) {t k : ℕ} (ht : m.place t = some (r, vpath va)) :
    Confined K r m ((m.release p).setWord t k 0) :=
  Confined.trans h.release (Isolated.setLeaf (h.release (r := r)).1 ht)

theorem wp_unmapValid_isolated (hva : userCodeVmStart ≤ va) (h : Isolated K m)
    (hr : m.IsRoot r) :
    wp (unmapValid alloc r va) (fun _ m' => Confined K r m m') (fun _ => True) m := by
  unfold unmapValid
  apply wp_bind (wp_walk_isolated halloc false hva h hr)
  rintro o m₁ ⟨hwalk, hslot⟩
  rcases o with _ | ⟨t, k⟩
  · exact wp_pure hwalk
  · apply wp_get
    dsimp only
    apply wp_ite
    · exact fun _ => wp_pure hwalk
    intro _
    apply wp_ite
    · exact fun _ => wp_pure hwalk
    intro _
    exact wp_modify_bind (wp_modify (hwalk.trans (hwalk.1.clear (hslot t k rfl))))

theorem wp_uvmunmapOne_isolated (hva : userCodeVmStart ≤ va) (h : Isolated K m)
    (hr : m.IsRoot r) (doFree : Bool) :
    wp (uvmunmapOne alloc r va doFree) (fun _ m' => Confined K r m m') (fun _ => True) m := by
  unfold uvmunmapOne
  apply wp_bind (wp_walk_isolated halloc false hva h hr)
  rintro o m₁ ⟨hwalk, hslot⟩
  rcases o with _ | ⟨t, k⟩
  · exact wp_throw trivial
  · apply wp_get
    dsimp only
    apply wp_ite
    · exact fun _ => wp_throw trivial
    intro _
    apply wp_ite
    · exact fun _ => wp_throw trivial
    intro _
    cases doFree with
    | true => exact wp_modify_bind (wp_modify (hwalk.trans (hwalk.1.clear (hslot t k rfl))))
    | false => exact wp_modify (hwalk.trans (hwalk.1.setLeaf (hslot t k rfl)))

omit halloc in
/-- A loop over pages, each round of which is confined. -/
theorem wp_pages_isolated {body : ℕ → VmM Unit} {n : ℕ} (h : Isolated K m)
    (hr : m.IsRoot r)
    (hbody : ∀ i m₁, Isolated K m₁ → m₁.IsRoot r →
      wp (body i) (fun _ m₂ => Confined K r m₁ m₂) (fun _ => True) m₁) :
    wp (forRange body 0 n) (fun _ m' => Confined K r m m') (fun _ => True) m := by
  apply wp_forRange_zero (I := fun _ m₁ => Confined K r m m₁)
  · intro i m₁ _ hm₁
    apply wp_post (hbody i m₁ hm₁.1 (hm₁.2.place hr))
    intro _ m₂ hm₂
    exact hm₁.trans hm₂
  · exact ⟨h, Elsewhere.refl r m⟩

/-- A call in the range of user addresses is confined to its table. -/
theorem wp_call_isolated {c : Call} (hc : c.InRange) (h : Isolated K m)
    (hr : m.IsRoot r) :
    wp (c.run alloc r) (fun _ m' => Confined K r m m') (fun _ => True) m := by
  cases c with
  | walk va =>
    apply wp_bind (wp_walk_isolated halloc true hc.1 h hr)
    intro _ m₁ hm₁
    exact wp_pure hm₁.1
  | mappages va size pa perm =>
    apply wp_bind (Q := fun _ m' => Confined K r m m')
    · apply wp_ite (fun _ => wp_throw trivial)
      intro _
      apply wp_mapLoop_isolated halloc _ h hr
      have hva := hc.1
      unfold pgRoundDown pgsize
      unfold userCodeVmStart at hva ⊢
      omega
    · intro _ m₁ hm₁
      exact wp_pure hm₁
  | unmapValidpages va npages =>
    apply wp_ite (fun _ => wp_throw trivial)
    intro _
    apply wp_pages_isolated h hr
    intro i m₁ h₁ hr₁
    exact wp_unmapValid_isolated halloc (Nat.le_trans hc.1 (Nat.le_add_right ..)) h₁ hr₁
  | uvmunmap va npages doFree =>
    apply wp_ite (fun _ => wp_throw trivial)
    intro _
    apply wp_pages_isolated h hr
    intro i m₁ h₁ hr₁
    exact wp_uvmunmapOne_isolated halloc (Nat.le_trans hc.1 (Nat.le_add_right ..)) h₁ hr₁ doFree

end Calls

/-! ## §4  Runs -/

section Runs

variable {K : Kernel} {m m' : Mem} {p q r va : ℕ} {alloc : Mem → ℕ}

theorem post_of_after {α : Type} {c : VmM α} {P : Mem → Prop} {E : Panic → Prop}
    (h : wp c (fun _ m' => P m') E m) (hrun : after c m = some m') : P m' := by
  unfold after at hrun
  split at hrun
  · rename_i a m₁ hok
    cases hrun
    exact post_of_ok h hok
  · cases hrun

variable (halloc : ∀ m, alloc m ≠ 0 → ¬ Reachable m (alloc m))

include halloc

/-- A new table shares the kernel's part. -/
theorem wp_copyKernelTbl_isolated (h : Isolated K m) :
    wp (copyKernelTbl alloc) (fun _ m' => Isolated K m') (fun _ => True) m := by
  apply wp_post wp_copyKernelTbl
  rintro o m' (⟨rfl, rfl, -⟩ | ⟨p, rfl, hp, rfl⟩)
  · exact (isolated_tableInv halloc).tick h
  have hfresh : Fresh K m p := (isolated_tableInv halloc).fresh h hp
  refine ⟨h.tables.newTable hfresh, List.mem_cons_of_mem _ h.kernel_mem, ?_, ?_⟩
  · intro f q σ hf
    by_cases hfp : f = p
    · rw [place_newTable, hfp, update_self] at hf
      cases hf
      exact List.mem_cons_self
    · rw [place_newTable, update_of_ne hfp] at hf
      exact List.mem_cons_of_mem _ (h.root_mem hf)
  · intro q hq
    rw [Mem.IsRoot, place_newTable]
    rcases List.mem_cons.mp hq with rfl | hq
    · exact Or.inr (update_self ..)
    · rcases h.place_of_mem hq with hroot | hplace
      · exact Or.inl hroot
      · right
        rwa [update_of_ne (Linked.ne_of_place hplace hfresh.place)]

theorem confined_call {c : Call} (h : Isolated K m)
    (hstep : step alloc m (.call r c) = some m') : Confined K r m m' := by
  unfold step at hstep
  dsimp only at hstep
  split at hstep
  · rename_i hcall
    obtain ⟨hr, hne, hc⟩ := hcall
    rw [h.tables.kernelPagetable] at hne
    have hplace := (h.place_of_mem hr).resolve_left hne
    exact post_of_after (wp_call_isolated halloc hc h hplace) hstep
  · cases hstep

theorem isolated_step {a : Act} (h : Isolated K m) (hstep : step alloc m a = some m') :
    Isolated K m' := by
  cases a with
  | create => exact post_of_after (wp_copyKernelTbl_isolated halloc h) hstep
  | call r c => exact (confined_call halloc h hstep).1

theorem confined_calls {cs : List Call} (h : Isolated K m)
    (hrun : callsOn alloc r cs m = some m') : Confined K r m m' := by
  induction cs generalizing m with
  | nil =>
    cases hrun
    exact ⟨h, Elsewhere.refl r _⟩
  | cons c cs ih =>
    obtain ⟨m₁, hstep, hrest⟩ := Option.bind_eq_some_iff.mp hrun
    have hm₁ := confined_call halloc h hstep
    exact hm₁.trans (ih hm₁.1 hrest)

end Runs

/-- In every state that is reached by creating tables and calling on them, a sequence of calls on
the table at `r` leaves every entry that is read under another table as it was. -/
theorem isolated_run (K : Kernel) (used : List (ℕ × Use)) (alloc : Mem → ℕ)
    (halloc : ∀ m, alloc m ≠ 0 → ¬ Reachable m (alloc m)) {as : List Act} {m m' : Mem}
    (hrun : runFrom (step alloc) (boot K used) as = some m) {r : ℕ} {cs : List Call}
    (hcalls : callsOn alloc r cs m = some m') {q : ℕ} (hq : q ∈ m.tables) (hqr : q ≠ r) (va : ℕ) :
    entries m' q va = entries m q va := by
  have h : Isolated K m :=
    run_invariant (fun _ _ _ => isolated_step halloc) (isolated_boot K used) hrun
  obtain ⟨h', helse⟩ := confined_calls halloc h hcalls
  exact helse.entries_eq h h' hq hqr

/-- The frame at `f`, or one that it leads to in `n` levels, is `p`. -/
def leadsTo (m : Mem) (p : ℕ) : ℕ → ℕ → Bool
  | 0, f => f == p
  | n + 1, f => f == p || (List.range 512).any fun i => (next (m.word f i)).any (leadsTo m p n)

theorem leadsTo_of_descend {m : Mem} {p n f : ℕ} {σ : List ℕ} (hlen : σ.length ≤ n)
    (hσ : ∀ i ∈ σ, i < 512) (hd : descend next m.word f σ = some p) : leadsTo m p n f = true := by
  induction σ generalizing n f with
  | nil =>
    cases hd
    cases n <;> simp [leadsTo]
  | cons i σ ih =>
    obtain ⟨n, rfl⟩ := Nat.exists_eq_add_of_le' hlen
    obtain ⟨d, hi, hd⟩ := Option.bind_eq_some_iff.mp hd
    have hrest := ih (n := n + σ.length) (by omega)
      (fun j hj => hσ j (List.mem_cons_of_mem _ hj)) hd
    rw [List.length_cons, ← Nat.add_assoc, leadsTo, Bool.or_eq_true, List.any_eq_true]
    exact .inr ⟨i, List.mem_range.mpr (hσ i List.mem_cons_self), by rw [hi]; exact hrest⟩

/-- The first frame above those in use, unless a table leads to it. -/
def spare (m : Mem) : ℕ := if m.tables.any (leadsTo m (above m) 3) then 0 else above m

theorem not_reachable_spare (m : Mem) (h : spare m ≠ 0) : ¬ Reachable m (spare m) := by
  unfold spare at h ⊢
  split at h
  · exact absurd rfl h
  · rename_i hany
    rw [if_neg hany]
    rintro ⟨r, hr, σ, hlen, hσ, hd⟩
    exact hany (List.any_eq_true.mpr ⟨r, hr, leadsTo_of_descend hlen hσ hd⟩)

/-- A kernel table with one table below it, which the copies share. -/
def sharedKernel : Kernel where
  word := fun f i => if f = 1 ∧ i = 2 then pa2pte 6 ||| pteV else 0
  root := 1
  upperEmpty := by
    intro i hi _
    rw [if_neg (by unfold userIndex at hi; omega), next_zero]

/-- A page is mapped under one of two process tables, and neither the other one nor the kernel's
sees it. -/
theorem isolated_twoTables : ∃ m m',
    runFrom (step spare) (boot sharedKernel [(1, .kernel), (6, .kernel)]) [.create, .create] =
        some m ∧
      callsOn spare 7 [.mappages userCodeVmStart pgsize 77 pteR] m = some m' ∧
      entries m' 7 userCodeVmStart ≠ entries m 7 userCodeVmStart ∧
      ∀ q ∈ [1, 8], ∀ va, entries m' q va = entries m q va := by
  have hsome : ((runFrom (step spare) (boot sharedKernel [(1, .kernel), (6, .kernel)])
      [.create, .create]).bind fun m =>
        (callsOn spare 7 [.mappages userCodeVmStart pgsize 77 pteR] m).map fun m' =>
          (m.tables, (entries m 7 userCodeVmStart).length, (entries m' 7 userCodeVmStart).length)) =
      some ([8, 7, 1], 1, 3) := by
    decide +kernel
  obtain ⟨m, hm, hcalls⟩ := Option.bind_eq_some_iff.mp hsome
  obtain ⟨m', hm', heq⟩ := Option.map_eq_some_iff.mp hcalls
  obtain ⟨htables, hlen⟩ := Prod.mk.inj heq
  obtain ⟨hlen, hlen'⟩ := Prod.mk.inj hlen
  refine ⟨m, m', hm, hm', fun h => ?_, fun q hq => ?_⟩
  · rw [h, hlen] at hlen'
    cases hlen'
  · have hne : q ≠ 7 := by
      rintro rfl
      simp at hq
    exact isolated_run sharedKernel _ spare not_reachable_spare hm hm' (by
      rw [htables]
      exact (by decide : [1, 8] ⊆ [8, 7, 1]) hq) hne

end RiscvBm.Vm

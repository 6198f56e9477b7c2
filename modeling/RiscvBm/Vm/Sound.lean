import RiscvBm.Vm.Tables

/-!
# What the pages are used for

`Sound` puts the allocator's record beside the tables: tables and the kernel's frames are in use
as such, and a valid entry of a process's own part leads to a page that was asked for
that very entry. It is kept by everything that maps and unmaps one page at a time, and each
such function is described by what it does to the translations: `Maps` for `mappages`,
`Unmaps` for `unmap_validpages`, and `walkaddr` is a function of the translation.
-/

namespace RiscvBm.Vm

open Radix Wp Function

/-! ## §1  Pages of addresses -/

theorem page_eq_iff {a b : ℕ} (ha : a < 2 ^ 39) (hb : b < 2 ^ 39) :
    (vpath a = vpath b ∧ px 0 a = px 0 b) ↔ a / pgsize = b / pgsize := by
  simp only [vpath, px, pgsize, List.cons.injEq, and_true]
  omega

/-- A translation is about a page. -/
theorem translate_congr {m : Mem} {r a b : ℕ} (ha : a < 2 ^ 39) (hb : b < 2 ^ 39)
    (h : a / pgsize = b / pgsize) : translate m r a = translate m r b := by
  obtain ⟨hpath, hindex⟩ := (page_eq_iff ha hb).mpr h
  rw [translate, translate, hpath, hindex]

theorem maxva_lt : maxva < 2 ^ 39 := by decide

theorem pgRoundDown_mod (a : ℕ) : pgRoundDown a % pgsize = 0 := Nat.mul_mod_left ..

theorem pgRoundDown_div (a : ℕ) : pgRoundDown a / pgsize = a / pgsize :=
  Nat.mul_div_cancel _ (by decide)

theorem pgRoundDown_of_aligned {a : ℕ} (h : a % pgsize = 0) : pgRoundDown a = a :=
  Nat.div_mul_cancel (Nat.dvd_of_mod_eq_zero h)

theorem spare_aligned {a : ℕ} (h : a % pgsize = 0) :
    (a + pgsize - 1) / pgsize - a / pgsize = 0 := by
  unfold pgsize at *
  omega

theorem page_add (a i : ℕ) : (a + i * pgsize) / pgsize = a / pgsize + i :=
  Nat.add_mul_div_right a i (by decide)

theorem page_succ (a : ℕ) : (a + pgsize) / pgsize = a / pgsize + 1 := by
  rw [← page_add, Nat.one_mul]

/-! ## §2  The invariant -/

/-- What is used as a table was asked for as one. -/
structure Shaped (K : Kernel) (m : Mem) : Prop where
  tables : Tables K m
  placed : ∀ {f x}, m.place f = some x → m.useOf f = some .table
  shared : ∀ {n f}, n ≤ 2 → K.Frame n f → m.useOf f = some .kernel

structure Sound (K : Kernel) (m : Mem) : Prop extends Shaped K m where
  leaf : ∀ {r va}, m.IsRoot r → InUser va → va < 2 ^ 39 →
    isValid (translate m r va) = true →
      m.useOf (pte2pa (translate m r va)) = some (.leaf r (va / pgsize))

/-- The kernel when the first process is set up: its table is in use. -/
structure Boot where
  kernel : Kernel
  used : List (ℕ × Use)
  kernelUsed : ∀ {n f}, n ≤ 2 → kernel.Frame n f → (boot kernel used).useOf f = some .kernel

def Boot.mem (B : Boot) : Mem := boot B.kernel B.used

theorem sound_boot (B : Boot) : Sound B.kernel B.mem where
  tables := tables_boot B.kernel B.used
  placed := by
    intro f x hf
    cases hf
  shared := B.kernelUsed
  leaf := by
    intro r va hr
    cases hr

/-- The empty kernel, with nothing else in use. -/
def emptyBoot : Boot where
  kernel := emptyKernel
  used := [(1, .kernel)]
  kernelUsed := by
    intro n f _ hf
    rw [emptyKernel_frame hf]
    rfl

/-- An allocator that always has a page: the first frame above those in use. -/
def above (m : Mem) : ℕ := (m.used.map Prod.fst).foldr max 0 + 1

theorem answer_above (m : Mem) : Answer above m (above m) := by
  refine ⟨rfl, Nat.succ_ne_zero _, ?_⟩
  unfold Mem.useOf
  rw [Option.map_eq_none_iff, List.find?_eq_none]
  intro e he heq
  have hmem := le_foldr_max (List.mem_map_of_mem (f := Prod.fst) he)
  have heq : e.1 = above m := of_decide_eq_true heq
  unfold above at heq
  omega

section Sound

variable {K : Kernel} {m m' : Mem} {p q f r t k w va vb perm i : ℕ} {u : Use} {σ : List ℕ}

theorem Shaped.fresh (h : Shaped K m) (ht : m.useOf p ≠ some .table)
    (hk : m.useOf p ≠ some .kernel) : Fresh K m p where
  place := by
    cases hplace : m.place p with
    | none => rfl
    | some x => exact absurd (h.placed hplace) ht
  shared := fun hn hframe => hk (h.shared hn hframe)

theorem Shaped.fresh_of_free (h : Shaped K m) (hp : m.useOf p = none) : Fresh K m p :=
  h.fresh (by simp [hp]) (by simp [hp])

theorem Shaped.fresh_of_leaf {v : ℕ} (h : Shaped K m) (hp : m.useOf p = some (.leaf r v)) :
    Fresh K m p :=
  h.fresh (by simp [hp]) (by simp [hp])

theorem Shaped.tick (h : Shaped K m) : Shaped K m.tick := ⟨h.tables.tick, h.placed, h.shared⟩

theorem Sound.tick (h : Sound K m) : Sound K m.tick := ⟨h.toShaped.tick, h.leaf⟩

theorem Shaped.take (h : Shaped K m) (hp : m.useOf p = none) : Shaped K (m.take p u) where
  tables := ⟨h.tables.kernelPagetable, h.tables.linked, h.tables.shared, h.tables.copied⟩
  placed hf := useOf_take_of_some hp (h.placed hf)
  shared hn hf := useOf_take_of_some hp (h.shared hn hf)

theorem Sound.take (h : Sound K m) (hp : m.useOf p = none) : Sound K (m.take p u) :=
  ⟨h.toShaped.take hp, fun hr hva hlt hv => useOf_take_of_some hp (h.leaf hr hva hlt hv)⟩

/-- A frame is linked in below another one, so it is no root. -/
theorem root_of_place_link (hq : (m.link p f i r σ).place q = some (q, [])) :
    m.IsRoot q := by
  have hqp : q ≠ p := by
    rintro rfl
    rw [place_link, update_self, Option.some.injEq, Prod.mk.injEq] at hq
    cases σ <;> cases hq.2
  rwa [place_link, update_of_ne hqp] at hq

theorem Shaped.link (h : Shaped K m) (hp : m.useOf p = none) (hf : m.place f = some (r, σ))
    (hlen : σ.length < 2) (hown : own σ i) (hempty : next (m.word f i) = none) :
    Shaped K (m.link p f i r σ) := by
  have hfresh := h.fresh_of_free hp
  have hgrown := h.tables.grown_link hfresh hp hf hlen hempty
  refine ⟨h.tables.link hfresh hf hlen hown hempty, ?_, fun hn hg => hgrown.used (h.shared hn hg)⟩
  intro g x hg
  rw [place_link] at hg
  by_cases hgp : g = p
  · rw [hgp]
    exact useOf_take_self
  · rw [update_of_ne hgp] at hg
    exact hgrown.used (h.placed hg)

theorem Sound.link (h : Sound K m) (hp : m.useOf p = none) (hf : m.place f = some (r, σ))
    (hlen : σ.length < 2) (hown : own σ i) (hempty : next (m.word f i) = none) :
    Sound K (m.link p f i r σ) := by
  have hgrown := h.tables.grown_link (h.fresh_of_free hp) hp hf hlen hempty
  refine ⟨h.toShaped.link hp hf hlen hown hempty, ?_⟩
  intro q va hq hva hlt hv
  have hq := root_of_place_link hq
  rw [hgrown.same hq hva] at hv ⊢
  exact hgrown.used (h.leaf hq hva hlt hv)

theorem shaped_tableInv (alloc : Mem → ℕ) (K : Kernel) : TableInv alloc K (Shaped K) where
  tables h := h.tables
  fresh h hp := h.fresh_of_free hp.2.2
  tick h := h.tick
  link h hp hf hlen hown hempty := h.link hp.2.2 hf hlen hown hempty

theorem sound_tableInv (alloc : Mem → ℕ) (K : Kernel) : TableInv alloc K (Sound K) where
  tables h := h.tables
  fresh h hp := h.fresh_of_free hp.2.2
  tick h := h.tick
  link h hp hf hlen hown hempty := h.link hp.2.2 hf hlen hown hempty

/-! ### New tables -/

theorem Tables.translate_newTable (h : Tables K m) (hp : Fresh K m p)
    (hq : m.IsRoot q) (hva : InUser va) :
    translate (m.newTable p) q va = translate m q va := by
  have hlen := Nat.le_of_eq (length_vpath va)
  have hzero := h.linked.fill hp.place fun _ => 0
  calc translate (m.newTable p) q va
      = view next 0 (fill m.word p fun _ => 0) q (vpath va) (px 0 va) :=
        hzero.view_fill hp.place _ hq (ownPath_vpath hva) hlen
    _ = translate m q va := h.linked.view_fill hp.place _ hq (ownPath_vpath hva) hlen

theorem Tables.descend_newTable (h : Tables K m) (hp : Fresh K m p)
    (hq : m.IsRoot q) (hva : InUser va) :
    descend next (m.newTable p).word q (vpath va) = descend next m.word q (vpath va) := by
  have hlen := Nat.le_of_eq (length_vpath va)
  have hzero := h.linked.fill hp.place fun _ => 0
  calc descend next (m.newTable p).word q (vpath va)
      = descend next (fill m.word p fun _ => 0) q (vpath va) :=
        hzero.descend_fill hp.place _ hq (ownPath_vpath hva) hlen
    _ = descend next m.word q (vpath va) :=
        h.linked.descend_fill hp.place _ hq (ownPath_vpath hva) hlen

/-- A new table has nothing in the process's part. -/
theorem Tables.translate_newTable_self (h : Tables K m) (hp : Fresh K m p) (hva : InUser va) :
    translate (m.newTable p) p va = 0 := by
  apply view_of_none
  rw [vpath, descend, h.word_newTable_self hp, K.upperEmpty _ hva (px_lt 2 va)]
  rfl

theorem useOf_newTable (hp : m.useOf p = none) (hf : m.useOf f = some u) :
    (m.newTable p).useOf f = some u :=
  useOf_take_of_some hp hf

theorem Shaped.newTable (h : Shaped K m) (hp : m.useOf p = none) : Shaped K (m.newTable p) := by
  refine ⟨h.tables.newTable (h.fresh_of_free hp), ?_,
    fun hn hf => useOf_newTable hp (h.shared hn hf)⟩
  intro f x hf
  by_cases hfp : f = p
  · rw [hfp]
    exact useOf_take_self
  · rw [place_newTable, update_of_ne hfp] at hf
    exact useOf_newTable hp (h.placed hf)

theorem Sound.newTable (h : Sound K m) (hp : m.useOf p = none) : Sound K (m.newTable p) := by
  have hfresh := h.fresh_of_free hp
  refine ⟨h.toShaped.newTable hp, ?_⟩
  intro q va hq hva hlt hv
  by_cases hqp : q = p
  · rw [hqp, h.tables.translate_newTable_self hfresh hva] at hv
    cases hv
  · rw [Mem.IsRoot, place_newTable, update_of_ne hqp] at hq
    rw [h.tables.translate_newTable hfresh hq hva] at hv ⊢
    exact useOf_newTable hp (h.leaf hq hva hlt hv)

/-! ### Pages of data -/

theorem copyPage_eq : m.copyPage p q = m.setPage p (m.word q) := rfl

theorem Tables.setPage {page : ℕ → ℕ} (h : Tables K m) (hp : Fresh K m p) :
    Tables K (m.setPage p page) where
  kernelPagetable := h.kernelPagetable
  linked := h.linked.fill hp.place page
  shared := by
    intro n g hn hg
    obtain ⟨hplace, hword⟩ := h.shared hn hg
    refine ⟨hplace, ?_⟩
    rw [← hword]
    apply fill_of_ne
    rintro rfl
    exact hp.shared hn hg
  copied := by
    intro q i hq hi
    rw [← h.copied hq hi]
    show fill m.word p page q i = m.word q i
    rw [fill_of_ne _ _ (Linked.ne_of_place hq hp.place)]

theorem Tables.translate_setPage {page : ℕ → ℕ} (h : Tables K m) (hp : Fresh K m p)
    (hq : m.IsRoot q) (hva : InUser va) :
    translate (m.setPage p page) q va = translate m q va :=
  h.linked.view_fill hp.place page hq (ownPath_vpath hva) (Nat.le_of_eq (length_vpath va))

theorem Shaped.setPage {page : ℕ → ℕ} (h : Shaped K m) (hp : Fresh K m p) :
    Shaped K (m.setPage p page) :=
  ⟨h.tables.setPage hp, h.placed, h.shared⟩

theorem Sound.setPage {page : ℕ → ℕ} (h : Sound K m) (hp : Fresh K m p) :
    Sound K (m.setPage p page) where
  toShaped := h.toShaped.setPage hp
  leaf := by
    intro q va hq hva hlt hv
    rw [h.tables.translate_setPage hp hq hva] at hv ⊢
    exact h.leaf hq hva hlt hv

/-! ### Entries -/

/-- The translation of one page is set to `w`. -/
def Maps (m m' : Mem) (r va w : ℕ) : Prop :=
  ∀ {q vb}, m.IsRoot q → InUser vb → vb < 2 ^ 39 →
    translate m' q vb = if q = r ∧ vb / pgsize = va / pgsize then w else translate m q vb

/-- The entry that `walk` has found is set. -/
theorem Tables.maps_setLeaf (h : Tables K m) (ht : m.place t = some (r, vpath va))
    (hlt : va < 2 ^ 39) : Maps m (m.setWord t (px 0 va) w) r va w := by
  intro q vb hq hvb hlt'
  rw [h.translate_setLeaf ht hq hvb]
  simp only [page_eq_iff hlt' hlt]

theorem Shaped.setLeaf (h : Shaped K m) (ht : m.place t = some (r, vpath va)) :
    Shaped K (m.setWord t k w) :=
  ⟨h.tables.setLeaf ht (length_vpath va), h.placed, h.shared⟩

theorem Sound.map (h : Sound K m) (ht : m.place t = some (r, vpath va)) (hlt : va < 2 ^ 39)
    (hp : m.useOf p = some (.leaf r (va / pgsize))) (hperm : perm < 1024) :
    Sound K (m.setWord t (px 0 va) (pa2pte p ||| perm ||| pteV)) where
  toShaped := h.toShaped.setLeaf ht
  leaf := by
    intro q vb hq hvb hlt' hv
    rw [h.tables.maps_setLeaf ht hlt hq hvb hlt'] at hv ⊢
    split at hv
    · rename_i hpage
      rw [if_pos hpage, pte2pa_mkPte hperm, hpage.1, hpage.2]
      exact hp
    · rename_i hpage
      rw [if_neg hpage]
      exact h.leaf hq hvb hlt' hv

/-- The entry is cleared and its page freed: no other entry led to that page. -/
theorem Sound.unmap (h : Sound K m) (ht : m.place t = some (r, vpath va)) (hva : InUser va)
    (hlt : va < 2 ^ 39) (hv : isValid (m.word t (px 0 va)) = true) :
    Sound K ((m.release (pte2pa (m.word t (px 0 va)))).setWord t (px 0 va) 0) := by
  have hroot := (h.tables.linked.descend_of_place ht).1
  have htrans := h.tables.translate_of_place ht
  have hpage : m.useOf (pte2pa (m.word t (px 0 va))) = some (.leaf r (va / pgsize)) := by
    rw [← htrans] at hv ⊢
    exact h.leaf hroot hva hlt hv
  have hkeep : ∀ {f u}, m.useOf f = some u → u ≠ .leaf r (va / pgsize) →
      (m.release (pte2pa (m.word t (px 0 va)))).useOf f = some u := by
    intro f u hf hu
    rw [useOf_release_of_ne, hf]
    rintro rfl
    rw [hpage] at hf
    exact hu (Option.some.inj hf).symm
  have hset := h.tables.setLeaf (k := px 0 va) (w := 0) ht (length_vpath va)
  refine ⟨⟨⟨hset.kernelPagetable, hset.linked, hset.shared, hset.copied⟩,
    fun hf => hkeep (h.placed hf) (by simp), fun hn hf => hkeep (h.shared hn hf) (by simp)⟩, ?_⟩
  intro q vb hq hvb hlt' hv'
  have hmaps := h.tables.maps_setLeaf (w := 0) ht hlt hq hvb hlt'
  rw [show translate ((m.release (pte2pa (m.word t (px 0 va)))).setWord t (px 0 va) 0) q vb = _
    from hmaps] at hv' ⊢
  split at hv'
  · cases hv'
  · rename_i hne
    rw [if_neg hne]
    apply hkeep (h.leaf hq hvb hlt' hv')
    rw [ne_eq, Use.leaf.injEq]
    exact hne

end Sound

/-! ## §3  `mappages` -/

section Map

variable {alloc : Mem → ℕ} {K : Kernel} {m m' : Mem} {r va p perm : ℕ}

/-- A page at the start of a page is one round of the loop. -/
theorem mappages_one (hal : va % pgsize = 0) :
    mappages alloc r va pgsize p perm = mapLoop alloc r perm 1 va p := by
  have hdown : pgRoundDown va = va := by
    unfold pgRoundDown pgsize at *
    omega
  rw [mappages, if_neg (by decide), spare_aligned hal, hdown]

/-- `mappages` of one page that was asked for it. -/
theorem wp_mappages (h : Sound K m) (hr : m.IsRoot r)
    (hva : userCodeVmStart ≤ va) (hal : va % pgsize = 0)
    (hp : m.useOf p = some (.leaf r (va / pgsize))) (hperm : perm < 1024) :
    wp (mappages alloc r va pgsize p perm)
      (fun b m' => Sound K m' ∧ Extends r m m' ∧ NewTables r va m m' ∧
        if b then isValid (translate m r va) = false ∧
          Maps m m' r va (pa2pte p ||| perm ||| pteV)
        else
          (∀ {q vb}, m.IsRoot q → InUser vb → translate m' q vb = translate m q vb) ∧
            ∀ N, Suffices alloc N → m.used.length + 2 ≤ N → isValid (translate m r va) = true)
      (fun e => e = .walk ∧ maxva ≤ va) m := by
  rw [mappages_one hal]
  refine wp_mapLoop_succ (sound_tableInv alloc K) hva h hr (fun hmax => ⟨rfl, hmax⟩) ?_ ?_
  · intro o m₁ h₁ hw hwhy
    refine ⟨h₁, hw.toExtends, hw.news, hw.same, fun N hmem hN => ?_⟩
    exact hwhy.resolve_left (hw.found hmem hN rfl)
  · intro t m₁ h₁ hw ht hv
    have hlt39 := Nat.lt_trans hw.lt maxva_lt
    refine wp_pure ⟨h₁.map ht hlt39 (hw.used hp) hperm, hw.toExtends.trans (Extends.setWord ht),
      hw.news, hv, ?_⟩
    intro q vb hq hvb hlt'
    rw [h₁.tables.maps_setLeaf ht hlt39 (hw.place hq) hvb hlt', hw.same hq hvb]

end Map

/-! ## §4  `unmap_validpages` -/

/-- An entry that `unmap_validpages` clears. -/
def isLeaf (w : ℕ) : Bool := isValid w && pteFlags w ≠ pteV

/-- The pages `S` of the table at `r` are unmapped. -/
structure Unmaps (r : ℕ) (S : Set ℕ) (m m' : Mem) : Prop where
  place : m'.place = m.place
  tables : m'.tables = m.tables
  data : ∀ {f}, m.place f = none → m'.word f = m.word f
  others : ∀ {f q σ}, m.place f = some (q, σ) → q ≠ r → m'.word f = m.word f
  used : ∀ {f u}, m.useOf f = some u → (∀ v ∈ S, u ≠ .leaf r v) → m'.useOf f = some u
  cleared : ∀ {vb}, m.IsRoot r → InUser vb → vb < 2 ^ 39 → vb / pgsize ∈ S →
    isLeaf (translate m r vb) = true → translate m' r vb = 0
  same : ∀ {q vb}, m.IsRoot q → InUser vb → vb < 2 ^ 39 →
    (q = r → vb / pgsize ∈ S → isLeaf (translate m q vb) = false) →
      translate m' q vb = translate m q vb

section Unmap

variable {alloc : Mem → ℕ} {K : Kernel} {m m' m'' : Mem} {r va : ℕ} {S T : Set ℕ}

theorem Unmaps.refl (r : ℕ) (S : Set ℕ) (m : Mem)
    (hS : ∀ {vb}, m.IsRoot r → InUser vb → vb < 2 ^ 39 → vb / pgsize ∈ S →
      isLeaf (translate m r vb) = false) : Unmaps r S m m where
  place := rfl
  tables := rfl
  data _ := rfl
  others _ _ := rfl
  used hf _ := hf
  cleared hr hvb hlt hmem hleaf := by
    rw [hS hr hvb hlt hmem] at hleaf
    cases hleaf
  same _ _ _ _ := rfl

theorem Unmaps.trans (h : Unmaps r S m m') (h' : Unmaps r T m' m'') :
    Unmaps r (S ∪ T) m m'' where
  place := h'.place.trans h.place
  tables := h'.tables.trans h.tables
  data hf := (h'.data (by rw [h.place, hf])).trans (h.data hf)
  others hf hq := (h'.others (by rw [h.place, hf]) hq).trans (h.others hf hq)
  used hf hu := h'.used (h.used hf fun v hv => hu v (Or.inl hv)) fun v hv => hu v (Or.inr hv)
  cleared := by
    intro vb hr hvb hlt hmem hleaf
    have hr' : m'.IsRoot r := (congrFun h.place r).trans hr
    by_cases hS : vb / pgsize ∈ S
    · -- it is empty before the second part, and stays so
      have hzero := h.cleared hr hvb hlt hS hleaf
      rw [h'.same hr' hvb hlt, hzero]
      intro _ _
      rw [hzero]
      rfl
    · have hsame := h.same hr hvb hlt fun _ hmem' => absurd hmem' hS
      exact h'.cleared hr' hvb hlt (hmem.resolve_left hS) (by rw [hsame, hleaf])
  same := by
    intro q vb hq hvb hlt hnot
    have hsame := h.same hq hvb hlt fun hqr hmem => hnot hqr (Or.inl hmem)
    rw [h'.same ((congrFun h.place q).trans hq) hvb hlt, hsame]
    intro hqr hmem
    rw [hsame]
    exact hnot hqr (Or.inr hmem)

/-- An entry is cleared and its page freed. -/
theorem Sound.unmaps (h : Sound K m) {t : ℕ} (ht : m.place t = some (r, vpath va))
    (hva : InUser va) (hlt : va < 2 ^ 39) (hentry : isLeaf (m.word t (px 0 va)) = true) :
    Unmaps r {va / pgsize} m ((m.release (pte2pa (m.word t (px 0 va)))).setWord t (px 0 va) 0) := by
  have hv := (Bool.and_eq_true_iff.mp hentry).1
  have hroot := (h.tables.linked.descend_of_place ht).1
  have htrans := h.tables.translate_of_place ht
  have hext : Extends r m (m.setWord t (px 0 va) 0) := Extends.setWord ht
  have hmaps : Maps m (m.setWord t (px 0 va) 0) r va 0 := h.tables.maps_setLeaf ht hlt
  refine ⟨rfl, rfl, ?_, hext.others, ?_, ?_, ?_⟩
  · intro f hf
    funext j
    exact write_of_ne _ _ fun hslot => Linked.ne_of_place ht hf hslot.1.symm
  · intro f u hf hu
    apply (useOf_release_of_ne _).trans hf
    rintro rfl
    have hleaf := h.leaf hroot hva hlt (by rw [htrans, hv])
    rw [htrans, hf] at hleaf
    exact hu _ rfl (Option.some.inj hleaf)
  · intro vb _ hvb hlt' hmem _
    exact (hmaps hroot hvb hlt').trans (if_pos ⟨rfl, hmem⟩)
  · intro q vb hq hvb hlt' hnot
    by_cases hpage : q = r ∧ vb / pgsize = va / pgsize
    · obtain ⟨rfl, hpage⟩ := hpage
      have hfalse := hnot rfl hpage
      rw [translate_congr hlt' hlt hpage, htrans, hentry] at hfalse
      cases hfalse
    · exact (hmaps hq hvb hlt').trans (if_neg hpage)

theorem wp_unmapValid (h : Sound K m) (hr : m.IsRoot r)
    (hva : userCodeVmStart ≤ va) :
    wp (unmapValid alloc r va)
      (fun _ m' => Sound K m' ∧ Unmaps r {va / pgsize} m m')
      (fun e => e = .walk ∧ maxva ≤ va) m := by
  unfold unmapValid
  apply wp_bind (wp_walk_false (Q := fun o m' => m' = m ∧ va < maxva ∧
    o = (descend next m.word r (vpath va)).map fun t => (t, px 0 va))
    (fun hlt => ⟨rfl, hlt, rfl⟩) (fun hmax => ⟨rfl, hmax⟩))
  rintro o m' ⟨rfl, hlt, rfl⟩
  have hlt39 := Nat.lt_trans hlt maxva_lt
  have hin := inUser_of_range hva hlt
  -- nothing to clear unless the entry is a leaf
  have hrefl : isLeaf (translate m' r va) = false → Unmaps r {va / pgsize} m' m' := by
    intro hno
    apply Unmaps.refl
    intro vb _ _ hlt' hpage
    rw [translate_congr hlt' hlt39 hpage, hno]
  cases hd : descend next m'.word r (vpath va) with
  | none => exact wp_pure ⟨h, hrefl (by rw [translate, view_of_none hd]; rfl)⟩
  | some t =>
    have ht := h.tables.linked.place_of_descend hr (ownPath_vpath hin)
      (Nat.le_of_eq (length_vpath va)) hd
    have htrans := h.tables.translate_of_place ht
    apply wp_get
    dsimp only
    apply wp_ite
    · intro hv
      exact wp_pure ⟨h, hrefl (by rw [htrans, isLeaf, hv]; rfl)⟩
    intro hv
    apply wp_ite
    · intro hflags
      exact wp_pure ⟨h, hrefl (by rw [htrans, isLeaf, hflags]; simp)⟩
    intro hflags
    have hv' : isValid (m'.word t (px 0 va)) = true := by simpa using hv
    apply wp_modify_bind
    apply wp_modify
    exact ⟨h.unmap ht hin hlt39 hv', h.unmaps ht hin hlt39 (by simp [isLeaf, hv', hflags])⟩

/-- The pages of `[va, va + npages * PGSIZE)`. -/
def pagesFrom (va npages : ℕ) : Set ℕ := { v | va / pgsize ≤ v ∧ v < va / pgsize + npages }

theorem wp_unmapValidpages {npages : ℕ} (h : Sound K m) (hr : m.IsRoot r)
    (hva : userCodeVmStart ≤ va) :
    wp (unmapValidpages alloc r va npages)
      (fun _ m' => Sound K m' ∧ Unmaps r (pagesFrom va npages) m m')
      (fun e => e = .notAligned ∧ va % pgsize ≠ 0 ∨ e = .walk ∧
        maxva < va + npages * pgsize) m := by
  unfold unmapValidpages
  apply wp_ite
  · intro hal
    exact wp_throw (Or.inl ⟨rfl, hal⟩)
  intro hal
  have hal : va % pgsize = 0 := by simpa using hal
  apply wp_forRange_zero (I := fun j m₁ => Sound K m₁ ∧ Unmaps r (pagesFrom va j) m m₁)
  · rintro j m₁ hj ⟨h₁, hun⟩
    apply wp_mono (wp_unmapValid h₁ ((congrFun hun.place r).trans hr)
      (Nat.le_trans hva (Nat.le_add_right ..)))
    · rintro _ m₂ ⟨h₂, hun'⟩
      refine ⟨h₂, ?_⟩
      have hset : pagesFrom va j ∪ {(va + j * pgsize) / pgsize} = pagesFrom va (j + 1) := by
        ext v
        simp only [pagesFrom, Set.mem_union, Set.mem_ofPred_eq, Set.mem_singleton_iff]
        rw [Nat.add_mul_div_right _ _ (by decide)]
        omega
      rw [← hset]
      exact hun.trans hun'
    · rintro e ⟨rfl, hmax⟩
      refine Or.inr ⟨rfl, ?_⟩
      have hmul : (j + 1) * pgsize ≤ npages * pgsize :=
        Nat.mul_le_mul_right _ (by omega)
      unfold pgsize at *
      omega
  · refine ⟨h, Unmaps.refl r _ m ?_⟩
    intro vb _ _ _ hmem
    obtain ⟨hlo, hhi⟩ := hmem
    omega

end Unmap

/-! ## §5  `walkaddr` -/

/-- The frame of a page that the process may use. -/
def userFrame (m : Mem) (r va : ℕ) : Option ℕ :=
  if va < maxva ∧ isValid (translate m r va) = true ∧ isUser (translate m r va) = true then
    some (pte2pa (translate m r va))
  else none

theorem walkaddr_eq (alloc : Mem → ℕ) (m : Mem) (r va : ℕ) :
    walkaddr alloc r va m = .ok (userFrame m r va, m) := by
  unfold walkaddr userFrame
  by_cases hva : va < maxva
  swap
  · rw [if_pos (Nat.le_of_not_lt hva), if_neg fun h => hva h.1]
    rfl
  rw [if_neg (Nat.not_le.mpr hva), bind_run (walk_false hva)]
  cases hd : descend next m.word r (vpath va) with
  | none =>
    have hzero : ¬ (va < maxva ∧ isValid 0 = true ∧ isUser 0 = true) := by
      rintro ⟨-, hv, -⟩
      cases hv
    rw [translate, view_of_none hd, if_neg hzero]
    rfl
  | some t =>
    rw [translate, view_of_some hd]
    show (if isValid (m.word t (px 0 va)) = false then pure none
      else if isUser (m.word t (px 0 va)) = false then pure none
      else pure (some (pte2pa (m.word t (px 0 va)))) : VmM (Option ℕ)) m = _
    cases hv : isValid (m.word t (px 0 va)) <;> cases hu : isUser (m.word t (px 0 va)) <;>
      simp [hva] <;> rfl

end RiscvBm.Vm

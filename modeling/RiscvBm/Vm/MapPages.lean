import RiscvBm.Vm.Sound

/-!
# What `mappages` does to one table (`kernel/vm.c`)

The table is any Sv39 table, the kernel's own included: no part of it is set apart. `IsTree`
is read off the memory alone. No frame is reached from the root in two ways, the entries of
the upper two levels are no leaves, and the frames that are reached are in use, so that
`get_free_page` answers with none of them.

`walk` may add up to two tables on its way, which changes no translation; `mappages` then
sets one entry of a bottom table. `Mapped` says what the loop has done after `j` pages, and the
loop ends early only with a page that could not be mapped. The frames in use that are no tables
(`Data`) are left alone.
-/

namespace RiscvBm.Vm

open Radix Wp Function

/-! ## §1  Trees -/

/-- None of `PTE_R`, `PTE_W`, `PTE_X` is set: a valid entry points to a table. -/
def isInner (w : ℕ) : Bool := w &&& (pteR ||| pteW ||| pteX) = 0

structure IsTree (m : Mem) (r : ℕ) : Prop where
  unique : Unique next 512 2 m.word r
  inner : ∀ {σ f i}, IsPath 512 1 σ → descend next m.word r σ = some f → i < 512 →
    isValid (m.word f i) = true → isInner (m.word f i) = true
  used : ∀ {σ f}, IsPath 512 2 σ → descend next m.word r σ = some f → m.useOf f ≠ none

/-- The same, with the place of each table. -/
structure Rooted (m : Mem) (r : ℕ) (place : ℕ → Option (ℕ × List ℕ)) : Prop where
  linked : Linked next (fun _ i => i < 512) 2 m.word place
  root : place r = some (r, [])
  inner : ∀ {f σ i}, place f = some (r, σ) → σ.length < 2 → i < 512 →
    isValid (m.word f i) = true → isInner (m.word f i) = true
  used : ∀ {f x}, place f = some x → m.useOf f ≠ none

/-- A frame of the table at `r`. -/
def TableFrame (m : Mem) (r f : ℕ) : Prop :=
  ∃ σ, IsPath 512 2 σ ∧ descend next m.word r σ = some f

/-- A frame in use that is not one of the tables. -/
def Data (m : Mem) (r f : ℕ) : Prop := m.useOf f ≠ none ∧ ¬ TableFrame m r f

def KeepsData (r : ℕ) (m m' : Mem) : Prop :=
  ∀ f, Data m r f → Data m' r f ∧ m'.word f = m.word f

theorem KeepsData.refl (r : ℕ) (m : Mem) : KeepsData r m m := fun _ hf => ⟨hf, rfl⟩

theorem KeepsData.trans {r : ℕ} {m₁ m₂ m₃ : Mem} (h : KeepsData r m₁ m₂)
    (h' : KeepsData r m₂ m₃) : KeepsData r m₁ m₃ :=
  fun f hf => ⟨(h' f (h f hf).1).1, (h' f (h f hf).1).2.trans (h f hf).2⟩

theorem isInner_mkTable (p : ℕ) : isInner (pa2pte p ||| pteV) = true := by
  have hzero : (pa2pte p ||| pteV) &&& (pteR ||| pteW ||| pteX) = 0 := by
    apply Nat.eq_of_testBit_eq
    intro i
    rw [Nat.testBit_and, Nat.testBit_or, pa2pte, Nat.testBit_shiftLeft, Nat.zero_testBit]
    by_cases hi : i < 10
    · have hlow : ∀ i < 10, (Nat.testBit pteV i && Nat.testBit (pteR ||| pteW ||| pteX) i) =
      false := by
        decide
      rw [decide_eq_false (Nat.not_le.mpr hi), Bool.false_and, Bool.false_or, hlow i hi]
    · have hpow : 2 ^ 10 ≤ 2 ^ i := Nat.pow_le_pow_right Nat.two_pos (Nat.le_of_not_lt hi)
      have hhigh : Nat.testBit (pteR ||| pteW ||| pteX) i = false :=
        Nat.testBit_lt_two_pow (Nat.lt_of_lt_of_le (by decide) hpow)
      rw [hhigh, Bool.and_false]
  rw [isInner, hzero]
  rfl

theorem pteFlags_mkLeaf {p perm : ℕ} (hperm : perm < 1024) :
    pteFlags (pa2pte p ||| perm ||| pteV) = perm ||| pteV := by
  have hlow : pa2pte p &&& 0x3FF = 0 := by
    rw [pa2pte, show 0x3FF = 2 ^ 10 - 1 from rfl, Nat.and_two_pow_sub_one_eq_mod, Nat.shiftLeft_eq,
      Nat.mul_mod_left]
  have hsum : perm ||| pteV < 2 ^ 10 := Nat.or_lt_two_pow hperm (by decide)
  rw [pteFlags, Nat.or_assoc, Nat.and_or_distrib_right, hlow, Nat.zero_or,
    show 0x3FF = 2 ^ 10 - 1 from rfl, Nat.and_two_pow_sub_one_eq_mod, Nat.mod_eq_of_lt hsum]

section Rooted

variable {alloc : Mem → ℕ} {m m' : Mem} {place : ℕ → Option (ℕ × List ℕ)}
variable {r f t p k w i va vb a : ℕ} {σ : List ℕ}

theorem isPath_vpath (va : ℕ) : IsPath 512 2 (vpath va) :=
  ⟨Nat.le_of_eq (length_vpath va), fun _ => lt_of_mem_vpath⟩

theorem IsTree.rooted (h : IsTree m r) : Rooted m r (placeOf next 512 2 m.word r) where
  linked := h.unique.linked
  root := h.unique.placeOf_eq_some.mpr ⟨rfl, isPath_nil, rfl⟩
  inner := by
    intro f σ i hf hlen hi hv
    obtain ⟨-, hσ, hd⟩ := h.unique.placeOf_eq_some.mp hf
    exact h.inner ⟨Nat.le_of_lt_succ hlen, hσ.2⟩ hd hi hv
  used := by
    rintro f ⟨q, σ⟩ hf
    obtain ⟨-, hσ, hd⟩ := h.unique.placeOf_eq_some.mp hf
    exact h.used hσ hd

theorem Rooted.placed (h : Rooted m r place) (hσ : IsPath 512 2 σ)
    (hd : descend next m.word r σ = some t) : place t = some (r, σ) :=
  h.linked.place_of_descend h.root hσ.ownPath hσ.1 hd

theorem Rooted.isTree (h : Rooted m r place) : IsTree m r where
  unique := h.linked.unique h.root
  inner := by
    intro σ f i hσ hd hi hv
    have hσ' : IsPath 512 2 σ := ⟨Nat.le_succ_of_le hσ.1, hσ.2⟩
    exact h.inner (h.placed hσ' hd) (Nat.lt_succ_of_le hσ.1) hi hv
  used := by
    intro σ f hσ hd
    exact h.used (h.placed hσ hd)

theorem Rooted.unplaced (h : Rooted m r place) (hp : m.useOf p = none) : place p = none := by
  by_contra hplace
  obtain ⟨x, hx⟩ := Option.ne_none_iff_exists'.mp hplace
  exact h.used hx hp

theorem Rooted.not_tableFrame (h : Rooted m r place) (hp : place p = none) :
    ¬ TableFrame m r p := by
  rintro ⟨σ, hσ, hd⟩
  rw [h.placed hσ hd] at hp
  cases hp

/-- No frame in use has got another place, and the tables are the only ones that were written. -/
theorem Rooted.keepsData {place' : ℕ → Option (ℕ × List ℕ)} (h : Rooted m r place)
    (h' : Rooted m' r place') (hplace : ∀ f, m.useOf f ≠ none → place' f = place f)
    (hkeep : ∀ f, Data m r f → m'.useOf f ≠ none ∧ m'.word f = m.word f) : KeepsData r m m' := by
  intro f hf
  refine ⟨⟨(hkeep f hf).1, ?_⟩, (hkeep f hf).2⟩
  rintro ⟨σ, hσ, hd⟩
  have hf' := h'.placed hσ hd
  rw [hplace f hf.1] at hf'
  exact hf.2 ⟨σ, hσ, (h.linked.descend_of_place hf').2⟩

theorem Rooted.tick (h : Rooted m r place) : Rooted m.tick r place :=
  ⟨h.linked, h.root, h.inner, h.used⟩

/-! ## §2  A new table -/

theorem Rooted.link (h : Rooted m r place) (hp : place p = none) (hf : place f = some (r, σ))
    (hlen : σ.length < 2) (hi : i < 512) (hempty : next (m.word f i) = none) :
    Rooted (m.link p f i r σ) r (update place p (some (r, σ ++ [i]))) where
  linked := by
    apply (h.linked.fill hp fun _ => 0).link hf hlen hi
    · rw [fill_of_ne _ _ (Linked.ne_of_place hf hp)]
      exact hempty
    · exact hp
    · intro j
      rw [fill_same, next_zero]
    · exact next_mkTable
  root := by rw [update_of_ne (Linked.ne_of_place h.root hp), h.root]
  inner := by
    intro g τ j hg hτ hj hv
    rw [word_link] at hv ⊢
    by_cases hslot : g = f ∧ j = i
    · obtain ⟨rfl, rfl⟩ := hslot
      rw [write_same]
      exact isInner_mkTable p
    rw [write_of_ne _ _ hslot] at hv ⊢
    by_cases hgp : g = p
    · -- the new table is empty
      rw [hgp, fill_same] at hv
      cases hv
    · rw [fill_of_ne _ _ hgp] at hv ⊢
      rw [update_of_ne hgp] at hg
      exact h.inner hg hτ hj hv
  used := by
    intro g x hg
    by_cases hgp : g = p
    · rw [hgp]
      show (m.take p .table).useOf p ≠ none
      rw [useOf_take_self]
      exact Option.some_ne_none _
    · rw [update_of_ne hgp] at hg
      show (m.take p .table).useOf g ≠ none
      rw [useOf_take_of_ne hgp]
      exact h.used hg

theorem Rooted.translate_link (h : Rooted m r place) (hp : place p = none)
    (hf : place f = some (r, σ)) (hlen : σ.length < 2) (hempty : next (m.word f i) = none) :
    translate (m.link p f i r σ) r vb = translate m r vb := by
  have hpath := isPath_vpath vb
  have hne : σ ≠ vpath vb := by
    rintro rfl
    exact absurd (length_vpath vb) (Nat.ne_of_lt hlen)
  calc translate (m.link p f i r σ) r vb
      = view next 0 (fill m.word p fun _ => 0) r (vpath vb) (px 0 vb) := by
        apply (h.linked.fill hp fun _ => 0).view_link hf _ hp _ next_zero next_mkTable h.root
          hpath.ownPath hpath.1 hne
        · rw [fill_of_ne _ _ (Linked.ne_of_place hf hp)]
          exact hempty
        · intro j
          rw [fill_same]
    _ = translate m r vb := h.linked.view_fill hp _ h.root hpath.ownPath hpath.1

/-! ## §3  `walk` -/

/-- The table at `r` may have new tables below it. -/
structure Deeper (r : ℕ) (m m' : Mem) : Prop where
  tree : ∃ place, Rooted m' r place
  same : ∀ vb, translate m' r vb = translate m r vb
  data : KeepsData r m m'

/-- A frame on the way to an address is a table. -/
theorem Rooted.tableFrame (h : Rooted m r place) {τ : List ℕ} (hpath : vpath va = σ ++ τ)
    (hf : place f = some (r, σ)) : TableFrame m r f := by
  refine ⟨σ, ⟨?_, fun i hi => ?_⟩, (h.linked.descend_of_place hf).2⟩
  · rw [← length_vpath va, hpath, List.length_append]
    exact Nat.le_add_right _ _
  · exact lt_of_mem_vpath (show i ∈ vpath va by rw [hpath]; exact List.mem_append_left _ hi)

theorem Rooted.keepsData_link (h : Rooted m r place) {τ : List ℕ} (hpath : vpath va = σ ++ i :: τ)
    (hp : m.useOf p = none) (hf : place f = some (r, σ)) (hempty : next (m.word f i) = none) :
    KeepsData r m (m.link p f i r σ) := by
  have hi : i < 512 := lt_of_mem_vpath (show i ∈ vpath va by simp [hpath])
  have hne : ∀ g, m.useOf g ≠ none → g ≠ p := by
    rintro g hg rfl
    exact hg hp
  apply h.keepsData (h.link (h.unplaced hp) hf (length_lt_of_vpath hpath) hi hempty)
  · exact fun g hg => update_of_ne (hne g hg) ..
  · intro g hg
    constructor
    · show (m.take p .table).useOf g ≠ none
      rw [useOf_take_of_ne (hne g hg.1)]
      exact hg.1
    · funext j
      rw [word_link, write_of_ne, fill_of_ne _ _ (hne g hg.1)]
      rintro ⟨rfl, -⟩
      exact hg.2 (h.tableFrame hpath hf)

/-- The entry for `va`, in a bottom table that may be new. -/
theorem wp_walk_tree (h : Rooted m r place) :
    wp (walk alloc r va true)
      (fun o m' => Deeper r m m' ∧ (o = none → ∃ m₁, ¬ Answer alloc m₁ (alloc m₁)) ∧
        ∀ t k, o = some (t, k) → descend next m'.word r (vpath va) = some t ∧ k = px 0 va)
      (fun _ => maxva ≤ va) m := by
  refine wp_walk_loop (I := fun σ f m' => (∀ vb, translate m' r vb = translate m r vb) ∧
    KeepsData r m m' ∧ ∃ place, Rooted m' r place ∧ place f = some (r, σ)) (fun hge => hge)
    ⟨fun _ => rfl, KeepsData.refl r m, place, h, h.root⟩ ?_ ?_ (by simp) ?_ ?_
  · rintro σ i τ f g m' hpath ⟨hsame, hdata, place, h', hf⟩ hnext
    have hi : i < 512 := lt_of_mem_vpath (show i ∈ vpath va by simp [hpath])
    exact ⟨hsame, hdata, place, h', h'.linked.down hf (length_lt_of_vpath hpath) hi hnext⟩
  · rintro σ i τ f p m' hpath ⟨hsame, hdata, place, h', hf⟩ hempty hp
    have hi : i < 512 := lt_of_mem_vpath (show i ∈ vpath va by simp [hpath])
    have hlen := length_lt_of_vpath hpath
    have hfree := h'.unplaced hp.2.2
    exact ⟨fun vb => (h'.translate_link hfree hf hlen hempty).trans (hsame vb),
      hdata.trans (h'.keepsData_link hpath hp.2.2 hf hempty), _,
      h'.link hfree hf hlen hi hempty, update_self ..⟩
  · rintro σ i τ f m' - ⟨hsame, hdata, place, h', -⟩ hfull
    exact ⟨⟨⟨place, h'.tick⟩, hsame, hdata⟩, fun _ => ⟨m', hfull⟩, by simp⟩
  · rintro t m' ⟨hsame, hdata, place, h', ht⟩
    refine ⟨⟨⟨place, h'⟩, hsame, hdata⟩, by simp, ?_⟩
    rintro t k ⟨⟩
    exact ⟨(h'.linked.descend_of_place ht).2, rfl⟩

/-! ## §4  An entry of a bottom table -/

theorem Rooted.setLeaf (h : Rooted m r place) (ht : place t = some (r, vpath va)) :
    Rooted (m.setWord t k w) r place where
  linked := by
    apply h.linked.write
    intro q τ hq hlt
    rw [ht] at hq
    cases hq
    exact absurd (length_vpath va) (Nat.ne_of_lt hlt)
  root := h.root
  inner := by
    intro g τ j hg hτ hj hv
    have hslot : ¬ (g = t ∧ j = k) := by
      rintro ⟨rfl, -⟩
      rw [ht] at hg
      cases hg
      exact absurd (length_vpath va) (Nat.ne_of_lt hτ)
    change isValid (write m.word t k w g j) = true at hv
    change isInner (write m.word t k w g j) = true
    rw [write_of_ne _ _ hslot] at hv ⊢
    exact h.inner hg hτ hj hv
  used := h.used

theorem Rooted.translate_setLeaf (h : Rooted m r place) (ht : place t = some (r, vpath va))
    (hva : va < 2 ^ 39) (hvb : vb < 2 ^ 39) :
    translate (m.setWord t (px 0 va) w) r vb =
      if vb / pgsize = va / pgsize then w else translate m r vb := by
  have hview : translate (m.setWord t (px 0 va) w) r vb = _ :=
    h.linked.view_write ht (length_vpath va) h.root (isPath_vpath vb).ownPath (length_vpath vb)
  rw [hview]
  by_cases hpage : vb / pgsize = va / pgsize
  · rw [if_pos ⟨rfl, (page_eq_iff hvb hva).mpr hpage⟩, if_pos hpage]
  · rw [if_neg fun hslot => hpage ((page_eq_iff hvb hva).mp hslot.2), if_neg hpage]
    rfl

theorem Rooted.keepsData_setLeaf (h : Rooted m r place) (ht : place t = some (r, vpath va)) :
    KeepsData r m (m.setWord t k w) := by
  apply h.keepsData (h.setLeaf ht) fun _ _ => rfl
  intro f hf
  refine ⟨hf.1, funext fun j => write_of_ne _ _ ?_⟩
  rintro ⟨rfl, -⟩
  exact hf.2 (h.tableFrame (List.append_nil _).symm ht)

/-! ## §5  The loop of `mappages` -/

/-- `j` pages from `a` on have been mapped to the frames from `p` on. -/
structure Mapped (r perm a p j : ℕ) (m m' : Mem) : Prop where
  below : ∀ i < j, a + i * pgsize < maxva
  fresh : ∀ i < j, isValid (translate m r (a + i * pgsize)) = false
  new : ∀ i < j, translate m' r (a + i * pgsize) = pa2pte (nextFrame^[i] p) ||| perm ||| pteV
  others : ∀ vb < 2 ^ 39, (∀ i < j, vb / pgsize ≠ a / pgsize + i) →
    translate m' r vb = translate m r vb

theorem Mapped.of_deeper {perm : ℕ} (h : Deeper r m m') : Mapped r perm a p 0 m m' :=
  ⟨fun _ hi => absurd hi (Nat.not_lt_zero _), fun _ hi => absurd hi (Nat.not_lt_zero _),
    fun _ hi => absurd hi (Nat.not_lt_zero _), fun vb _ _ => h.same vb⟩

/-- One page, and then `j` more. -/
theorem Mapped.cons {perm j : ℕ} {m₁ m₂ : Mem} (ha : a < maxva)
    (hfresh : isValid (translate m r a) = false)
    (hone : ∀ vb < 2 ^ 39, translate m₁ r vb =
      if vb / pgsize = a / pgsize then pa2pte p ||| perm ||| pteV else translate m r vb)
    (h : Mapped r perm (a + pgsize) (nextFrame p) j m₁ m₂) :
    Mapped r perm a p (j + 1) m m₂ := by
  have hstep := page_succ a
  have hshift : ∀ i, a + (i + 1) * pgsize = a + pgsize + i * pgsize := by
    intro i
    rw [Nat.succ_mul]
    omega
  have hbelow : ∀ i < j + 1, a + i * pgsize < maxva := by
    intro i hi
    cases i with
    | zero =>
      rw [Nat.zero_mul, Nat.add_zero]
      exact ha
    | succ i =>
      rw [hshift]
      exact h.below i (Nat.lt_of_succ_lt_succ hi)
  have hlt : ∀ i < j + 1, a + i * pgsize < 2 ^ 39 := fun i hi => (hbelow i hi).trans maxva_lt
  refine ⟨hbelow, ?_, ?_, ?_⟩
  · intro i hi
    cases i with
    | zero =>
      rw [Nat.zero_mul, Nat.add_zero]
      exact hfresh
    | succ i =>
      -- the first page was another one
      have hold := h.fresh i (Nat.lt_of_succ_lt_succ hi)
      rw [← hshift, hone _ (hlt _ hi), page_add, if_neg (by omega)] at hold
      exact hold
  · intro i hi
    cases i with
    | zero =>
      rw [Nat.zero_mul, Nat.add_zero]
      rw [h.others a (ha.trans maxva_lt) (by intro i _; omega), hone a (ha.trans maxva_lt),
        if_pos rfl]
      rfl
    | succ i => rw [hshift, h.new i (Nat.lt_of_succ_lt_succ hi), iterate_succ_apply]
  · intro vb hvb hout
    have hfirst := hout 0 (Nat.succ_pos j)
    rw [Nat.add_zero] at hfirst
    rw [h.others vb hvb, hone vb hvb, if_neg hfirst]
    intro i hi
    have := hout (i + 1) (Nat.succ_lt_succ hi)
    omega

/-- What a run of the loop over `n` pages leads to; it stops at a page that is mapped already or
for which there is no table. -/
structure Ran (alloc : Mem → ℕ) (r perm a p n : ℕ) (m : Mem) (b : Bool) (m' : Mem) : Prop where
  tree : IsTree m' r
  data : KeepsData r m m'
  mapped : ∃ j ≤ n, (b = true ↔ j = n) ∧ Mapped r perm a p j m m' ∧
    (b = false → (∃ m₁, ¬ Answer alloc m₁ (alloc m₁)) ∨
      isValid (translate m' r (a + j * pgsize)) = true)

theorem wp_mapLoop_tree {perm n : ℕ} (h : Rooted m r place) :
    wp (mapLoop alloc r perm n a p) (Ran alloc r perm a p n m)
      (fun _ => maxva < a + n * pgsize) m := by
  induction n generalizing m a p place with
  | zero =>
    refine wp_pure ⟨h.isTree, KeepsData.refl r m, 0, Nat.le_refl 0, by simp, ?_, by simp⟩
    exact Mapped.of_deeper ⟨⟨place, h⟩, fun _ => rfl, KeepsData.refl r m⟩
  | succ n ih =>
    have hpos : 0 < pgsize := by decide
    have hsplit : ∀ n, a + (n + 1) * pgsize = a + pgsize + n * pgsize := by
      intro n
      rw [Nat.succ_mul]
      omega
    unfold mapLoop
    by_cases ha : a < maxva
    swap
    · have hpanic : wp (walk alloc r a true) (fun _ _ => False)
          (fun _ => maxva < a + (n + 1) * pgsize) m := by
        rw [walk, if_pos (Nat.le_of_not_lt ha)]
        exact wp_throw (by rw [hsplit]; omega)
      exact wp_bind hpanic fun _ _ hno => hno.elim
    have ha39 := Nat.lt_trans ha maxva_lt
    apply wp_bind (wp_error (wp_walk_tree h) fun _ hge =>
      absurd ha (Nat.not_lt.mpr hge))
    rintro o m₁ ⟨hdeep, hrefused, hslot⟩
    obtain ⟨place₁, h₁⟩ := hdeep.tree
    have hstop : ((∃ m₁, ¬ Answer alloc m₁ (alloc m₁)) ∨ isValid (translate m₁ r a) = true) →
        Ran alloc r perm a p (n + 1) m false m₁ := by
      intro hwhy
      refine ⟨h₁.isTree, hdeep.data, 0, Nat.zero_le _, by simp, Mapped.of_deeper hdeep, fun _ => ?_⟩
      rwa [Nat.zero_mul, Nat.add_zero]
    rcases o with _ | ⟨t, k⟩
    · exact wp_pure (hstop (Or.inl (hrefused rfl)))
    · obtain ⟨hd, rfl⟩ := hslot t k rfl
      have ht := h₁.placed (isPath_vpath a) hd
      have hentry : translate m₁ r a = m₁.word t (px 0 a) := view_of_some hd
      apply wp_get
      apply wp_ite
      · intro hv
        exact wp_pure (hstop (Or.inr (by rw [hentry, hv])))
      intro hv
      apply wp_modify_bind
      have hfresh : isValid (translate m r a) = false := by
        rw [← hdeep.same, hentry]
        exact Bool.eq_false_iff.mpr hv
      refine wp_mono (ih (h₁.setLeaf ht)) ?_ fun _ hbig => hsplit n ▸ hbig
      rintro b m₂ ⟨htree, hdata, j, hj, hb, hmapped, hwhy⟩
      refine ⟨htree, hdeep.data.trans ((h₁.keepsData_setLeaf ht).trans hdata), j + 1,
        Nat.succ_le_succ hj, by rw [hb, Nat.succ_inj], ?_, by rwa [hsplit j]⟩
      apply Mapped.cons ha hfresh _ hmapped
      intro vb hvb
      rw [h₁.translate_setLeaf ht ha39 hvb, hdeep.same]

end Rooted

/-! ## §6  `mappages` -/

theorem iterate_nextFrame {p : ℕ} (hp : p < 2 ^ 52) (i : ℕ) :
    nextFrame^[i] p = (p + i) % 2 ^ 52 := by
  induction i with
  | zero => rw [iterate_zero_apply, Nat.add_zero, Nat.mod_eq_of_lt hp]
  | succ i ih => rw [iterate_succ_apply', ih, nextFrame, Nat.mod_add_mod, Nat.add_assoc]

/-- `mappages` maps a prefix of the pages asked for, all of them if it returns 0, and changes
no other translation. -/
theorem mappages_exact (alloc : Mem → ℕ) (m : Mem) (r va size p perm : ℕ) (h : IsTree m r)
    (hsize : 0 < size) (hva : va + size ≤ maxva) (hp : p < 2 ^ 52) (hperm : perm < 1024) :
    ∃ b m' j, mappages alloc r va size p perm m = .ok (b, m') ∧ IsTree m' r ∧
      (∀ i < j, pgRoundDown va + i * pgsize ≤ pgRoundDown (va + size - 1)) ∧
      (b = true ↔ ∀ i, pgRoundDown va + i * pgsize ≤ pgRoundDown (va + size - 1) → i < j) ∧
      (∀ i < j, isValid (translate m r (pgRoundDown va + i * pgsize)) = false ∧
        pte2pa (translate m' r (pgRoundDown va + i * pgsize)) = (p + i) % 2 ^ 52 ∧
        pteFlags (translate m' r (pgRoundDown va + i * pgsize)) = perm ||| pteV) ∧
      ∀ vb < 2 ^ 39, (∀ i < j, pgRoundDown vb ≠ pgRoundDown va + i * pgsize) →
        translate m' r vb = translate m r vb := by
  have hpage : ∀ i, pgRoundDown va + i * pgsize = (va / pgsize + i) * pgsize := by
    intro i
    rw [pgRoundDown, Nat.add_mul]
  have hle : ∀ i, pgRoundDown va + i * pgsize ≤ pgRoundDown (va + size - 1) ↔
      i < (va + size - 1) / pgsize - va / pgsize + 1 := by
    intro i
    have hmono : va / pgsize ≤ (va + size - 1) / pgsize := Nat.div_le_div_right (by omega)
    rw [hpage, pgRoundDown, Nat.mul_le_mul_right_iff (by decide)]
    omega
  have hbound : pgRoundDown va + ((va + size - 1) / pgsize - va / pgsize + 1) * pgsize ≤ maxva := by
    have hmono : va / pgsize ≤ (va + size - 1) / pgsize := Nat.div_le_div_right (by omega)
    have hlast : (va + size - 1) / pgsize < maxva / pgsize := by
      rw [Nat.div_lt_iff_lt_mul (by decide), show maxva / pgsize * pgsize = maxva by decide]
      omega
    have hmul := Nat.mul_le_mul_right pgsize (Nat.succ_le_of_lt hlast)
    rw [show maxva / pgsize * pgsize = maxva by decide] at hmul
    rw [hpage, ← Nat.add_assoc, Nat.add_sub_cancel' hmono]
    exact hmul
  have hrun : wp (mapLoop alloc r perm _ _ p) _ noError m :=
    wp_error (wp_mapLoop_tree h.rooted) fun _ hbig => absurd hbound (Nat.not_le.mpr hbig)
  obtain ⟨b, m', hok, htree, -, j, hj, hb, hmapped, -⟩ := exists_of_wp hrun
  rw [mappages, if_neg (Nat.pos_iff_ne_zero.mp hsize)]
  refine ⟨b, m', j, hok, htree, ?_, ?_, ?_, ?_⟩
  · intro i hi
    exact (hle i).mpr (Nat.lt_of_lt_of_le hi hj)
  · rw [hb]
    constructor
    · rintro rfl i hi
      exact (hle i).mp hi
    · intro hall
      have hlast := hall _ ((hle ((va + size - 1) / pgsize - va / pgsize)).mpr (Nat.lt_succ_self _))
      omega
  · intro i hi
    refine ⟨hmapped.fresh i hi, ?_, ?_⟩
    · rw [hmapped.new i hi, pte2pa_mkPte hperm, iterate_nextFrame hp]
    · rw [hmapped.new i hi, pteFlags_mkLeaf hperm]
  · intro vb hvb hout
    apply hmapped.others vb hvb
    intro i hi hpageEq
    apply hout i hi
    have hdiv : pgRoundDown va / pgsize = va / pgsize := Nat.mul_div_cancel _ (by decide)
    rw [hdiv] at hpageEq
    rw [hpage, pgRoundDown, hpageEq]

/-- An empty table in frame 1. -/
def blank : Mem := boot emptyKernel [(1, .kernel)]

theorem isTree_blank : IsTree blank 1 := by
  have hroot : ∀ σ f, descend next blank.word 1 σ = some f → σ = [] ∧ f = 1 := by
    intro σ f hd
    cases σ with
    | nil => exact ⟨rfl, (Option.some.inj hd).symm⟩
    | cons i σ =>
      rw [descend, show blank.word 1 i = 0 from rfl, next_zero] at hd
      cases hd
  constructor
  · intro σ τ f _ _ hd hd'
    rw [(hroot σ f hd).1, (hroot τ f hd').1]
  · intro σ f i _ _ _ hv
    rw [show blank.word f i = 0 from rfl] at hv
    cases hv
  · intro σ f _ hd
    rw [(hroot σ f hd).2]
    decide

theorem mappages_exact_blank :
    IsTree blank 1 ∧ ∃ m',
      mappages (fun m => m.calls + 2) 1 0x1800 0x1000 77 pteR blank = .ok (true, m') ∧
      IsTree m' 1 ∧ pte2pa (translate m' 1 0x2000) = 78 := by
  have hzero : (match mappages (fun m => m.calls + 2) 1 0x1800 0x1000 77 pteR blank with
      | .ok (b, _) => b
      | .error _ => false) = true := by
    decide +kernel
  obtain ⟨b, m', j, hok, htree, -, hall, hnew, -⟩ :=
    mappages_exact (fun m => m.calls + 2) blank 1 0x1800 0x1000 77 pteR isTree_blank (by decide)
      (by decide) (by decide) (by decide)
  rw [hok] at hzero
  change b = true at hzero
  subst hzero
  exact ⟨isTree_blank, m', hok, htree, (hnew 1 (hall.mp rfl 1 (by decide))).2.1⟩

end RiscvBm.Vm

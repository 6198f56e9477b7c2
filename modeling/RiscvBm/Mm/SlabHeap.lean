import RiscvBm.Mm.Slab

/-!
# Integrity of the kernel heap

In every run the walk along `free_slob_list` finds nothing, because the pages
that `slob_alloc` prepares are never put on it: each small object has a page of
its own, and `kfree` gives that page back with the order it finds in
`slob_left_units`. That field is 0 unless an earlier large object began at the
same page. `heapOk_iff` shows that this is the only way to go wrong.
-/

namespace RiscvBm.Slab

open BitOps RiscvBm.Dyadic Transition Wp Function

/-! ## §1  Reading the trace -/

/-- The blocks taken from the buddy system and not given back. -/
def held : List Event → List (ℕ × ℕ)
  | [] => []
  | .get p k :: t => (p, k) :: held t
  | .free p k :: t => (held t).erase (p, k)
  | .alloc _ :: t => held t
  | .drop _ :: t => held t

/-- The live objects. -/
def live : List Event → List Obj
  | [] => []
  | .alloc o :: t => o :: live t
  | .drop o :: t => (live t).erase o
  | .get _ _ :: t => live t
  | .free _ _ :: t => live t

/-- `x` is one of the bytes `[ptr, ptr + size)`. -/
def Obj.Has (o : Obj) (x : ℕ) : Prop := o.ptr ≤ x ∧ x < o.ptr + o.size

/-- Every `free_pages` releases a block that was taken with the same first page
and order, and that holds no live object. -/
def GoodFrees : List Event → Prop
  | [] => True
  | .free p k :: t =>
    (p, k) ∈ held t ∧ (∀ o ∈ live t, ∀ x, o.Has x → ¬ InBlock p k (x / pgsize)) ∧ GoodFrees t
  | .get _ _ :: t => GoodFrees t
  | .alloc _ :: t => GoodFrees t
  | .drop _ :: t => GoodFrees t

/-- Heap integrity in one state; `B` are the pages of the buddy system. -/
structure HeapOk (B : ℕ → Prop) (s : St) : Prop where
  frees : GoodFrees s.trace
  disjoint : (live s.trace).Pairwise fun a b => ∀ x, a.Has x → ¬ b.Has x
  returned : live s.trace = [] → ∀ x, B x → PageAlloc.FreePage s.mem x

/-! ## §2  Runs -/

inductive Act where
  | kmalloc (size : ℕ)
  | kfree (ptr : ℕ)
deriving DecidableEq, Repr

/-- The largest block of the buddy system, in bytes. -/
def maxSize : ℕ := pgsize * 2 ^ (maxOrder - 1)

/-- A request is one the buddy system can serve; `kfree` gets a live object. -/
def step (s : St) (a : Act) : Option St :=
  if s.crashed then none
  else match a with
    | .kmalloc size =>
      if size ≤ maxSize then
        match kmalloc size s with
        | .ok (some ptr, s') => some { s' with trace := .alloc ⟨ptr, size⟩ :: s'.trace }
        | .ok (none, s') => some s'
        | .error _ => none
      else none
    | .kfree ptr =>
      match (live s.trace).find? fun o => o.ptr = ptr with
      | none => none
      | some o =>
        match kfree ptr { s with trace := .drop o :: s.trace } with
        | .ok (_, s') => some s'
        | .error _ => none

/-- `kfree` of a small object finds 0 in the `slob_left_units` of its page. -/
def CleanPage (s : St) (a : Act) : Prop :=
  ∀ o ∈ live s.trace, a = .kfree o.ptr → Small o.size →
    (s.desc (.page (o.ptr / pgsize))).leftUnits = 0

/-! ## §3  What the functions do -/

variable {B : ℕ → Prop} {s s' : St}

/-- Only the slob memory and the descriptor at the list head differ. -/
structure SameReal (s s' : St) : Prop where
  mem : s'.mem = s.mem
  trace : s'.trace = s.trace
  crashed : s'.crashed = s.crashed
  list : s'.list = s.list
  desc : ∀ pfn, s'.desc (.page pfn) = s.desc (.page pfn)

theorem SameReal.trans {s t u : St} (h₁ : SameReal s t) (h₂ : SameReal t u) : SameReal s u :=
  ⟨h₂.mem.trans h₁.mem, h₂.trace.trans h₁.trace, h₂.crashed.trans h₁.crashed,
    h₂.list.trans h₁.list, fun pfn => (h₂.desc pfn).trans (h₁.desc pfn)⟩

theorem sameReal_setDesc (s : St) (d : Desc) : SameReal s (setDesc s .listHead d) :=
  ⟨rfl, rfl, rfl, rfl, fun pfn => by simp [setDesc]⟩

theorem sameReal_setSlob (s : St) (b : ℕ) (size : ℤ) (next : ℕ) :
    SameReal s (setSlob s b size next) := by
  unfold setSlob
  dsimp only
  split_ifs <;> exact ⟨rfl, rfl, rfl, rfl, fun _ => rfl⟩

/-- A block with room for the object is used at once. -/
theorem slobPageAlloc_spec {b size : ℕ} (hfree : (s.desc .listHead).freelist = b)
    (hunits : (unitsOf size : ℤ) ≤ slobUnits s b) :
    wp (slobPageAlloc .listHead size) (fun r s' => r = some b ∧ SameReal s s') noError s := by
  refine wp_get ?_
  rw [hfree, slobPageAllocLoop]
  refine wp_get (wp_ite (fun _ => ?_) (fun h => absurd hunits h))
  refine wp_modify_bind (wp_pure ⟨rfl, ?_⟩)
  refine SameReal.trans ?_ (sameReal_setDesc _ _)
  split_ifs
  · exact sameReal_setDesc s _
  · exact (sameReal_setDesc s _).trans (sameReal_setSlob _ _ _ _)

theorem getFreePages_spec {h : List (ℕ × ℕ)} (hinv : PageAlloc.Inv B s.mem h) (h0 : ¬ B 0)
    (k : ℕ) :
    wp (getFreePages k) (fun a s' => (a = 0 ∧ s' = s) ∨
      ∃ p m, a = p * pgsize ∧ p ≠ 0 ∧ PageAlloc.Inv B m ((p, k) :: h) ∧
        s' = { s with mem := m, trace := .get p k :: s.trace }) noError s := by
  unfold wp getFreePages
  rcases PageAlloc.allocPages_spec k hinv with ⟨hrun, -⟩ | ⟨p, m, hrun, hinv'⟩ <;> rw [hrun]
  · exact Or.inl ⟨rfl, rfl⟩
  · refine Or.inr ⟨p, m, rfl, ?_, hinv', rfl⟩
    rintro rfl
    exact h0 (hinv'.mem_of_inBlock (inBlock_self 0 k))

/-- The fresh page is described at the list head: the list stays empty. -/
theorem freshPage_spec {t : St} (hlist : t.list = []) (b : ℕ) :
    SameReal t (freshPage t .listHead b) ∧
    ((freshPage t .listHead b).desc .listHead).freelist = b ∧
    slobUnits (freshPage t .listHead b) b = unitsOf pgsize := by
  have h1 : (1 : ℤ) < unitsOf pgsize := by decide
  have h0 : unitsOf pgsize ≠ 0 := by decide
  have hsame := (sameReal_setDesc t ⟨true, b, unitsOf pgsize⟩).trans
    (sameReal_setSlob _ b (unitsOf pgsize) (b + pgsize))
  refine ⟨⟨hsame.mem, hsame.trace, hsame.crashed, hlist.symm, hsame.desc⟩, ?_, ?_⟩
  · simp [freshPage, initLru, setSlob, setDesc, h1]
  · simp [freshPage, initLru, slobUnits, setSlob, h1, h0]

/-- With an empty `free_slob_list`, `slob_alloc` takes a page of its own and uses
its beginning. -/
theorem slobAlloc_spec {h : List (ℕ × ℕ)} (hinv : PageAlloc.Inv B s.mem h) (h0 : ¬ B 0)
    (hlist : s.list = []) {size : ℕ} (hsize : size ≤ pgsize) :
    wp (slobAlloc size) (fun r s' => (r = none ∧ s' = s) ∨
      ∃ p m, r = some (p * pgsize) ∧ PageAlloc.Inv B m ((p, 0) :: h) ∧
        SameReal { s with mem := m, trace := .get p 0 :: s.trace } s') noError s := by
  refine wp_get ?_
  rw [hlist]
  apply wp_pure_bind
  refine wp_bind (getFreePages_spec hinv h0 0) ?_
  rintro a t (⟨rfl, ht⟩ | ⟨p, m, rfl, hp, hm, ht⟩)
  · rw [ht]
    exact wp_ite (fun _ => wp_pure (Or.inl ⟨rfl, rfl⟩)) (fun h => absurd rfl h)
  refine wp_ite (fun h => ?_) (fun _ => ?_)
  · exact absurd h (Nat.mul_ne_zero hp (by decide))
  have htlist : t.list = [] := by
    rw [ht]
    exact hlist
  obtain ⟨hfresh, hfree, hunits⟩ := freshPage_spec htlist (p * pgsize)
  refine wp_modify_bind (wp_bind (slobPageAlloc_spec hfree ?_) ?_)
  · rw [hunits, Nat.cast_le]
    exact Nat.div_le_div_right (Nat.add_le_add_right hsize 1)
  · rintro r u ⟨rfl, hu⟩
    refine wp_modify_bind (wp_pure (Or.inr ⟨p, m, rfl, hm, ?_⟩))
    have hboth := hfresh.trans hu
    rw [ht, hlist] at hboth
    exact ⟨hboth.mem, hboth.trace, hboth.crashed, hboth.list, hboth.desc⟩

/-! ## §4  The invariant -/

/-- The block an object lies in. -/
def blockOf (o : Obj) : ℕ × ℕ :=
  (o.ptr / pgsize, if Small o.size then 0 else getOrder (roundUp o.size))

/-- Where `kmalloc` puts an object in its block. -/
structure Placed (s : St) (o : Obj) : Prop where
  size_le : o.size ≤ maxSize
  small : Small o.size → o.ptr % pgsize = align
  large : ¬ Small o.size → o.ptr % pgsize = 0 ∧
    (s.desc (.page (o.ptr / pgsize))).leftUnits = getOrder (roundUp o.size)

structure Inv (B : ℕ → Prop) (s : St) : Prop where
  crashed : s.crashed = false
  list : s.list = []
  no_slab : ∀ pfn, (s.desc (.page pfn)).slab = false
  units : ∀ pfn, 0 ≤ (s.desc (.page pfn)).leftUnits ∧ (s.desc (.page pfn)).leftUnits < maxOrder
  buddy : PageAlloc.Inv B s.mem (held s.trace)
  blocks : (held s.trace).Perm ((live s.trace).map blockOf)
  placed : ∀ o ∈ live s.trace, Placed s o
  frees : GoodFrees s.trace

theorem inv_init {mem : PageAlloc.St} (h : PageAlloc.Inv B mem []) : Inv B (init mem) where
  crashed := rfl
  list := rfl
  no_slab _ := rfl
  units _ := by simp [init, maxOrder]
  buddy := h
  blocks := by simp [init, held, live]
  placed o ho := by simp [init, live] at ho
  frees := trivial

theorem roundUp_spec {size : ℕ} (h : size ≤ maxSize) :
    size ≤ roundUp size ∧ roundUp size < 2 ^ 64 := by
  simp only [maxSize, pgsize, maxOrder] at h
  unfold roundUp
  omega

/-- An object lies inside the pages of its block. -/
theorem Placed.inBlock {o : Obj} (h : Placed s o) {x : ℕ} (hx : o.Has x) :
    InBlock (blockOf o).1 (blockOf o).2 (x / pgsize) := by
  obtain ⟨hle, hlt⟩ := roundUp_spec h.size_le
  obtain ⟨h₁, h₂⟩ := hx
  have hdm := Nat.div_add_mod o.ptr pgsize
  refine ⟨Nat.div_le_div_right h₁, ?_⟩
  rw [Nat.div_lt_iff_lt_mul (by decide)]
  unfold blockOf
  dsimp only
  split_ifs with hs
  · have hptr := h.small hs
    have hs' : roundUp o.size < pgsize - align := hs
    simp only [pgsize, align, pow_zero] at *
    omega
  · obtain ⟨hptr, -⟩ := h.large hs
    have hpos : 0 < roundUp o.size := by
      by_contra h0
      exact hs (show roundUp o.size < pgsize - align by
        simp only [pgsize, align]
        omega)
    have hord := (getOrder_spec hpos hlt).1
    rw [add_mul]
    simp only [pgsize] at *
    omega

theorem Inv.apart (h : Inv B s) : (live s.trace).Pairwise fun a b =>
    ∀ x, InBlock (blockOf a).1 (blockOf a).2 x → ¬ InBlock (blockOf b).1 (blockOf b).2 x :=
  List.pairwise_map.mp ((h.blocks.pairwise_iff fun hab x hb ha => hab x ha hb).mp
    h.buddy.out_disjoint)

/-- Bytes of different live objects are different. -/
theorem Inv.disjoint (h : Inv B s) :
    (live s.trace).Pairwise fun a b => ∀ x, a.Has x → ¬ b.Has x := by
  refine List.Pairwise.imp_of_mem ?_ h.apart
  intro a b ha hb hab x hxa hxb
  exact hab _ ((h.placed a ha).inBlock hxa) ((h.placed b hb).inBlock hxb)

theorem Inv.heapOk (h : Inv B s) : HeapOk B s where
  frees := h.frees
  disjoint := h.disjoint
  returned hl x hx := by
    have hheld : held s.trace = [] := by
      have := h.blocks
      rw [hl] at this
      exact List.perm_nil.mp this
    rw [h.buddy.freePage_iff, hheld]
    exact ⟨hx, by simp⟩

/-! ## §5  `kmalloc` keeps it -/

/-- The block `(p, k)` was taken and an object put into it. -/
theorem inv_alloc {p k : ℕ} {o : Obj} (h : Inv B s)
    (hm : PageAlloc.Inv B s'.mem ((p, k) :: held s.trace)) (hblock : blockOf o = (p, k))
    (htrace : s'.trace = .get p k :: s.trace) (hcrashed : s'.crashed = false)
    (hlist : s'.list = [])
    (hdesc : ∀ pfn, pfn ≠ p → s'.desc (.page pfn) = s.desc (.page pfn))
    (hslab : (s'.desc (.page p)).slab = false)
    (hunits : 0 ≤ (s'.desc (.page p)).leftUnits ∧ (s'.desc (.page p)).leftUnits < maxOrder)
    (hplaced : Placed s' o) : Inv B { s' with trace := .alloc o :: s'.trace } := by
  have hheld : held s'.trace = (p, k) :: held s.trace := by rw [htrace, held]
  have hlive : live s'.trace = live s.trace := by rw [htrace, live]
  refine
    { crashed := hcrashed
      list := hlist
      no_slab := fun pfn => ?_
      units := fun pfn => ?_
      buddy := ?_
      blocks := ?_
      placed := fun o' ho' => ?_
      frees := ?_ }
  · cases h
    grind [update_apply]
  · cases h
    grind [update_apply]
  · show PageAlloc.Inv B s'.mem (held s'.trace)
    rw [hheld]
    exact hm
  · show (held s'.trace).Perm ((o :: live s'.trace).map blockOf)
    rw [hheld, hlive, List.map_cons, hblock]
    exact h.blocks.cons _
  · have ho : o' = o ∨ o' ∈ live s.trace := by
      have : o' ∈ o :: live s'.trace := ho'
      rwa [hlive, List.mem_cons] at this
    rcases ho with rfl | ho
    · exact ⟨hplaced.size_le, hplaced.small, hplaced.large⟩
    · have hne : o'.ptr / pgsize ≠ p :=
        hm.live_ne (b := blockOf o') (h.blocks.mem_iff.mpr (List.mem_map_of_mem ho))
      have hold := h.placed o' ho
      refine ⟨hold.size_le, hold.small, fun hs => ?_⟩
      show o'.ptr % pgsize = 0 ∧ (s'.desc (.page (o'.ptr / pgsize))).leftUnits = _
      rw [hdesc _ hne]
      exact hold.large hs
  · show GoodFrees s'.trace
    rw [htrace]
    exact h.frees

theorem kmalloc_spec (h : Inv B s) (h0 : ¬ B 0) {size : ℕ} (hsize : size ≤ maxSize) :
    wp (kmalloc size) (fun r s' => (r = none ∧ s' = s) ∨
      ∃ ptr, r = some ptr ∧ Inv B { s' with trace := .alloc ⟨ptr, size⟩ :: s'.trace })
      (fun _ => True) s := by
  refine wp_ite (fun hs => ?_) (fun hs => ?_)
  · have hfit : roundUp size + align ≤ pgsize := by
      have hs' : roundUp size < pgsize - align := hs
      omega
    have hslob := wp_error (slobAlloc_spec h.buddy h0 h.list hfit)
      (F := fun _ => True) (fun _ _ => trivial)
    refine wp_bind hslob ?_
    rintro r t (⟨rfl, rfl⟩ | ⟨p, m, rfl, hm, hsame⟩)
    · exact wp_pure (Or.inl ⟨rfl, rfl⟩)
    · refine wp_modify_bind (wp_pure (Or.inr ⟨_, rfl, ?_⟩))
      have hdiv : (p * pgsize + align) / pgsize = p := by
        simp only [pgsize, align]
        omega
      have hmod : (p * pgsize + align) % pgsize = align := by
        simp only [pgsize, align]
        omega
      refine inv_alloc (p := p) (k := 0) h ?_ ?_ hsame.trace ?_ ?_ (fun pfn _ => hsame.desc pfn)
        ?_ ?_ ⟨hsize, fun _ => hmod, fun hl => absurd hs hl⟩
      · show PageAlloc.Inv B t.mem _
        rw [hsame.mem]
        exact hm
      · simp [blockOf, hdiv, hs]
      · exact hsame.crashed.trans h.crashed
      · exact hsame.list.trans h.list
      · exact (congrArg Desc.slab (hsame.desc p)).trans (h.no_slab p)
      · show 0 ≤ (t.desc (.page p)).leftUnits ∧ (t.desc (.page p)).leftUnits < maxOrder
        rw [hsame.desc p]
        exact h.units p
  · have hget := wp_error (getFreePages_spec h.buddy h0 (getOrder (roundUp size)))
      (F := fun _ => True) (fun _ _ => trivial)
    refine wp_bind hget ?_
    rintro a t (⟨rfl, rfl⟩ | ⟨p, m, rfl, hp, hm, rfl⟩)
    · exact wp_ite (fun _ => wp_throw trivial) (fun hne => absurd rfl hne)
    refine wp_ite (fun he => ?_) (fun _ => ?_)
    · exact absurd he (Nat.mul_ne_zero hp (by decide))
    have hdiv : p * pgsize / pgsize = p := Nat.mul_div_cancel p (by decide)
    have hmod : p * pgsize % pgsize = 0 := Nat.mul_mod_left p pgsize
    have hlt := hm.order_lt
    refine wp_modify_bind (wp_modify_bind (wp_pure (Or.inr ⟨_, rfl, ?_⟩)))
    rw [hdiv]
    refine inv_alloc (p := p) (k := getOrder (roundUp size)) h hm ?_ rfl h.crashed h.list
      (fun pfn hne => ?_) ?_ ?_ ⟨hsize, fun h => absurd h hs, fun _ => ⟨hmod, ?_⟩⟩
    · simp [blockOf, hdiv, hs]
    · simp [setDesc, hne]
    · simpa [setDesc] using h.no_slab p
    · simpa [setDesc] using hlt
    · simp [setDesc, hdiv]

/-! ## §6  `kfree` keeps it on a clean page -/

/-- No page is a slob page, so `kfree` always goes to the buddy system. -/
theorem kfree_eq (h : ∀ pfn, (s.desc (.page pfn)).slab = false) (ptr : ℕ) :
    kfree ptr s = .ok ((), freed s ptr
      ((s.desc (.page (ptr / pgsize))).leftUnits % 2 ^ 32).toNat) := by
  have hno := h (ptr / pgsize)
  show (if (s.desc (.page (ptr / pgsize))).slab = true then
    slobFree (ptr - align) (header s (ptr - align) + align)
    else freePages ptr ((s.desc (.page (ptr / pgsize))).leftUnits % 2 ^ 32).toNat) s = _
  rw [if_neg (by simp [hno])]
  rfl

theorem freed_trace (s : St) (ptr k : ℕ) :
    (freed s ptr k).trace = .free (ptr / pgsize) k :: s.trace := by
  unfold freed
  dsimp only
  split <;> rfl

/-- The order that `kfree` reads. -/
theorem Inv.order_eq (h : Inv B s) (pfn : ℕ) :
    (((s.desc (.page pfn)).leftUnits % 2 ^ 32).toNat : ℤ) = (s.desc (.page pfn)).leftUnits := by
  obtain ⟨h₁, h₂⟩ := h.units pfn
  simp only [maxOrder] at h₂
  omega

theorem inv_kfree (h : Inv B s) {o : Obj} (ho : o ∈ live s.trace) {k : ℕ}
    (hk : (o.ptr / pgsize, k) = blockOf o) :
    Inv B (freed { s with trace := .drop o :: s.trace } o.ptr k) := by
  have hmem : blockOf o ∈ held s.trace := h.blocks.mem_iff.mpr (List.mem_map_of_mem ho)
  rw [← hk] at hmem
  obtain ⟨m, hrun, hm⟩ := PageAlloc.freePages_spec h.buddy hmem
  have hfreed : freed { s with trace := .drop o :: s.trace } o.ptr k =
      { s with mem := m, trace := .free (o.ptr / pgsize) k :: .drop o :: s.trace } := by
    simp only [freed, hrun]
  rw [hfreed]
  refine { h with buddy := hm, blocks := ?_, placed := fun o' ho' => ?_, frees := ?_ }
  · show ((held s.trace).erase _).Perm (((live s.trace).erase o).map blockOf)
    have hperm := h.blocks.trans ((List.perm_cons_erase ho).map blockOf)
    rw [List.map_cons] at hperm
    have herase := hperm.erase (blockOf o)
    rw [List.erase_cons_head] at herase
    rw [hk]
    exact herase
  · have hold := h.placed o' (List.mem_of_mem_erase ho')
    exact ⟨hold.size_le, hold.small, hold.large⟩
  · refine ⟨hmem, fun o' ho' x hx hin => ?_, h.frees⟩
    have hapart := ((List.perm_cons_erase ho).pairwise_iff
      fun hab x hb ha => hab x ha hb).mp h.apart
    refine (List.pairwise_cons.mp hapart).1 o' ho' _ ?_
      ((h.placed o' (List.mem_of_mem_erase ho')).inBlock hx)
    rwa [← hk]

/-! ## §7  Runs -/

theorem step_kfree {ptr : ℕ} (h : Inv B s) (hstep : step s (.kfree ptr) = some s') :
    ∃ o ∈ live s.trace, o.ptr = ptr ∧
      s' = freed { s with trace := .drop o :: s.trace } ptr
        ((s.desc (.page (ptr / pgsize))).leftUnits % 2 ^ 32).toNat := by
  rw [step, if_neg (by simp [h.crashed])] at hstep
  cases hfind : (live s.trace).find? fun o => o.ptr = ptr with
  | none =>
    rw [hfind] at hstep
    cases hstep
  | some o =>
    have hptr : o.ptr = ptr := by simpa using List.find?_some hfind
    rw [hfind] at hstep
    simp only [kfree_eq (s := { s with trace := .drop o :: s.trace }) h.no_slab ptr] at hstep
    cases hstep
    exact ⟨o, List.mem_of_find?_eq_some hfind, hptr, rfl⟩

theorem inv_step (h0 : ¬ B 0) (s : St) (a : Act) (s' : St) (h : Inv B s) (hc : CleanPage s a)
    (hstep : step s a = some s') : Inv B s' := by
  cases a with
  | kmalloc size =>
    simp only [step, h.crashed] at hstep
    by_cases hsize : size ≤ maxSize
    · have hspec := kmalloc_spec h h0 hsize
      unfold wp at hspec
      cases hres : kmalloc size s with
      | error e => simp [hsize, hres] at hstep
      | ok r =>
        obtain ⟨r, t⟩ := r
        rw [hres] at hspec
        rcases hspec with ⟨rfl, rfl⟩ | ⟨ptr, rfl, hinv⟩
        · simp [hsize, hres] at hstep
          rw [← hstep]
          exact h
        · simp [hsize, hres] at hstep
          rw [← hstep]
          exact hinv
    · simp [hsize] at hstep
  | kfree ptr =>
    obtain ⟨o, ho, rfl, rfl⟩ := step_kfree h hstep
    refine inv_kfree h ho (Prod.ext rfl ?_)
    have hord := h.order_eq (o.ptr / pgsize)
    have hplaced := h.placed o ho
    unfold blockOf
    dsimp only
    split_ifs with hs
    · have hunits := hc o ho rfl hs
      omega
    · have hunits := (hplaced.large hs).2
      omega

/-- A page that keeps the order of an earlier large object is given back with
that order. -/
theorem not_heapOk_of_stale (s : St) (a : Act) (s' : St) (h : Inv B s) (hc : ¬ CleanPage s a)
    (hstep : step s a = some s') : ¬ HeapOk B s' := by
  unfold CleanPage at hc
  push Not at hc
  obtain ⟨o, ho, rfl, hs, hne⟩ := hc
  obtain ⟨o', ho', hptr, rfl⟩ := step_kfree h hstep
  intro hok
  have hfrees := hok.frees
  rw [freed_trace] at hfrees
  obtain ⟨hmem, -⟩ := hfrees
  have hblock : (o.ptr / pgsize, 0) ∈ held s.trace := by
    have : blockOf o = (o.ptr / pgsize, 0) := by simp [blockOf, hs]
    rw [← this]
    exact h.blocks.mem_iff.mpr (List.mem_map_of_mem ho)
  have hmem' := fun b hb => (PageAlloc.mem_blocks s.mem (held s.trace) b).mpr (Or.inr hb)
  obtain ⟨-, hzero⟩ := Prod.mk.inj (h.buddy.tiling.eq_of_inBlock (hmem' _ hblock) (hmem' _ hmem)
    (inBlock_self _ _) (inBlock_self _ _))
  have hord := h.order_eq (o.ptr / pgsize)
  rw [hzero] at hord
  exact hne hord.symm

/-- **When the heap stays intact.** From any boot state, a run of `kmalloc` and
`kfree` keeps live objects apart, returns every block as it was taken and, when
all objects are freed, all of the memory, exactly when each `kfree` of a small
object finds 0 in the `slob_left_units` of its page. -/
theorem heapOk_iff (rs : List PageAlloc.Region) (hrs : PageAlloc.RegionsDisjoint rs)
    (h0 : ¬ PageAlloc.bootPages rs 0) :
    ∃ m, PageAlloc.memblockFreeAll PageAlloc.init rs = some m ∧ ∀ as,
      (Along step (HeapOk (PageAlloc.bootPages rs)) (init m) as ↔
        Steps step CleanPage (init m) as) := by
  obtain ⟨m, hm, hinv⟩ := PageAlloc.memblockFreeAll_spec hrs PageAlloc.inv_init fun _ _ h => h
  simp only [false_or] at hinv
  refine ⟨m, hm, fun as => ?_⟩
  exact along_iff_steps (fun _ hs => hs.heapOk) (inv_step h0) not_heapOk_of_stale (inv_init hinv)

/-- `CleanPage` as a test. -/
def checkClean (s : St) : Act → Bool
  | .kfree ptr => (live s.trace).all fun o =>
    o.ptr ≠ ptr ∨ ¬ Small o.size ∨ (s.desc (.page (o.ptr / pgsize))).leftUnits = 0
  | .kmalloc _ => true

theorem cleanPage_of_check (s : St) (a : Act) (h : checkClean s a = true) : CleanPage s a := by
  rintro o ho rfl hs
  simp only [checkClean, List.all_eq_true] at h
  simpa [hs] using h o ho

/-- A buddy system of two pages, `0x80002` and `0x80003`. -/
def twoPages : List PageAlloc.Region := [⟨0x80002000, 0x2000, true⟩]

theorem regionsDisjoint_twoPages : PageAlloc.RegionsDisjoint twoPages := by
  simp [PageAlloc.RegionsDisjoint, twoPages]

theorem not_bootPages_zero_twoPages : ¬ PageAlloc.bootPages twoPages 0 := by
  simp [PageAlloc.bootPages, twoPages, PageAlloc.Region.Has, PageAlloc.pfnDown, pgsize]

/-- Two small objects, freed in the order they were taken, then a large one. -/
def twoObjects : List Act :=
  [.kmalloc 100, .kmalloc 4000, .kfree 0x80002008, .kfree 0x80003008, .kmalloc 8192]

theorem heapOk_twoObjects :
    ∃ m, PageAlloc.memblockFreeAll PageAlloc.init twoPages = some m ∧
      Along step (HeapOk (PageAlloc.bootPages twoPages)) (init m) twoObjects := by
  obtain ⟨m, hm, hall⟩ := heapOk_iff twoPages regionsDisjoint_twoPages not_bootPages_zero_twoPages
  have hcheck : (PageAlloc.memblockFreeAll PageAlloc.init twoPages).map (fun m =>
      checkSteps step checkClean (init m) twoObjects) = some true := by decide +kernel
  rw [hm, Option.map_some, Option.some.injEq] at hcheck
  exact ⟨m, hm, (hall _).mpr (steps_of_check cleanPage_of_check hcheck)⟩

/-- A large object, then a small one on its first page. -/
def staleOrder : List Act :=
  [.kmalloc 8192, .kfree 0x80002000, .kmalloc 16, .kfree 0x80002008]

/-- The last `kfree` of `staleOrder` gives back a block of order 1 although the
object had a single page; the other page is on a free list already. -/
theorem not_heapOk_staleOrder :
    ∃ m, PageAlloc.memblockFreeAll PageAlloc.init twoPages = some m ∧
      ¬ Along step (HeapOk (PageAlloc.bootPages twoPages)) (init m) staleOrder := by
  have hrun : ((PageAlloc.memblockFreeAll PageAlloc.init twoPages).bind fun m =>
      (runFrom step (init m) staleOrder).map St.trace) = some [.free 0x80002 1,
        .drop ⟨0x80002008, 16⟩, .alloc ⟨0x80002008, 16⟩, .get 0x80002 0, .free 0x80002 1,
        .drop ⟨0x80002000, 8192⟩, .alloc ⟨0x80002000, 8192⟩, .get 0x80002 1] := by
    decide +kernel
  obtain ⟨m, hm, hrun⟩ := Option.bind_eq_some_iff.mp hrun
  obtain ⟨s, hs, htrace⟩ := Option.map_eq_some_iff.mp hrun
  refine ⟨m, hm, fun halong => ?_⟩
  have hfrees := (halong.last hs).frees
  rw [htrace] at hfrees
  exact absurd hfrees.1 (by decide)

end RiscvBm.Slab

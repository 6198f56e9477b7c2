import RiscvBm.Vm.PageTable

/-!
# What the page tables look like

Every process's table is a copy of the kernel's top-level page with a tree of its own from
`USER_CODE_VM_START` on. `Tables` states that over the memory, `Tables.link` keeps it when
`walk` adds a table, and `wp_walk` is what a caller of `walk` needs to know: where the entry
is, and that no translation has changed.

The two developments that follow put different things beside `Tables`: isolation takes a
promise about the allocator, ownership the record of what each page is used for. `TableInv` is
what `walk` asks of either.
-/

namespace RiscvBm.Vm

open Radix Wp Function

/-! ## §1  Paths of addresses -/

/-- `PX(2, USER_CODE_VM_START)` -/
def userIndex : ℕ := 64

example : px 2 userCodeVmStart = userIndex := by decide

/-- The entries of a process's own. -/
def own (σ : List ℕ) (i : ℕ) : Prop := i < 512 ∧ (σ = [] → userIndex ≤ i)

def vpath (va : ℕ) : List ℕ := [px 2 va, px 1 va]

/-- The entry for `va` in the table at `r`, 0 if there is no table for it. -/
def translate (m : Mem) (r va : ℕ) : ℕ := view next 0 m.word r (vpath va) (px 0 va)

def InUser (va : ℕ) : Prop := userIndex ≤ px 2 va

theorem px_lt (level va : ℕ) : px level va < 512 := Nat.mod_lt _ (by decide)

theorem inUser_of_range {va : ℕ} (h₁ : userCodeVmStart ≤ va) (h₂ : va < maxva) : InUser va := by
  unfold InUser userIndex px
  unfold userCodeVmStart at h₁
  unfold maxva at h₂
  omega

/-- The path of an address, with the index in the bottom table. -/
def vtrail (va : ℕ) : List ℕ := [px 2 va, px 1 va, px 0 va]

theorem vtrail_eq (va : ℕ) : vtrail va = vpath va ++ [px 0 va] := rfl

theorem length_vpath (va : ℕ) : (vpath va).length = 2 := rfl

theorem length_lt_of_vpath {va i : ℕ} {σ τ : List ℕ} (h : vpath va = σ ++ i :: τ) :
    σ.length < 2 := by
  have hcount := congrArg List.length h
  rw [length_vpath, List.length_append, List.length_cons] at hcount
  omega

theorem lt_of_mem_vtrail {va i : ℕ} (h : i ∈ vtrail va) : i < 512 := by
  simp only [vtrail, List.mem_cons, List.not_mem_nil, or_false] at h
  rcases h with rfl | rfl | rfl <;> exact px_lt _ _

theorem lt_of_mem_vpath {va i : ℕ} (h : i ∈ vpath va) : i < 512 :=
  lt_of_mem_vtrail (vtrail_eq va ▸ List.mem_append_left _ h)

theorem ownPath_vtrail {va : ℕ} (h : InUser va) : OwnPath own (vtrail va) := by
  intro σ₁ i σ₂ hσ
  refine ⟨lt_of_mem_vtrail (hσ ▸ List.mem_append_right _ List.mem_cons_self), ?_⟩
  rintro rfl
  cases hσ
  exact h

theorem ownPath_vpath {va : ℕ} (h : InUser va) : OwnPath own (vpath va) :=
  (vtrail_eq va ▸ ownPath_vtrail h : OwnPath own (vpath va ++ [px 0 va])).left

/-- The entries that the hardware reads for `va`. -/
def entries (m : Mem) (r va : ℕ) : List ℕ := trail next m.word r (vtrail va)

/-! ## §2  The shape of the tables -/

/-- The kernel's table when the first process table is made. -/
structure Kernel where
  word : ℕ → ℕ → ℕ
  root : ℕ
  upperEmpty : ∀ i, userIndex ≤ i → i < 512 → next (word root i) = none

/-- The kernel's table has the frame `f` at depth `n`. -/
def Kernel.Frame (K : Kernel) (n f : ℕ) : Prop :=
  ∃ σ : List ℕ, σ.length = n ∧ (∀ i ∈ σ, i < 512) ∧ descend next K.word K.root σ = some f

structure Tables (K : Kernel) (m : Mem) : Prop where
  kernelPagetable : m.kernelPagetable = K.root
  linked : Linked next own 2 m.word m.place
  shared : ∀ {n f}, n ≤ 2 → K.Frame n f → m.place f = none ∧ m.word f = K.word f
  copied : ∀ {r i}, m.IsRoot r → i < userIndex → m.word r i = K.word K.root i

/-- A frame that is in no table as a table. -/
structure Fresh (K : Kernel) (m : Mem) (p : ℕ) : Prop where
  place : m.place p = none
  shared : ∀ {n}, n ≤ 2 → ¬ K.Frame n p

theorem Kernel.frame_root (K : Kernel) : K.Frame 0 K.root :=
  ⟨[], rfl, fun _ h => (List.not_mem_nil h).elim, rfl⟩

/-- The memory before the first process: any pages may be in use. -/
def boot (K : Kernel) (used : List (ℕ × Use)) : Mem where
  word := K.word
  used := used
  place := fun _ => none
  tables := [K.root]
  kernelPagetable := K.root
  calls := 0

theorem tables_boot (K : Kernel) (used : List (ℕ × Use)) : Tables K (boot K used) where
  kernelPagetable := rfl
  linked := by
    refine ⟨?_, ?_, ?_⟩
    · intro f r hf
      cases hf
    · intro f r σ i d hf
      cases hf
    · intro f r σ i hf
      cases hf
  shared := fun _ _ => ⟨rfl, rfl⟩
  copied := by
    intro r i hr
    cases hr

theorem le_foldr_max {l : List ℕ} {a : ℕ} (h : a ∈ l) : a ≤ l.foldr max 0 := by
  induction l with
  | nil => exact (List.not_mem_nil h).elim
  | cons b l ih =>
    rw [List.foldr_cons]
    rcases List.mem_cons.mp h with rfl | h
    · exact Nat.le_max_left ..
    · exact Nat.le_trans (ih h) (Nat.le_max_right ..)

/-- A kernel that maps nothing, with its table in frame 1. -/
def emptyKernel : Kernel := ⟨fun _ _ => 0, 1, fun _ _ _ => next_zero⟩

theorem emptyKernel_frame {n f : ℕ} (h : emptyKernel.Frame n f) : f = 1 := by
  obtain ⟨σ, -, -, hd⟩ := h
  cases σ with
  | nil => exact (Option.some.inj hd).symm
  | cons i σ =>
    rw [descend, show emptyKernel.word emptyKernel.root i = 0 from rfl, next_zero] at hd
    cases hd

section Tables

variable {K : Kernel} {m m' m'' : Mem} {p f r q i t k w va : ℕ} {σ : List ℕ}

/-- The kernel's own table is the one of boot. -/
theorem Tables.descend_kernel (h : Tables K m) (hlen : σ.length ≤ 3) (hbound : ∀ i ∈ σ, i < 512) :
    descend next m.word K.root σ = descend next K.word K.root σ := by
  refine (path_congr ?_).1
  intro σ₁ i σ₂ d hσ hd
  rw [hσ, List.length_append, List.length_cons] at hlen
  have hbound' : ∀ j ∈ σ₁, j < 512 := by
    intro j hj
    apply hbound
    rw [hσ]
    exact List.mem_append_left _ hj
  rw [(h.shared (by omega) ⟨σ₁, rfl, hbound', hd⟩).2]

theorem Tables.translate_kernel (h : Tables K m) :
    translate m K.root va = view next 0 K.word K.root (vpath va) (px 0 va) := by
  apply view_congr (h.descend_kernel (σ := vpath va) (Nat.le_succ 2) fun _ => lt_of_mem_vpath)
  intro t ht
  rw [(h.shared (Nat.le_refl 2) ⟨vpath va, length_vpath va, fun _ => lt_of_mem_vpath, ht⟩).2]

/-- The first index leads out of the table's own part. -/
theorem Tables.descend_low (h : Tables K m) (hr : m.IsRoot r) {j : ℕ}
    (hj : j < userIndex) :
    descend next m.word r (j :: σ) = descend next m.word K.root (j :: σ) := by
  have hroot : m.word K.root j = K.word K.root j := by
    rw [(h.shared (Nat.zero_le 2) K.frame_root).2]
  rw [descend, descend, h.copied hr hj, hroot]

/-- Below `USER_CODE_VM_START` a process sees the kernel's table. -/
theorem Tables.translate_low (h : Tables K m) (hr : m.IsRoot r)
    (hva : ¬ InUser va) : translate m r va = translate m K.root va := by
  unfold translate view
  rw [vpath, h.descend_low hr (Nat.lt_of_not_le hva)]

/-- The entries that the hardware reads are the same when the table's own frames are. -/
theorem Tables.entries_eq (h : Tables K m) (h' : Tables K m')
    (hq : q = K.root ∨ m.IsRoot q)
    (hsame : ∀ {f σ}, m.place f = some (q, σ) → m'.word f = m.word f) :
    entries m' q va = entries m q va := by
  refine (path_congr ?_).2
  intro σ₁ i σ₂ d hσ hd
  have hlen : σ₁.length ≤ 2 := by
    have hcount := congrArg List.length hσ
    rw [List.length_append, List.length_cons] at hcount
    have h3 : (vtrail va).length = 3 := rfl
    omega
  have hbound : ∀ j ∈ σ₁, j < 512 := by
    intro j hj
    apply @lt_of_mem_vtrail va
    rw [hσ]
    exact List.mem_append_left _ hj
  have hkernel : descend next m.word K.root σ₁ = some d → m'.word d = m.word d := by
    intro hd
    rw [h.descend_kernel (by omega) hbound] at hd
    rw [(h'.shared hlen ⟨σ₁, rfl, hbound, hd⟩).2, (h.shared hlen ⟨σ₁, rfl, hbound, hd⟩).2]
  suffices hword : m'.word d = m.word d by rw [hword]
  rcases hq with rfl | hplace
  · exact hkernel hd
  by_cases hva : InUser va
  · -- the process's own part
    have hown : OwnPath own σ₁ := (hσ ▸ ownPath_vtrail hva : OwnPath own (σ₁ ++ i :: σ₂)).left
    exact hsame (h.linked.place_of_descend hplace hown hlen hd)
  · cases σ₁ with
    | nil =>
      cases hd
      exact hsame hplace
    | cons j σ₁ =>
      have hj : px 2 va = j := (List.cons.inj hσ).1
      rw [h.descend_low hplace (hj ▸ Nat.lt_of_not_le hva)] at hd
      exact hkernel hd

/-- `walk` puts the frame `p` under the entry `i` of `f`. -/
def Mem.link (m : Mem) (p f i r : ℕ) (σ : List ℕ) : Mem :=
  (((m.take p .table).zeroPage p).setWord f i (pa2pte p ||| pteV)).setPlace p r (σ ++ [i])

theorem place_link : (m.link p f i r σ).place = update m.place p (some (r, σ ++ [i])) := rfl

theorem word_link : (m.link p f i r σ).word =
    write (fill m.word p fun _ => 0) f i (pa2pte p ||| pteV) := rfl

theorem Tables.tick (h : Tables K m) : Tables K m.tick :=
  ⟨h.kernelPagetable, h.linked, h.shared, h.copied⟩

theorem Tables.link (h : Tables K m) (hp : Fresh K m p) (hf : m.place f = some (r, σ))
    (hlen : σ.length < 2) (hown : own σ i) (hempty : next (m.word f i) = none) :
    Tables K (m.link p f i r σ) where
  kernelPagetable := h.kernelPagetable
  linked := by
    have hfp : f ≠ p := Linked.ne_of_place hf hp.place
    apply (h.linked.fill hp.place fun _ => 0).link hf hlen hown
    · rw [fill_of_ne _ _ hfp]
      exact hempty
    · exact hp.place
    · intro j
      rw [fill_same, next_zero]
    · exact next_mkTable
  shared := by
    intro n g hn hg
    obtain ⟨hplace, hword⟩ := h.shared hn hg
    have hgp : g ≠ p := by
      rintro rfl
      exact hp.shared hn hg
    have hgf : g ≠ f := (Linked.ne_of_place hf hplace).symm
    constructor
    · exact (update_of_ne hgp ..).trans hplace
    · funext j
      rw [word_link, write_of_ne _ _ fun hslot => hgf hslot.1, fill_of_ne _ _ hgp, hword]
  copied := by
    intro q j hq hj
    rw [Mem.IsRoot, place_link] at hq
    have hqp : q ≠ p := by
      rintro rfl
      rw [update_self, Option.some.injEq, Prod.mk.injEq] at hq
      cases σ <;> cases hq.2
    rw [update_of_ne hqp] at hq
    rw [word_link, write_of_ne, fill_of_ne _ _ hqp]
    · exact h.copied hq hj
    · -- the new entry of a top-level page is not one of the kernel's
      rintro ⟨rfl, rfl⟩
      rw [hf] at hq
      cases hq
      exact absurd (hown.2 rfl) (Nat.not_le.mpr hj)

/-- `copy_kernel_tbl` makes the frame `p` a table. -/
def Mem.newTable (m : Mem) (p : ℕ) : Mem :=
  { (((m.take p .table).zeroPage p).copyPage p m.kernelPagetable).setPlace p p [] with
    tables := p :: m.tables }

theorem place_newTable : (m.newTable p).place = update m.place p (some (p, [])) := rfl

theorem word_newTable : (m.newTable p).word =
    fill (fill m.word p fun _ => 0) p (fill m.word p (fun _ => 0) m.kernelPagetable) := rfl

theorem word_newTable_of_ne (h : f ≠ p) : (m.newTable p).word f = m.word f := by
  rw [word_newTable, fill_of_ne _ _ h, fill_of_ne _ _ h]

theorem Tables.word_newTable_self (h : Tables K m) (hp : Fresh K m p) :
    (m.newTable p).word p = K.word K.root := by
  have hne : K.root ≠ p := by
    rintro rfl
    exact hp.shared (Nat.zero_le 2) K.frame_root
  rw [word_newTable, fill_same, h.kernelPagetable, fill_of_ne _ _ hne,
    (h.shared (Nat.zero_le 2) K.frame_root).2]

theorem Tables.newTable (h : Tables K m) (hp : Fresh K m p) : Tables K (m.newTable p) where
  kernelPagetable := h.kernelPagetable
  linked := by
    apply ((h.linked.fill hp.place _).fill hp.place _).addRoot hp.place
    intro i hi
    show next ((m.newTable p).word p i) = none
    rw [h.word_newTable_self hp]
    exact K.upperEmpty i (hi.2 rfl) hi.1
  shared := by
    intro n g hn hg
    have hgp : g ≠ p := by
      rintro rfl
      exact hp.shared hn hg
    rw [place_newTable, update_of_ne hgp, word_newTable_of_ne hgp]
    exact h.shared hn hg
  copied := by
    intro q i hq hi
    by_cases hqp : q = p
    · rw [hqp, h.word_newTable_self hp]
    · rw [Mem.IsRoot, place_newTable, update_of_ne hqp] at hq
      rw [word_newTable_of_ne hqp]
      exact h.copied hq hi

/-- A word of a bottom table changes. -/
theorem Tables.setLeaf (h : Tables K m) (ht : m.place t = some (r, σ)) (hσ : σ.length = 2) :
    Tables K (m.setWord t k w) where
  kernelPagetable := h.kernelPagetable
  linked := by
    apply h.linked.write
    intro q τ hq hlt
    rw [ht] at hq
    cases hq
    omega
  shared := by
    intro n g hn hg
    obtain ⟨hplace, hword⟩ := h.shared hn hg
    refine ⟨hplace, ?_⟩
    funext j
    show write m.word t k w g j = _
    rw [write_of_ne, hword]
    rintro ⟨rfl, -⟩
    rw [ht] at hplace
    cases hplace
  copied := by
    intro q j hq hj
    show write m.word t k w q j = _
    rw [write_of_ne]
    · exact h.copied hq hj
    · rintro ⟨rfl, -⟩
      cases ht.symm.trans hq
      cases hσ

/-- Only one translation changes with it. -/
theorem Tables.translate_setLeaf (h : Tables K m) (ht : m.place t = some (r, vpath p))
    (hq : m.IsRoot q) (hva : InUser va) :
    translate (m.setWord t k w) q va =
      if q = r ∧ vpath va = vpath p ∧ px 0 va = k then w else translate m q va :=
  h.linked.view_write ht (length_vpath p) hq (ownPath_vpath hva) (length_vpath va)

end Tables

/-! ## §3  What `walk` leaves alone -/

/-- Work on the table at `r` that takes pages and gives none back. -/
structure Extends (r : ℕ) (m m' : Mem) : Prop where
  place : ∀ {f x}, m.place f = some x → m'.place f = some x
  used : ∀ {p u}, m.useOf p = some u → m'.useOf p = some u
  /-- pages in use that are not tables keep their contents -/
  data : ∀ {f}, m.useOf f ≠ none → m.place f = none → m'.place f = none ∧ m'.word f = m.word f
  others : ∀ {f q σ}, m.place f = some (q, σ) → q ≠ r → m'.word f = m.word f
  tables : m'.tables = m.tables

/-- The table at `r` may have new tables below it. -/
structure Grown (r : ℕ) (m m' : Mem) : Prop extends Extends r m m' where
  same : ∀ {q va}, m.IsRoot q → InUser va → translate m' q va = translate m q va

section Extends

variable {K : Kernel} {m m' m'' : Mem} {p f r i : ℕ} {σ : List ℕ}

theorem Extends.refl (r : ℕ) (m : Mem) : Extends r m m :=
  ⟨fun h => h, fun h => h, fun _ h => ⟨h, rfl⟩, fun _ _ => rfl, rfl⟩

theorem Extends.inUse (h : Extends r m m') (hf : m.useOf f ≠ none) : m'.useOf f ≠ none := by
  obtain ⟨u, hu⟩ := Option.ne_none_iff_exists'.mp hf
  rw [h.used hu]
  exact Option.some_ne_none u

theorem Extends.trans (h : Extends r m m') (h' : Extends r m' m'') : Extends r m m'' where
  place hf := h'.place (h.place hf)
  used hp := h'.used (h.used hp)
  data := by
    intro f hf hplace
    obtain ⟨hplace', hword⟩ := h.data hf hplace
    obtain ⟨hplace'', hword'⟩ := h'.data (h.inUse hf) hplace'
    exact ⟨hplace'', hword'.trans hword⟩
  others hf hq := (h'.others (h.place hf) hq).trans (h.others hf hq)
  tables := h'.tables.trans h.tables

theorem Extends.tick (r : ℕ) (m : Mem) : Extends r m m.tick :=
  ⟨fun h => h, fun h => h, fun _ h => ⟨h, rfl⟩, fun _ _ => rfl, rfl⟩

theorem Grown.refl (r : ℕ) (m : Mem) : Grown r m m := ⟨Extends.refl r m, fun _ _ => rfl⟩

theorem Grown.trans (h : Grown r m m') (h' : Grown r m' m'') : Grown r m m'' :=
  ⟨h.toExtends.trans h'.toExtends,
    fun hq hva => (h'.same (h.place hq) hva).trans (h.same hq hva)⟩

theorem Grown.tick (r : ℕ) (m : Mem) : Grown r m m.tick := ⟨Extends.tick r m, fun _ _ => rfl⟩

theorem Extends.link (hp : m.place p = none) (hfree : m.useOf p = none)
    (hf : m.place f = some (r, σ)) : Extends r m (m.link p f i r σ) where
  place := by
    intro g x hg
    rwa [place_link, update_of_ne (Linked.ne_of_place hg hp)]
  used := fun hq => useOf_take_of_some hfree hq
  data := by
    intro g hg hplace
    have hgp : g ≠ p := by
      rintro rfl
      exact hg hfree
    have hgf : g ≠ f := (Linked.ne_of_place hf hplace).symm
    constructor
    · rw [place_link, update_of_ne hgp, hplace]
    · funext j
      rw [word_link, write_of_ne _ _ fun hslot => hgf hslot.1, fill_of_ne _ _ hgp]
  others := by
    intro g q τ hg hq
    have hgf : g ≠ f := by
      rintro rfl
      rw [hf] at hg
      cases hg
      exact hq rfl
    funext j
    rw [word_link, write_of_ne _ _ fun hslot => hgf hslot.1,
      fill_of_ne _ _ (Linked.ne_of_place hg hp)]
  tables := rfl

/-- A word of a table of `r` is set. -/
theorem Extends.setWord {t k w : ℕ} (ht : m.place t = some (r, σ)) :
    Extends r m (m.setWord t k w) where
  place hf := hf
  used hp := hp
  data := by
    intro g _ hplace
    refine ⟨hplace, ?_⟩
    funext j
    exact write_of_ne _ _ fun hslot => Linked.ne_of_place ht hplace hslot.1.symm
  others := by
    intro g q τ hg hq
    funext j
    apply write_of_ne
    rintro ⟨rfl, -⟩
    rw [ht] at hg
    cases hg
    exact hq rfl
  tables := rfl

/-- The tables of the other processes are the same. -/
theorem Tables.descend_other {q : ℕ} {τ : List ℕ} (h : Tables K m) (hext : Extends r m m')
    (hq : m.IsRoot q) (hne : q ≠ r) (hown : OwnPath own τ) (hlen : τ.length ≤ 2) :
    descend next m'.word q τ = descend next m.word q τ := by
  refine (path_congr ?_).1
  intro σ₁ i σ₂ d hσ hd
  rw [hext.others (h.linked.place_along hq hown hlen hσ hd).1 hne]

theorem Tables.translate_other {q va : ℕ} (h : Tables K m) (hext : Extends r m m')
    (hq : m.IsRoot q) (hne : q ≠ r) (hva : InUser va) :
    translate m' q va = translate m q va := by
  have hlen := Nat.le_of_eq (length_vpath va)
  apply view_congr (h.descend_other hext hq hne (ownPath_vpath hva) hlen)
  intro t ht
  have hplace := h.linked.place_of_descend hq (ownPath_vpath hva) hlen ht
  rw [hext.others hplace hne]

theorem Tables.grown_link (h : Tables K m) (hp : Fresh K m p) (hfree : m.useOf p = none)
    (hf : m.place f = some (r, σ)) (hlen : σ.length < 2) (hempty : next (m.word f i) = none) :
    Grown r m (m.link p f i r σ) where
  toExtends := Extends.link hp.place hfree hf
  same := by
    intro q va hq hva
    have hfp : f ≠ p := Linked.ne_of_place hf hp.place
    have hlen' := Nat.le_of_eq (length_vpath va)
    have hne : σ ≠ vpath va := by
      rintro rfl
      exact absurd (length_vpath va) (Nat.ne_of_lt hlen)
    calc translate (m.link p f i r σ) q va
        = view next 0 (fill m.word p fun _ => 0) q (vpath va) (px 0 va) := by
          apply (h.linked.fill hp.place fun _ => 0).view_link hf _ hp.place _ next_zero
            next_mkTable hq (ownPath_vpath hva) hlen' hne
          · rw [fill_of_ne _ _ hfp]
            exact hempty
          · intro j
            rw [fill_same]
      _ = translate m q va := h.linked.view_fill hp.place _ hq (ownPath_vpath hva) hlen'

end Extends

/-! ## §4  `walk` -/

/-- What `walk` needs of an invariant. -/
structure TableInv (alloc : Mem → ℕ) (K : Kernel) (J : Mem → Prop) : Prop where
  tables : ∀ {m}, J m → Tables K m
  fresh : ∀ {m p}, J m → Answer alloc m p → Fresh K m p
  tick : ∀ {m}, J m → J m.tick
  link : ∀ {m p f r σ i}, J m → Answer alloc m p → m.place f = some (r, σ) → σ.length < 2 →
    own σ i → next (m.word f i) = none → J (m.link p f i r σ)

/-- `get_free_page` answers as long as fewer than `n` pages are in use. -/
def Suffices (alloc : Mem → ℕ) (n : ℕ) : Prop :=
  ∀ m : Mem, m.used.length < n → Answer alloc m (alloc m)

/-- What is in use now and was not before is a table on the way to `va`. -/
def NewTables (r va : ℕ) (m m' : Mem) : Prop :=
  ∀ q, m.useOf q = none → m'.useOf q ≠ none →
    ∃ σ i τ, m'.place q = some (r, σ ++ [i]) ∧ vpath va = σ ++ i :: τ

/-- What a call of `walk` has done, with the entry that it found. -/
structure Walked (alloc : Mem → ℕ) (r va : ℕ) (b : Bool) (m : Mem) (o : Option (ℕ × ℕ))
    (m' : Mem) : Prop extends Grown r m m' where
  lt : va < maxva
  slot : ∀ t k, o = some (t, k) → m'.place t = some (r, vpath va) ∧ k = px 0 va
  news : NewTables r va m m'
  count : m'.used.length ≤ m.used.length + 2
  found : ∀ {N}, Suffices alloc N → m.used.length + 2 ≤ N → b = true → o ≠ none

section Walk

variable {alloc : Mem → ℕ} {K : Kernel} {J : Mem → Prop} {m : Mem} {r va f : ℕ} {σ : List ℕ}

theorem getFreePage_refused (u : Use) (h : ¬ Answer alloc m (alloc m)) :
    getFreePage alloc u m = .ok (none, m.tick) := by
  show (if Answer alloc m (alloc m) then _ else _ : VmM (Option ℕ)) m = _
  rw [if_neg h]
  rfl

theorem getFreePage_some {p : ℕ} (u : Use) (h : Answer alloc m p) :
    getFreePage alloc u m = .ok (some p, m.take p u) := by
  obtain ⟨rfl, h⟩ := h
  show (if Answer alloc m (alloc m) then _ else _ : VmM (Option ℕ)) m = _
  rw [if_pos ⟨rfl, h⟩]
  rfl

theorem wp_getFreePage {u : Use} {Q : Option ℕ → Mem → Prop} {E : Panic → Prop}
    (hsome : ∀ p, Answer alloc m p → Q (some p) (m.take p u))
    (hnone : ¬ Answer alloc m (alloc m) → Q none m.tick) : wp (getFreePage alloc u) Q E m := by
  by_cases h : Answer alloc m (alloc m)
  · exact wp_of_run (getFreePage_some u h) (hsome _ h)
  · exact wp_of_run (getFreePage_refused u h) (hnone h)

/-- The two answers of the allocator. -/
theorem wp_getFreePage_cases (u : Use) {E : Panic → Prop} :
    wp (getFreePage alloc u)
      (fun o m' => (o = none ∧ m' = m.tick ∧ ¬ Answer alloc m (alloc m)) ∨
        ∃ p, o = some p ∧ Answer alloc m p ∧ m' = m.take p u) E m :=
  wp_getFreePage (fun p hp => Or.inr ⟨p, rfl, hp, rfl⟩) fun hno => Or.inl ⟨rfl, rfl, hno⟩

theorem wp_copyKernelTbl {E : Panic → Prop} :
    wp (copyKernelTbl alloc)
      (fun o m' => (o = none ∧ m' = m.tick ∧ ¬ Answer alloc m (alloc m)) ∨
        ∃ p, o = some p ∧ Answer alloc m p ∧ m' = m.newTable p) E m := by
  unfold copyKernelTbl
  apply wp_bind (wp_getFreePage_cases .table)
  rintro o m₁ (⟨rfl, rfl, hno⟩ | ⟨p, rfl, hp, rfl⟩)
  · exact wp_pure (Or.inl ⟨rfl, rfl, hno⟩)
  · apply wp_modify_bind
    apply wp_modify_bind
    apply wp_modify_bind
    exact wp_pure (Or.inr ⟨p, rfl, hp, rfl⟩)

/-- Without `alloc`, `walk` only reads. -/
theorem walkFrom_false (levels : List ℕ) :
    walkFrom alloc r va false levels σ f m =
      .ok (descend next m.word f (levels.map fun l => px l va), m) := by
  induction levels generalizing σ f with
  | nil => rfl
  | cons level levels ih =>
    show (if isValid (m.word f (px level va)) = true then
      walkFrom alloc r va false levels (σ ++ [px level va])
        (pte2pa (m.word f (px level va)))
      else if false = false then pure none else _) m = _
    rw [List.map_cons, descend]
    cases hv : isValid (m.word f (px level va)) with
    | true =>
      rw [if_pos rfl, ih, next, if_pos hv]
      rfl
    | false =>
      rw [if_neg (by simp), if_pos rfl, next_eq_none.mpr hv]
      rfl

theorem walk_false (hva : va < maxva) :
    walk alloc r va false m =
      .ok ((descend next m.word r (vpath va)).map fun t => (t, px 0 va), m) := by
  unfold walk
  rw [if_neg (Nat.not_le.mpr hva)]
  show (walkFrom alloc r va false [2, 1] [] r m >>= fun x =>
    Except.ok (x.1.map fun t => (t, px 0 va), x.2)) = _
  rw [walkFrom_false]
  rfl

theorem wp_walk_false {Q : Option (ℕ × ℕ) → Mem → Prop} {E : Panic → Prop}
    (hok : va < maxva → Q ((descend next m.word r (vpath va)).map fun t => (t, px 0 va)) m)
    (hpanic : maxva ≤ va → E .walk) : wp (walk alloc r va false) Q E m := by
  by_cases hva : va < maxva
  · exact wp_of_run (walk_false hva) (hok hva)
  · unfold walk
    rw [if_pos (Nat.le_of_not_lt hva)]
    exact wp_throw (hpanic (Nat.le_of_not_lt hva))

/-- The rule for the loop of `walk`: `I σ f m` holds when the table `f` at `σ` is reached. -/
theorem wp_walk_loop {I : List ℕ → ℕ → Mem → Prop} {Q : Option (ℕ × ℕ) → Mem → Prop}
    {E : Panic → Prop} {b : Bool} (hpanic : maxva ≤ va → E .walk) (hstart : I [] r m)
    (hdown : ∀ σ i τ f g m, vpath va = σ ++ i :: τ → I σ f m → next (m.word f i) = some g →
      I (σ ++ [i]) g m)
    (hlink : ∀ σ i τ f p m, vpath va = σ ++ i :: τ → I σ f m → next (m.word f i) = none →
      Answer alloc m p → I (σ ++ [i]) p (m.link p f i r σ))
    (hstop : ∀ σ i τ f m, vpath va = σ ++ i :: τ → I σ f m → b = false → Q none m)
    (hfull : ∀ σ i τ f m, vpath va = σ ++ i :: τ → I σ f m → ¬ Answer alloc m (alloc m) →
      Q none m.tick)
    (hdone : ∀ t m, I (vpath va) t m → Q (some (t, px 0 va)) m) :
    wp (walk alloc r va b) Q E m := by
  have hloop : ∀ (levels σ : List ℕ) (f : ℕ) (m : Mem),
      vpath va = σ ++ levels.map (fun l => px l va) → I σ f m →
      wp (walkFrom alloc r va b levels σ f) (fun o => Q (o.map fun t => (t, px 0 va))) E m := by
    intro levels
    induction levels with
    | nil =>
      intro σ f m hpath hI
      rw [List.map_nil, List.append_nil] at hpath
      exact wp_pure (hdone f m (hpath ▸ hI))
    | cons level levels ih =>
      intro σ f m hpath hI
      rw [List.map_cons] at hpath
      have hrest : vpath va = (σ ++ [px level va]) ++ levels.map fun l => px l va := by
        rw [hpath, List.append_assoc, List.singleton_append]
      unfold walkFrom
      apply wp_get
      apply wp_ite
      · intro hv
        exact ih _ _ m hrest (hdown _ _ _ f _ m hpath hI (next_eq_some.mpr ⟨hv, rfl⟩))
      · intro hv
        apply wp_ite
        · exact fun hb => wp_pure (hstop _ _ _ f m hpath hI hb)
        · intro _
          refine wp_bind (wp_getFreePage (Q := fun o m' => (o = none → Q none m') ∧
            ∀ p, o = some p → Answer alloc m p ∧ m' = m.take p .table) ?_ ?_) ?_
          · exact fun p hp => ⟨by simp, fun _ heq => by cases heq; exact ⟨hp, rfl⟩⟩
          · exact fun hno => ⟨fun _ => hfull _ _ _ f m hpath hI hno, by simp⟩
          · rintro (_ | p) m' ⟨hnone, hsome⟩
            · exact wp_pure (hnone rfl)
            · obtain ⟨hp, rfl⟩ := hsome p rfl
              apply wp_modify_bind
              apply wp_modify_bind
              apply wp_modify_bind
              have hempty := next_eq_none.mpr (Bool.eq_false_iff.mpr hv)
              exact ih _ _ _ hrest (hlink _ _ _ f p m hpath hI hempty hp)
  unfold walk
  apply wp_ite
  · exact fun hva => wp_throw (hpanic hva)
  · exact fun _ => wp_bind (hloop [2, 1] [] r m rfl hstart) fun _ _ hQ => wp_pure hQ

theorem NewTables.link {i p : ℕ} {τ : List ℕ} {m' : Mem} (h : NewTables r va m m')
    (hpath : vpath va = σ ++ i :: τ) : NewTables r va m (m'.link p f i r σ) := by
  intro q hfree hused
  by_cases hqp : q = p
  · exact ⟨σ, i, τ, by rw [hqp]; exact update_self .., hpath⟩
  · obtain ⟨σ', i', τ', hq, hpath'⟩ :=
      h q hfree fun hnone => hused ((useOf_take_of_ne hqp).trans hnone)
    exact ⟨σ', i', τ', (update_of_ne hqp _ _).trans hq, hpath'⟩

theorem wp_walk (hJ : TableInv alloc K J) (b : Bool) (hva : userCodeVmStart ≤ va)
    (hm : J m) (hr : m.IsRoot r) :
    wp (walk alloc r va b) (fun o m' => J m' ∧ Walked alloc r va b m o m')
      (fun e => e = .walk ∧ maxva ≤ va) m := by
  by_cases hlt : va < maxva
  · have hin := inUser_of_range hva hlt
    refine wp_walk_loop (I := fun σ f m' => J m' ∧ Grown r m m' ∧ m'.place f = some (r, σ) ∧
      NewTables r va m m' ∧ m'.used.length ≤ m.used.length + σ.length)
      (fun h => ⟨rfl, h⟩)
      ⟨hm, Grown.refl r m, hr, fun q hfree hused => absurd hfree hused, Nat.le_refl _⟩
      ?_ ?_ ?_ ?_ ?_
    · rintro σ i τ f g m' hpath ⟨hm', hgrown, hf, hnews, hcount⟩ hnext
      refine ⟨hm', hgrown, (hJ.tables hm').linked.down hf (length_lt_of_vpath hpath)
        (ownPath_vpath hin σ i τ hpath) hnext, hnews, ?_⟩
      rw [List.length_append]
      omega
    · rintro σ i τ f p m' hpath ⟨hm', hgrown, hf, hnews, hcount⟩ hempty hp
      have hlen := length_lt_of_vpath hpath
      refine ⟨hJ.link hm' hp hf hlen (ownPath_vpath hin σ i τ hpath) hempty,
        hgrown.trans ((hJ.tables hm').grown_link (hJ.fresh hm' hp) hp.2.2 hf hlen hempty),
        update_self .., hnews.link hpath, ?_⟩
      rw [List.length_append]
      exact Nat.succ_le_succ hcount
    · rintro σ i τ f m' hpath ⟨hm', hgrown, -, hnews, hcount⟩ rfl
      have hlen := length_lt_of_vpath hpath
      exact ⟨hm', hgrown, hlt, by simp, hnews, by omega, by simp⟩
    · rintro σ i τ f m' hpath ⟨hm', hgrown, -, hnews, hcount⟩ hno
      have hlen := length_lt_of_vpath hpath
      refine ⟨hJ.tick hm', hgrown.trans (Grown.tick r m'), hlt, by simp, hnews, ?_, ?_⟩
      · exact hcount.trans (by omega)
      · exact fun hmem hN _ => absurd (hmem m' (by omega)) hno
    · rintro t m' ⟨hm', hgrown, ht, hnews, hcount⟩
      refine ⟨hm', hgrown, hlt, ?_, hnews, hcount, by simp⟩
      rintro t k ⟨⟩
      exact ⟨ht, rfl⟩
  · unfold walk
    rw [if_pos (Nat.le_of_not_lt hlt)]
    exact wp_throw ⟨rfl, Nat.le_of_not_lt hlt⟩

/-- The word that `walk` leads to is the translation. -/
theorem Tables.translate_of_place {t : ℕ} (h : Tables K m) (ht : m.place t = some (r, vpath va)) :
    translate m r va = m.word t (px 0 va) :=
  view_of_some (h.linked.descend_of_place ht).2

/-- The rule for a round of the loop of `mappages`. -/
theorem wp_mapLoop_succ {Q : Bool → Mem → Prop} {E : Panic → Prop} {n p perm : ℕ}
    (hJ : TableInv alloc K J) (hva : userCodeVmStart ≤ va) (hm : J m)
    (hr : m.IsRoot r) (hpanic : maxva ≤ va → E .walk)
    (hstop : ∀ o m₁, J m₁ → Walked alloc r va true m o m₁ →
      o = none ∨ isValid (translate m r va) = true → Q false m₁)
    (hnext : ∀ t m₁, J m₁ → Walked alloc r va true m (some (t, px 0 va)) m₁ →
      m₁.place t = some (r, vpath va) → isValid (translate m r va) = false →
        wp (mapLoop alloc r perm n (va + pgsize) (nextFrame p)) Q E
          (m₁.setWord t (px 0 va) (pa2pte p ||| perm ||| pteV))) :
    wp (mapLoop alloc r perm (n + 1) va p) Q E m := by
  unfold mapLoop
  apply wp_bind (wp_error (wp_walk hJ true hva hm hr) ?_)
  · rintro (_ | ⟨t, k⟩) m₁ ⟨hm₁, hw⟩
    · exact wp_pure (hstop _ m₁ hm₁ hw (Or.inl rfl))
    · obtain ⟨ht, rfl⟩ := hw.slot t k rfl
      have hentry : m₁.word t (px 0 va) = translate m r va := by
        rw [← (hJ.tables hm₁).translate_of_place ht, hw.same hr (inUser_of_range hva hw.lt)]
      apply wp_get
      rw [hentry]
      apply wp_ite
      · exact fun hv => wp_pure (hstop _ m₁ hm₁ hw (Or.inr hv))
      · exact fun hv => wp_modify_bind (hnext t m₁ hm₁ hw ht (Bool.eq_false_iff.mpr hv))
  · rintro e ⟨rfl, hge⟩
    exact hpanic hge

end Walk

end RiscvBm.Vm

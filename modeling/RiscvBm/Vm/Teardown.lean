import RiscvBm.Lib.Release
import RiscvBm.Vm.Tables
import RiscvBm.Vm.Vma

/-!
# Taking an address space down

`free_task` gives the pages of a task back in two ways: `unmap_validpages` goes over the
areas, page by page, and `walk_user_page` over what is left in the table. The state here is
the store of frames with the list of all calls of `free_page`, so that a page that is freed
twice shows. `freeSpace_exact`: if the private part of the table is a tree, each of its
pages is freed once and no other page is.
-/

namespace RiscvBm.Vm.Teardown

open Wp Radix

/-! ## §1  The functions, with a record of `free_page` -/

abbrev TearM := Prog (Heap ℕ) Panic

/-- `walk(pagetable, a, 0)` -/
def walk (r a : ℕ) : TearM (Option (ℕ × ℕ)) := do
  if a ≥ maxva then throw .walk
  else
    let s ← get
    pure ((descend next s.word r (vpath a)).map fun t => (t, px 0 a))

/-- One round of `unmap_validpages`. -/
def unmapValid (r a : ℕ) : TearM Unit := do
  match ← walk r a with
  | none => pure ()
  | some (t, k) => do
    let s ← get
    let pte := s.word t k
    if isValid pte = false then pure ()
    else if pteFlags pte = pteV then pure ()
    else do
      modify fun s => s.free (pte2pa pte)
      modify fun s => s.set t k 0

def unmapValidpages (r va npages : ℕ) : TearM Unit :=
  if va % pgsize ≠ 0 then throw .notAligned
  else forRange (fun i => unmapValid r (va + i * pgsize)) 0 npages

/-- The loop that `walk_pte`, `walk_pud` and `walk_user_page` have in common, with `free` set:
`child` is what is done with the page an entry points to before the entry is cleared. -/
def walkTable (child : ℕ → Heap ℕ → Heap ℕ) (indices : List ℕ) (pagetable : ℕ) (s : Heap ℕ) :
    Heap ℕ :=
  indices.foldl (fun s i =>
    let pte := s.word pagetable i
    if isValid pte then ((child (pte2pa pte) s).set pagetable i 0).free (pte2pa pte) else s) s

def walkPte : ℕ → Heap ℕ → Heap ℕ := walkTable (fun _ s => s) (List.range 512)

def walkPud : ℕ → Heap ℕ → Heap ℕ := walkTable walkPte (List.range 512)

def walkUserPage : ℕ → Heap ℕ → Heap ℕ :=
  walkTable walkPud (List.range' (px 2 userCodeVmStart) (px 2 stackTop - px 2 userCodeVmStart))

/-- What `free_task` does with the table `r` and the areas of its task. An aligned area that
ends before it starts has no round in the source either: both the difference and the end that is
computed from it wrap around. -/
def freeSpace (r : ℕ) (mmap : List Vma) : TearM Unit := do
  forEach (fun v => unmapValidpages r v.vmStart ((v.vmEnd - v.vmStart) / pgsize)) mmap
  modify (walkUserPage r)
  modify fun s => s.free r

/-! ## §2  The private subtree -/

/-- The entries of the private part, by the height of the table: of the top table those of the
user's addresses. -/
def userIdx : ℕ → List ℕ
  | 2 => List.range' (px 2 userCodeVmStart) (px 2 stackTop - px 2 userCodeVmStart)
  | _ => List.range 512

/-- The pages of the private subtree below the top page. -/
def subtree (word : Store ℕ) (r : ℕ) : List ℕ := under next userIdx word 3 r

theorem nodup_userIdx (n : ℕ) : (userIdx n).Nodup := by
  unfold userIdx
  split
  · exact List.nodup_range'
  · exact List.nodup_range

/-- The loops of the source are the walk of the library. -/
theorem walkTable_eq {child : ℕ → Heap ℕ → Heap ℕ} {indices : List ℕ} {n pagetable : ℕ}
    {s : Heap ℕ} (hchild : ∀ p s, child p s = releaseTree next 0 userIdx n s p)
    (hidx : userIdx n = indices) :
    walkTable child indices pagetable s = releaseTree next 0 userIdx (n + 1) s pagetable := by
  rw [releaseTree, hidx, walkTable]
  congr 1
  funext s i
  unfold releaseEntry next
  dsimp only
  cases isValid (s.word pagetable i) with
  | true =>
    rw [if_pos rfl, if_pos rfl, hchild]
    rfl
  | false => rfl

theorem walkUserPage_eq (r : ℕ) (s : Heap ℕ) :
    walkUserPage r s = releaseTree next 0 userIdx 3 s r := by
  have hpte : ∀ p s, walkPte p s = releaseTree next 0 userIdx 1 s p :=
    fun p s => walkTable_eq (fun _ _ => rfl) rfl
  have hpud : ∀ p s, walkPud p s = releaseTree next 0 userIdx 2 s p :=
    fun p s => walkTable_eq hpte rfl
  unfold walkUserPage
  exact walkTable_eq hpud (by unfold userIdx; rfl)

theorem onto_vpath {a : ℕ} (hlo : userCodeVmStart ≤ a) (hhi : a < stackTop) :
    Onto userIdx 2 (vpath a) := by
  have hlo2 : px 2 userCodeVmStart = 64 := by decide
  have hhi2 : px 2 stackTop = 256 := by decide
  have hpx : 64 ≤ px 2 a ∧ px 2 a < 64 + (256 - 64) := by
    unfold px userCodeVmStart stackTop at *
    omega
  have htop : px 2 a ∈ userIdx 2 := by
    unfold userIdx
    rw [hlo2, hhi2]
    exact List.mem_range'_1.mpr hpx
  have hmid : px 1 a ∈ userIdx 1 := List.mem_range.mpr (px_lt 1 a)
  exact ⟨htop, hmid, trivial⟩

/-! ## §3  Each page once -/

/-- What was freed and what is still in the tree make up the tree at the start. -/
structure Inv (pages : List ℕ) (r : ℕ) (s : Heap ℕ) : Prop where
  nodup : (r :: subtree s.word r).Nodup
  perm : (s.freed ++ subtree s.word r).Perm pages

variable {pages : List ℕ} {r a : ℕ} {s : Heap ℕ}

theorem wp_walk {Q : Option (ℕ × ℕ) → Heap ℕ → Prop} {E : Panic → Prop} (ha : a < maxva)
    (h : Q ((descend next s.word r (vpath a)).map fun t => (t, px 0 a)) s) :
    wp (walk r a) Q E s := by
  unfold walk
  rw [if_neg (Nat.not_le.mpr ha)]
  exact wp_get (wp_pure h)

theorem wp_unmapValid (h : Inv pages r s) (hlo : userCodeVmStart ≤ a) (hhi : a < stackTop) :
    wp (unmapValid r a) (fun _ s' => Inv pages r s') noError s := by
  have hmax : a < maxva := hhi
  apply wp_bind (wp_walk (Q := fun o s' => s' = s ∧
    o = (descend next s.word r (vpath a)).map fun t => (t, px 0 a)) hmax ⟨rfl, rfl⟩)
  rintro o s' ⟨rfl, rfl⟩
  cases hd : descend next s'.word r (vpath a) with
  | none => exact wp_pure h
  | some t =>
    apply wp_get
    dsimp only
    apply wp_ite
    · exact fun _ => wp_pure h
    intro hvalid
    apply wp_ite
    · exact fun _ => wp_pure h
    intro _
    -- the entry is cleared and its page freed
    have hx : next (s'.word t (px 0 a)) = some (pte2pa (s'.word t (px 0 a))) :=
      next_eq_some.mpr ⟨Bool.eq_true_of_not_eq_false hvalid, rfl⟩
    have hperm := under_write nodup_userIdx next_zero (onto_vpath hlo hhi) hd
      (List.mem_range.mpr (px_lt 0 a)) hx h.nodup
    apply wp_modify_bind
    apply wp_modify
    constructor
    · have hnd := (hperm.cons r).nodup_iff.mp h.nodup
      exact hnd.sublist ((List.sublist_cons_self _ _).cons_cons r)
    · refine List.Perm.trans ?_ h.perm
      show (s'.freed ++ [_] ++ _).Perm _
      rw [List.append_assoc]
      exact hperm.symm.append_left _

theorem wp_unmapValidpages {va npages : ℕ} (h : Inv pages r s) (hal : va % pgsize = 0)
    (hlo : userCodeVmStart ≤ va) (hhi : va + npages * pgsize ≤ stackTop) :
    wp (unmapValidpages r va npages) (fun _ s' => Inv pages r s') noError s := by
  unfold unmapValidpages
  rw [if_neg (not_not.mpr hal)]
  apply wp_forRange_zero (I := fun _ s' => Inv pages r s') _ h
  intro j s' hj h'
  apply wp_unmapValid h' (by omega)
  have hle : (j + 1) * pgsize ≤ npages * pgsize := Nat.mul_le_mul_right _ hj
  unfold pgsize at *
  omega

/-- The areas are page-aligned and inside the range of the private entries. -/
def Inside (v : Vma) : Prop :=
  v.vmStart % pgsize = 0 ∧ v.vmEnd % pgsize = 0 ∧ userCodeVmStart ≤ v.vmStart ∧
    v.vmEnd ≤ stackTop

instance (v : Vma) : Decidable (Inside v) := inferInstanceAs (Decidable (_ ∧ _))

theorem wp_freeSpace {mmap : List Vma} (hmmap : ∀ v ∈ mmap, Inside v) (h : Inv pages r s) :
    wp (freeSpace r mmap) (fun _ s' => s'.freed.Perm (pages ++ [r])) noError s := by
  unfold freeSpace
  have hloop : wp (forEach (fun v => unmapValidpages r v.vmStart ((v.vmEnd - v.vmStart) / pgsize))
      mmap) (fun _ s' => (∀ v ∈ [], Inside v) ∧ Inv pages r s') noError s := by
    apply wp_forEach (I := fun l s' => (∀ v ∈ l, Inside v) ∧ Inv pages r s') _ ⟨hmmap, h⟩
    rintro v l s' ⟨hl, h'⟩
    obtain ⟨hal, -, hlo, hhi⟩ := hl v List.mem_cons_self
    by_cases hle : v.vmStart ≤ v.vmEnd
    · have hend : v.vmStart + (v.vmEnd - v.vmStart) / pgsize * pgsize ≤ stackTop := by
        have := Nat.div_mul_le_self (v.vmEnd - v.vmStart) pgsize
        omega
      exact wp_post (wp_unmapValidpages h' hal hlo hend) fun _ _ h'' =>
        ⟨fun w hw => hl w (List.mem_cons_of_mem v hw), h''⟩
    · -- an empty area: no round at all
      rw [Nat.sub_eq_zero_of_le (by omega), Nat.zero_div]
      unfold unmapValidpages
      rw [if_neg (not_not.mpr hal)]
      exact wp_pure ⟨fun w hw => hl w (List.mem_cons_of_mem v hw), h'⟩
  apply wp_bind hloop
  rintro _ s' ⟨-, h'⟩
  apply wp_modify_bind
  apply wp_modify
  rw [walkUserPage_eq]
  have hrel := releaseTree_spec (z := 0) nodup_userIdx 3 s' r h'.nodup
  show (_ ++ [r]).Perm _
  rw [hrel.freed]
  exact h'.perm.append_right [r]

/-- If the private subtree is a tree, taking the space down returns, and the calls of
`free_page` are for the top page and the pages that the private entries lead to, each once. A
page that only an entry shared with the kernel leads to is not freed. -/
theorem freeSpace_exact (word : Store ℕ) (r : ℕ) (mmap : List Vma)
    (htree : (r :: subtree word r).Nodup) (hmmap : ∀ v ∈ mmap, Inside v) :
    ∃ s', freeSpace r mmap ⟨word, []⟩ = .ok ((), s') ∧ s'.freed.Nodup ∧
      ∀ p, p ∈ s'.freed ↔ ∃ σ, Path userIdx 3 σ ∧ descend next word r σ = some p := by
  have hinv : Inv (subtree word r) r ⟨word, []⟩ := ⟨htree, List.Perm.of_eq (List.nil_append _)⟩
  obtain ⟨_, s', hrun, hperm⟩ := exists_of_wp (wp_freeSpace hmmap hinv)
  have hperm' : s'.freed.Perm (r :: subtree word r) :=
    hperm.trans (List.perm_append_singleton r _)
  refine ⟨s', hrun, hperm'.nodup_iff.mpr htree, fun p => ?_⟩
  rw [hperm'.mem_iff, subtree]
  exact mem_under

/-- A task with one code page: tables 2 and 3 and the page 4 under the top page 1. -/
def onePage : Store ℕ :=
  write (write (write (fun _ _ => 0) 1 64 (pa2pte 2 ||| pteV)) 2 0 (pa2pte 3 ||| pteV)) 3 0
    (pa2pte 4 ||| pteV ||| pteR ||| pteU)

theorem next_onePage {t k : ℕ} (h : ¬ (t = 1 ∧ k = 64) ∧ ¬ (t = 2 ∧ k = 0) ∧ ¬ (t = 3 ∧ k = 0)) :
    next (onePage t k) = none := by
  rw [onePage, write_of_ne _ _ h.2.2, write_of_ne _ _ h.2.1, write_of_ne _ _ h.1]
  exact next_zero

theorem subtree_onePage : (subtree onePage 1).Perm [2, 3, 4] := by
  have hpx : px 2 userCodeVmStart = 64 := by decide
  have h64 : 64 ∈ userIdx 2 := by
    have honto := @onto_vpath userCodeVmStart le_rfl (by unfold userCodeVmStart stackTop; omega)
    rw [← hpx]
    exact honto.1
  have hzero : 0 ∈ List.range 512 := List.mem_range.mpr (Nat.zero_lt_succ _)
  have htop := under_single (p := 2) (nodup_userIdx 2) h64 (by decide)
    fun i hi => @next_onePage 1 i (by omega)
  have hmid := under_single (p := 3) (nodup_userIdx 1) hzero (by decide)
    fun i hi => @next_onePage 2 i (by omega)
  have hlow := under_single (p := 4) (nodup_userIdx 0) hzero (by decide)
    fun i hi => @next_onePage 3 i (by omega)
  exact htop.trans ((hmid.trans (hlow.cons 3)).cons 2)

theorem freeSpace_exact_onePage :
    ∃ s', freeSpace 1 [⟨userCodeVmStart, userCodeVmStart + pgsize, 0⟩] ⟨onePage, []⟩ =
        .ok ((), s') ∧ s'.freed.Nodup ∧
      ∀ p, p ∈ s'.freed ↔ ∃ σ, Path userIdx 3 σ ∧ descend next onePage 1 σ = some p :=
  freeSpace_exact onePage 1 _ ((subtree_onePage.cons 1).nodup_iff.mpr (by decide)) (by decide)

/-! ## §4  The same steps without the record -/

/-- `m` is the memory of the other modules after the calls recorded in `s`. -/
structure Sim (m₀ m : Mem) (s : Heap ℕ) : Prop where
  word : m.word = s.word
  used : m.used = m₀.used.filter fun e => e.1 ∉ s.freed

variable {alloc : Mem → ℕ} {m₀ m : Mem}

theorem sim_unmapValid (h : Sim m₀ m s) (ha : a < maxva) :
    ∃ m' s', Vm.unmapValid alloc r a m = .ok ((), m') ∧
      unmapValid r a s = .ok ((), s') ∧ Sim m₀ m' s' := by
  have hwalk : walk r a s =
      .ok ((descend next s.word r (vpath a)).map fun t => (t, px 0 a), s) := by
    unfold walk
    rw [if_neg (Nat.not_le.mpr ha)]
    rfl
  unfold Vm.unmapValid unmapValid
  rw [bind_run (walk_false ha), bind_run hwalk, h.word]
  cases hd : descend next s.word r (vpath a) with
  | none => exact ⟨m, s, rfl, rfl, h⟩
  | some t =>
    simp only [Option.map_some]
    rw [bind_get, bind_get, h.word]
    by_cases hv : isValid (s.word t (px 0 a)) = false
    · rw [if_pos hv, if_pos hv]
      exact ⟨m, s, rfl, rfl, h⟩
    rw [if_neg hv, if_neg hv]
    by_cases hf : pteFlags (s.word t (px 0 a)) = pteV
    · rw [if_pos hf, if_pos hf]
      exact ⟨m, s, rfl, rfl, h⟩
    rw [if_neg hf, if_neg hf]
    refine ⟨_, _, rfl, rfl, ?_, ?_⟩
    · show write m.word _ _ 0 = write s.word _ _ 0
      rw [h.word]
    · show (m.used.filter _) = _
      rw [h.used, List.filter_filter]
      congr 1
      funext e
      show (decide _ && decide _) = decide (e.1 ∉ s.freed ++ [_])
      simp [Bool.and_comm]

theorem sim_forRange {va npages i : ℕ} (h : Sim m₀ m s)
    (hhi : va + (i + npages) * pgsize ≤ maxva) :
    ∃ m' s', forRange (fun i => Vm.unmapValid alloc r (va + i * pgsize)) i npages m = .ok ((), m') ∧
      forRange (fun i => unmapValid r (va + i * pgsize)) i npages s = .ok ((), s') ∧
      Sim m₀ m' s' := by
  induction npages generalizing i m s with
  | zero => exact ⟨m, s, rfl, rfl, h⟩
  | succ n ih =>
    have hle : (i + 1) * pgsize ≤ (i + (n + 1)) * pgsize := Nat.mul_le_mul_right _ (by omega)
    have ha : va + i * pgsize < maxva := by
      unfold pgsize at *
      omega
    obtain ⟨m₁, s₁, hm₁, hs₁, h₁⟩ := sim_unmapValid (r := r) h ha
    obtain ⟨m₂, s₂, hm₂, hs₂, h₂⟩ := ih (i := i + 1) h₁
      (by rw [Nat.add_assoc, Nat.add_comm 1]; exact hhi)
    refine ⟨m₂, s₂, ?_, ?_, h₂⟩
    · rw [forRange, bind_run hm₁]
      exact hm₂
    · rw [forRange, bind_run hs₁]
      exact hs₂

/-- `unmap_validpages` as it is used elsewhere does the same. -/
theorem sim_unmapValidpages {va npages : ℕ} (h : Sim m₀ m s) (hal : va % pgsize = 0)
    (hhi : va + npages * pgsize ≤ maxva) :
    ∃ m' s', Vm.unmapValidpages alloc r va npages m = .ok ((), m') ∧
      unmapValidpages r va npages s = .ok ((), s') ∧ Sim m₀ m' s' := by
  unfold Vm.unmapValidpages unmapValidpages
  rw [if_neg (not_not.mpr hal), if_neg (not_not.mpr hal)]
  exact sim_forRange h (by rw [Nat.zero_add]; exact hhi)

end RiscvBm.Vm.Teardown

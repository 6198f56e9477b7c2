import Mathlib.Data.List.Nodup
import Mathlib.Data.List.Pairwise
import RiscvBm.Mm.PageAlloc

/-!
# Invariants of the buddy allocator

The blocks on the free lists, the live blocks and the block a function has in
hand tile the pages handed over at boot (`Part`). Splitting and merging keep the
tiling by the rules of the block library; what this file adds is that the code's
flags always say enough: `page_is_buddy` is asked only about the head of a block
that is not larger than the one in hand, and there flag and order are exact.
-/

namespace RiscvBm.PageAlloc

open BitOps RiscvBm.Dyadic Transition Function

/-! ## §1  Free blocks -/

/-- The allocator and, for the statements, the blocks its callers hold. -/
structure Sys where
  mem : St
  live : List (ℕ × ℕ)

/-- All blocks: those on `free_area[0..MAX_ORDER-1]` and the live ones. -/
def blocks (s : Sys) : List (ℕ × ℕ) :=
  ((List.range maxOrder).flatMap fun k => (s.mem.area k).list.map fun p => (p, k)) ++ s.live

/-- Block `(p, k)` is on a free list. -/
def Free (s : St) (p k : ℕ) : Prop := k < maxOrder ∧ p ∈ (s.area k).list

theorem mem_blocks (s : St) (out : List (ℕ × ℕ)) (b : ℕ × ℕ) :
    b ∈ blocks ⟨s, out⟩ ↔ Free s b.1 b.2 ∨ b ∈ out := by
  simp only [blocks, List.mem_append, List.mem_flatMap, List.mem_range, List.mem_map, Free]
  refine or_congr_left ⟨?_, fun ⟨hk, hp⟩ => ⟨b.2, hk, b.1, hp, rfl⟩⟩
  rintro ⟨k, hk, p, hp, rfl⟩
  exact ⟨hk, hp⟩

theorem blocks_out (s : St) (a out : List (ℕ × ℕ)) :
    (blocks ⟨s, a ++ out⟩).Perm (a ++ blocks ⟨s, out⟩) :=
  List.perm_append_comm_assoc ..

@[simp] theorem free_setPage (s : St) (x : ℕ) (a : Page) (p k : ℕ) :
    Free (setPage s x a) p k ↔ Free s p k := Iff.rfl

@[simp] theorem setArea_page (s : St) (k : ℕ) (a : Area) : (setArea s k a).page = s.page := rfl

@[simp] theorem setArea_self (s : St) (k : ℕ) (a : Area) : (setArea s k a).area k = a := by
  simp [setArea]

variable {j x n order : ℕ} {b : ℕ × ℕ} {rs : List Region}

theorem setArea_of_ne {s : St} {k : ℕ} (a : Area) (h : j ≠ k) :
    (setArea s k a).area j = s.area j := by
  simp [setArea, update_of_ne h]

@[simp] theorem setPage_self (s : St) (x : ℕ) (a : Page) : (setPage s x a).page x = a := by
  simp [setPage]

theorem setPage_of_ne {s : St} {y : ℕ} (a : Page) (h : y ≠ x) :
    (setPage s x a).page y = s.page y := by
  simp [setPage, update_of_ne h]

theorem free_setArea {s : St} {k : ℕ} {a : Area} (p j : ℕ) :
    Free (setArea s k a) p j ↔
      if j = k then j < maxOrder ∧ p ∈ a.list else Free s p j := by
  unfold Free
  split_ifs with h
  · rw [h, setArea_self]
  · rw [setArea_of_ne a h]

/-- One block less on the list of its order. -/
theorem blocks_cons {s : St} {p k : ℕ} {l : List ℕ} (hk : k < maxOrder)
    (hl : (s.area k).list.Perm (p :: l)) (m : ℤ) (out : List (ℕ × ℕ)) :
    (blocks ⟨s, out⟩).Perm ((p, k) :: blocks ⟨setArea s k ⟨l, m⟩, out⟩) := by
  let f (t : St) (j : ℕ) : List (ℕ × ℕ) := (t.area j).list.map fun p => (p, j)
  have hperm : ∀ t, (blocks ⟨t, out⟩).Perm
      (f t k ++ (((List.range maxOrder).erase k).flatMap (f t) ++ out)) := by
    intro t
    rw [← List.append_assoc]
    exact ((List.perm_cons_erase (List.mem_range.mpr hk)).flatMap_right (f t)).append_right out
  have hrest : ((List.range maxOrder).erase k).flatMap (f (setArea s k ⟨l, m⟩)) =
      ((List.range maxOrder).erase k).flatMap (f s) := by
    refine List.flatMap_congr fun j hj => ?_
    have hne : j ≠ k := (List.nodup_range.mem_erase_iff.mp hj).1
    show List.map _ ((setArea s k ⟨l, m⟩).area j).list = _
    rw [setArea_of_ne _ hne]
  have hnew := hperm (setArea s k ⟨l, m⟩)
  rw [hrest, show f (setArea s k ⟨l, m⟩) k = l.map fun p => (p, k) from
    congrArg (fun a => a.list.map fun p => (p, k)) (setArea_self ..)] at hnew
  exact ((hperm s).trans ((hl.map _).append_right _)).trans (hnew.cons (p, k)).symm

/-! ## §2  The partition -/

/-- The free blocks and the blocks `out` tile `B`; counters, flags and orders of
the free blocks are right, and no page outside `B` is flagged. -/
structure Part (B : ℕ → Prop) (s : St) (out : List (ℕ × ℕ)) : Prop where
  tiling : Tiling (maxOrder - 1) B (blocks ⟨s, out⟩)
  count : ∀ k, (s.area k).nrFree = (s.area k).list.length
  flag : ∀ p k, Free s p k → (s.page p).buddy = true ∧ (s.page p).priv = k
  outside : ∀ x, ¬ B x → (s.page x).buddy = false

/-- The first page of a live block is not flagged and has one reference. -/
def LiveOk (s : St) (live : List (ℕ × ℕ)) : Prop :=
  ∀ b ∈ live, (s.page b.1).buddy = false ∧ (s.page b.1).refcount = 1

/-- No two buddies are free. -/
def Merged (s : St) : Prop :=
  ∀ p k, Free s p k → k < maxOrder - 1 → ¬ Free s (buddy p k) k

variable {B : ℕ → Prop} {s s' : St} {out live : List (ℕ × ℕ)} {p k : ℕ}

theorem mem_head : (p, k) ∈ blocks ⟨s, (p, k) :: out⟩ :=
  (mem_blocks ..).mpr (Or.inr List.mem_cons_self)

theorem Free.mem_blocks (hf : Free s p k) : (p, k) ∈ blocks ⟨s, out⟩ :=
  (PageAlloc.mem_blocks ..).mpr (Or.inl hf)

theorem Part.out_disjoint (h : Part B s out) :
    out.Pairwise fun a b => ∀ x, InBlock a.1 a.2 x → ¬ InBlock b.1 b.2 x :=
  h.tiling.disjoint.sublist (List.sublist_append_right ..)

section

variable (h : Part B s ((p, k) :: out))

include h

theorem Part.aligned : Aligned p k := h.tiling.aligned _ mem_head

theorem Part.order_lt : k < maxOrder :=
  Nat.lt_succ_of_le (h.tiling.le _ mem_head)

theorem Part.mem_of_inBlock (hx : InBlock p k x) : B x := (h.tiling.cover x).mpr ⟨_, mem_head, hx⟩

/-- No other block meets the first one of those outside the lists. -/
theorem Part.apart (hx : InBlock p k x) (hb : b ∈ blocks ⟨s, out⟩) : ¬ InBlock b.1 b.2 x :=
  (List.pairwise_cons.mp (h.tiling.perm (blocks_out s [_] out)).disjoint).1 b hb x hx

theorem Part.not_free {q : ℕ} (hx : InBlock p k x) (hq : InBlock q j x) : ¬ Free s q j :=
  fun hf => h.apart hx hf.mem_blocks hq

/-- The first pages of the other blocks are not in the first one. -/
theorem Part.live_notMem (hb : b ∈ out) : ¬ InBlock p k b.1 :=
  fun hx => h.apart hx ((mem_blocks ..).mpr (Or.inr hb)) (inBlock_self b.1 b.2)

theorem Part.live_ne (hb : b ∈ out) : b.1 ≠ p :=
  fun heq => h.live_notMem hb (heq ▸ inBlock_self p k)

end

/-- **The buddy test is exact.** A stale flag lies inside a block that is too
large to be asked about, or on a page whose recorded order is another one. -/
theorem Part.isBuddy_iff (h : Part B s ((p, k) :: live)) (hlive : LiveOk s live) :
    pageIsBuddy s (findBuddyPfn p k) k = true ↔ Free s (buddy p k) k := by
  simp only [pageIsBuddy, findBuddyPfn, Bool.and_eq_true, beq_iff_eq]
  constructor
  · rintro ⟨hflag, hpriv⟩
    have hB : B (buddy p k) := by
      by_contra hB
      rw [h.outside _ hB] at hflag
      cases hflag
    obtain ⟨j, -, hj⟩ := h.tiling.at_buddy mem_head hB
    rcases (mem_blocks ..).mp hj with hf | hm
    · obtain rfl : j = k := (h.flag _ _ hf).2.symm.trans hpriv
      exact hf
    · rcases List.mem_cons.mp hm with heq | hm
      · exact absurd (congrArg Prod.fst heq) (buddy_ne p k)
      · rw [(hlive _ hm).1] at hflag
        cases hflag
  · intro hf
    exact h.flag _ _ hf

/-! ## §3  Merging -/

@[simp] theorem addNrFree_setArea (s : St) (k : ℕ) (a : Area) (d : ℤ) :
    addNrFree (setArea s k a) k d = setArea s k { a with nrFree := a.nrFree + d } := by
  simp [addNrFree, setArea]

theorem listDel_eq (h : Part B s out) (hf : Free s p k) :
    listDel s p = some (setArea s k { s.area k with list := (s.area k).list.erase p }) := by
  have hfind : (List.range maxOrder).find? (fun j => p ∈ (s.area j).list) = some k := by
    cases hj : (List.range maxOrder).find? (fun j => p ∈ (s.area j).list) with
    | none =>
      rw [List.find?_eq_none] at hj
      exact absurd (by simpa using hf.2) (hj k (List.mem_range.mpr hf.1))
    | some j =>
      have hlt := List.mem_range.mp (List.mem_of_find?_eq_some hj)
      have hmem : p ∈ (s.area j).list := by simpa using List.find?_some hj
      have hfree : Free s p j := ⟨hlt, hmem⟩
      exact congrArg (some ·.2) (h.tiling.eq_of_inBlock hf.mem_blocks hfree.mem_blocks
        (inBlock_self p k) (inBlock_self p j))
  rw [listDel, hfind]

/-- Block `(q, k)` is taken off its list. -/
def unlink (s : St) (q k : ℕ) : St :=
  setArea s k ⟨(s.area k).list.erase q, (s.area k).nrFree + -1⟩

theorem free_of_unlink {q r : ℕ} (h : Free (unlink s q k) r j) : Free s r j := by
  unfold unlink at h
  rw [free_setArea] at h
  split_ifs at h with hj
  · subst hj
    exact ⟨h.1, List.mem_of_mem_erase h.2⟩
  · exact h

theorem free_unlink {q r : ℕ} (h : Free s r j) (hne : ¬ (r = q ∧ j = k)) :
    Free (unlink s q k) r j := by
  unfold unlink
  rw [free_setArea]
  split_ifs with hj
  · subst hj
    exact ⟨h.1, (List.mem_erase_of_ne fun heq => hne ⟨heq, rfl⟩).mpr h.2⟩
  · exact h

/-- Taking a block off its list moves it to the blocks in hand. -/
theorem Part.unlink (h : Part B s out) (hf : Free s p k) :
    Part B (PageAlloc.unlink s p k) ((p, k) :: out) where
  tiling := h.tiling.perm ((blocks_cons hf.1 (List.perm_cons_erase hf.2) _ out).trans
    (blocks_out _ [_] out).symm)
  count j := by
    by_cases hj : j = k
    · subst hj
      have hlen := List.length_pos_of_mem hf.2
      rw [PageAlloc.unlink, setArea_self]
      dsimp only
      rw [h.count, List.length_erase_of_mem hf.2]
      omega
    · rw [PageAlloc.unlink, setArea_of_ne _ hj]
      exact h.count j
  flag q j hq := h.flag q j (free_of_unlink hq)
  outside := h.outside

/-- The descriptors inside a block that is on no list may change. -/
theorem Part.setPages (h : Part B s ((p, k) :: out)) {page : ℕ → Page}
    (hpage : ∀ x, ¬ InBlock p k x → page x = s.page x) :
    Part B { s with page := page } ((p, k) :: out) := by
  refine { h with flag := fun q j hq => ?_, outside := fun x hx => ?_ }
  · have hnot : ¬ InBlock p k q := fun hx => h.not_free hx (inBlock_self q j) hq
    dsimp only
    rw [hpage q hnot]
    exact h.flag q j hq
  · dsimp only
    rw [hpage x fun hin => hx (h.mem_of_inBlock hin)]
    exact h.outside x hx

theorem setPage_outside (s : St) (k : ℕ) (a : Page) (x : ℕ) (hx : ¬ InBlock p k x) :
    (setPage s p a).page x = s.page x := by
  apply setPage_of_ne
  rintro rfl
  exact hx (inBlock_self x k)

/-- The blocks in hand are cut in another way. -/
theorem Part.recut {a c : List (ℕ × ℕ)} (h : Part B s (a ++ out))
    (hcut : Tiling (maxOrder - 1) B (a ++ blocks ⟨s, out⟩) →
      Tiling (maxOrder - 1) B (c ++ blocks ⟨s, out⟩)) : Part B s (c ++ out) :=
  { h with tiling := (hcut (h.tiling.perm (blocks_out ..))).perm (blocks_out ..).symm }

theorem Merged.of_imp (h : Merged s) (hf : ∀ p k, Free s' p k → Free s p k) : Merged s' :=
  fun p k hp hk hq => h p k (hf _ _ hp) hk (hf _ _ hq)

/-- What holds with block `(p, k)` in hand. -/
structure Hand (B : ℕ → Prop) (s : St) (live : List (ℕ × ℕ)) (p k : ℕ) : Prop
    extends Part B s ((p, k) :: live) where
  live_ok : LiveOk s live
  merged : Merged s

/-- The descriptors inside the block in hand may be reset. -/
theorem Hand.resetPages (h : Hand B s live p k) {page : ℕ → Page}
    (hout : ∀ x, ¬ InBlock p k x → page x = s.page x) :
    Hand B { s with page := page } live p k := by
  refine { h.toPart.setPages hout with live_ok := fun b hb => ?_, merged := h.merged }
  dsimp only
  rw [hout _ (h.live_notMem hb)]
  exact h.live_ok b hb

/-- One round of the loop of `__free_one_page`. -/
theorem Hand.absorb (h : Hand B s live p k) (hk : k < maxOrder - 1)
    (hf : Free s (buddy p k) k) :
    Hand B (clearPageOrder (PageAlloc.unlink s (buddy p k) k) p) live (buddy p k &&& p)
      (k + 1) := by
  have hreset : Hand B (clearPageOrder s p) live p k := h.resetPages (setPage_outside s k _)
  have hpart : Part B (clearPageOrder (PageAlloc.unlink s (buddy p k) k) p)
      ([(buddy p k, k), (p, k)] ++ live) := hreset.toPart.unlink hf
  refine { hpart.recut (c := [_]) fun ht => ht.merge hk with
    live_ok := hreset.live_ok, merged := ?_ }
  exact h.merged.of_imp fun r j hr => free_of_unlink hr

theorem mergeLoop_absorb (h : Hand B s live p k) (hf : Free s (buddy p k) k) :
    mergeLoop (n + 1) s p k =
      mergeLoop n (clearPageOrder (PageAlloc.unlink s (buddy p k) k) p)
        (buddy p k &&& p) (k + 1) := by
  have hb := (h.isBuddy_iff h.live_ok).mpr hf
  have hdel := listDel_eq h.toPart hf
  rw [mergeLoop]
  simp only [hb, if_true]
  rw [show listDel s (findBuddyPfn p k) = _ from hdel]
  change mergeLoop n (clearPageOrder (addNrFree (setArea s k _) k (-1)) p) _ _ = _
  rw [addNrFree_setArea]
  rfl

theorem mergeLoop_stop (h : Hand B s live p k) (hf : ¬ Free s (buddy p k) k) :
    mergeLoop (n + 1) s p k = some (s, p, k) := by
  have hb : ¬ pageIsBuddy s (findBuddyPfn p k) k = true :=
    fun hb => hf ((h.isBuddy_iff h.live_ok).mp hb)
  rw [mergeLoop]
  simp only [hb]
  rfl

theorem mergeLoop_spec (hn : n = maxOrder - 1 - k) (h : Hand B s live p k) :
    ∃ s' p' k', mergeLoop n s p k = some (s', p', k') ∧ Hand B s' live p' k' ∧
      (k' < maxOrder - 1 → ¬ Free s' (buddy p' k') k') := by
  induction n generalizing s p k with
  | zero => exact ⟨s, p, k, rfl, h, fun hk => by omega⟩
  | succ n ih =>
    by_cases hf : Free s (buddy p k) k
    · rw [mergeLoop_absorb h hf]
      exact ih (by omega) (h.absorb (by omega) hf)
    · exact ⟨s, p, k, mergeLoop_stop h hf, h, fun _ => hf⟩

/-! ## §4  Putting a block on its list -/

/-- `list_add`, `nr_free++` and `set_page_order` together. -/
def link (s : St) (p k : ℕ) : St :=
  setPageOrder (setArea s k ⟨p :: (s.area k).list, (s.area k).nrFree + 1⟩) p k

/-- The end of `__free_one_page`. -/
theorem link_of_done (s : St) (p k : ℕ) :
    addNrFree (listAdd (setPageOrder s p k) p k) k 1 = link s p k := by
  unfold listAdd
  rw [addNrFree_setArea]
  rfl

/-- A round of `expend`. -/
theorem link_of_split (s : St) (p k : ℕ) :
    setPageOrder (addNrFree (listAdd s p k) k 1) p k = link s p k := by
  unfold listAdd
  rw [addNrFree_setArea]
  rfl

theorem free_link {s : St} {p k : ℕ} (hk : k < maxOrder) (r j : ℕ) :
    Free (link s p k) r j ↔ (r = p ∧ j = k) ∨ Free s r j := by
  unfold link setPageOrder
  rw [free_setPage, free_setArea]
  split_ifs with hj
  · subst hj
    unfold Free
    rw [List.mem_cons]
    tauto
  · simp [hj]

theorem link_page_of_ne (h : x ≠ p) : (link s p k).page x = s.page x := by
  unfold link setPageOrder
  rw [setPage_of_ne _ h, setArea_page]

theorem Part.link (h : Part B s ((p, k) :: out)) : Part B (PageAlloc.link s p k) out := by
  have hfree := free_link (s := s) (p := p) h.order_lt
  have hback : setArea (PageAlloc.link s p k) k ⟨(s.area k).list, (s.area k).nrFree⟩ =
      setPageOrder s p k := by simp [PageAlloc.link, setArea, setPageOrder, setPage]
  have hblocks := @blocks_cons (PageAlloc.link s p k) p k (s.area k).list h.order_lt
    (List.Perm.of_eq (congrArg Area.list (setArea_self ..))) (s.area k).nrFree out
  rw [hback] at hblocks
  refine ⟨h.tiling.perm ((blocks_out s [_] out).trans hblocks.symm), fun j => ?_, fun q j hq => ?_,
    fun x hx => ?_⟩
  · show ((setArea s k _).area j).nrFree = ((setArea s k _).area j).list.length
    by_cases hj : j = k
    · subst hj
      rw [setArea_self]
      simp [h.count]
    · rw [setArea_of_ne _ hj]
      exact h.count j
  · by_cases hqp : q = p
    · subst hqp
      rcases (hfree q j).mp hq with ⟨-, rfl⟩ | hq'
      · simp [PageAlloc.link, setPageOrder]
      · exact absurd hq' (h.not_free (inBlock_self q k) (inBlock_self q j))
    · rw [link_page_of_ne hqp]
      rcases (hfree q j).mp hq with ⟨rfl, -⟩ | hq'
      · exact absurd rfl hqp
      · exact h.flag q j hq'
  · have hxp : x ≠ p := by
      rintro rfl
      exact hx (h.mem_of_inBlock (inBlock_self x k))
    rw [link_page_of_ne hxp]
    exact h.outside x hx

/-- A block whose buddy is not free leaves nothing to merge. -/
theorem Merged.link (h : Merged s) (hk : k < maxOrder)
    (hb : k < maxOrder - 1 → ¬ Free s (buddy p k) k) : Merged (PageAlloc.link s p k) := by
  intro r j hr hj hq
  rcases (free_link hk r j).mp hr with ⟨rfl, rfl⟩ | hr'
  · rcases (free_link hk _ j).mp hq with ⟨he, -⟩ | hq'
    · exact buddy_ne r j he
    · exact hb hj hq'
  · rcases (free_link hk _ j).mp hq with ⟨he, rfl⟩ | hq'
    · refine hb hj ?_
      rw [← he, buddy_buddy]
      exact hr'
    · exact h r j hr' hj hq'

theorem Hand.live_ok_of_ne (h : Hand B s live p k)
    (hpage : ∀ x, x ≠ p → s'.page x = s.page x) : LiveOk s' live := by
  intro b hb
  rw [hpage _ (h.live_ne hb)]
  exact h.live_ok b hb

/-- The invariant between two calls. -/
structure Inv (B : ℕ → Prop) (s : St) (live : List (ℕ × ℕ)) : Prop extends Part B s live where
  live_ok : LiveOk s live
  merged : Merged s

theorem Hand.link (h : Hand B s live p k)
    (hb : k < maxOrder - 1 → ¬ Free s (buddy p k) k) : Inv B (PageAlloc.link s p k) live where
  toPart := h.toPart.link
  live_ok := h.live_ok_of_ne fun _ hx => link_page_of_ne hx
  merged := h.merged.link h.order_lt hb

theorem freeOnePage_spec (h : Hand B s live p k) :
    ∃ s', freeOnePage s p k = some s' ∧ Inv B s' live := by
  obtain ⟨t, q, j, hrun, hhand, hlast⟩ := mergeLoop_spec rfl h
  refine ⟨PageAlloc.link t q j, ?_, hhand.link hlast⟩
  simp only [freeOnePage, hrun]
  exact congrArg some (link_of_done t q j)

/-! ## §5  `__free_pages` -/

/-- `page->_refcount--` for the last reference to a live block, which is in hand from then on. -/
theorem freePages_eq (h : Inv B s live) (hmem : (p, k) ∈ live) :
    freePages s p k = freeOnePage (setPage s p { s.page p with refcount := 0 }) p k ∧
      Hand B (setPage s p { s.page p with refcount := 0 }) (live.erase (p, k)) p k := by
  have hhand : Hand B s (live.erase (p, k)) p k :=
    { h.toPart with
      tiling := h.tiling.perm ((List.perm_cons_erase hmem).append_left _)
      live_ok := fun b hb => h.live_ok b (List.mem_of_mem_erase hb)
      merged := h.merged }
  have href : (s.page p).refcount - 1 = 0 := by
    rw [(h.live_ok _ hmem).2]
    rfl
  refine ⟨?_, hhand.resetPages (setPage_outside s k _)⟩
  simp only [freePages, href, if_true]

theorem freePages_spec (h : Inv B s live) (hmem : (p, k) ∈ live) :
    ∃ s', freePages s p k = some s' ∧ Inv B s' (live.erase (p, k)) := by
  obtain ⟨heq, hhand⟩ := freePages_eq h hmem
  rw [heq]
  exact freeOnePage_spec hhand

/-! ## §6  `alloc_pages` -/

/-- A round of `expend`: the upper half of the block in hand goes to its list. -/
theorem Hand.split (h : Hand B s live p (k + 1)) :
    Hand B (PageAlloc.link s (p + 2 ^ k) k) live p k := by
  -- both halves in hand first
  have hsplit : Part B s ((p + 2 ^ k, k) :: (p, k) :: live) :=
    Part.recut (a := [_]) (c := [_, _]) h.toPart fun ht => ht.split
  refine { hsplit.link with live_ok := ?_, merged := ?_ }
  · intro b hb
    rw [link_page_of_ne (hsplit.live_ne (List.mem_cons_of_mem _ hb))]
    exact h.live_ok b hb
  · refine h.merged.link hsplit.order_lt fun _ => ?_
    -- the lower half is still in hand
    have hbuddy : buddy (p + 2 ^ k) k = p := by
      rcases buddy_cases (h.aligned.mono (Nat.le_succ k)) with ⟨-, hb⟩ | ⟨hal', hb⟩
      · rw [← hb, buddy_buddy]
      · exact absurd h.aligned (not_aligned_upper hal' hb)
    rw [hbuddy]
    exact h.not_free (inBlock_self p (k + 1)) (inBlock_self p k)

/-- `expend` gives back everything but the first `2 ^ low` pages. -/
theorem expend_spec {low : ℕ} (h : Hand B s live p (low + n)) :
    Hand B (expend n s p (low + n)) live p low ∧
      (expend n s p (low + n)).page p = s.page p := by
  induction n generalizing s with
  | zero => exact ⟨h, rfl⟩
  | succ n ih =>
    have hpos := Nat.two_pow_pos (low + n)
    rw [expend, show low + (n + 1) - 1 = low + n from rfl, link_of_split]
    obtain ⟨hhand, hpage⟩ := ih (Hand.split (k := low + n) h)
    refine ⟨hhand, ?_⟩
    rw [hpage, link_page_of_ne (by omega)]

/-- `__rmqueue` takes the first block of a list. -/
theorem take_head {rest : List ℕ} (hlist : (s.area k).list = p :: rest) :
    addNrFree (clearPageOrder (setArea s k { s.area k with list := rest }) p) k (-1) =
      clearPageOrder (PageAlloc.unlink s p k) p := by
  simp [addNrFree, clearPageOrder, PageAlloc.unlink, setArea, setPage, hlist]

theorem Inv.take (h : Inv B s live) (hf : Free s p k) :
    Hand B (PageAlloc.clearPageOrder (PageAlloc.unlink s p k) p) live p k := by
  have hhand : Hand B (PageAlloc.unlink s p k) live p k :=
    { h.toPart.unlink hf with
      live_ok := h.live_ok
      merged := h.merged.of_imp fun r j hr => free_of_unlink hr }
  exact hhand.resetPages (setPage_outside _ k _)

/-- What `__rmqueue` makes of the free block `(p, order + d)`. -/
def cut (s : St) (p order d : ℕ) : St :=
  expend d (clearPageOrder (PageAlloc.unlink s p (order + d)) p) p (order + d)

theorem Inv.cut {d : ℕ} (h : Inv B s live) (hf : Free s p (order + d)) :
    Hand B (PageAlloc.cut s p order d) live p order ∧
      ((PageAlloc.cut s p order d).page p).buddy = false := by
  obtain ⟨hhand, hpage⟩ := expend_spec (h.take hf)
  refine ⟨hhand, ?_⟩
  rw [PageAlloc.cut, hpage]
  simp [clearPageOrder]

/-- A failed search has looked at empty lists only; a successful one cuts a free block. -/
theorem rmqueueLoop_cases {current : ℕ} (hle : order ≤ current) (hmax : current + n = maxOrder) :
    (rmqueueLoop order n current s = (s, none) ∧
      ∀ j, current ≤ j → j < maxOrder → (s.area j).list = []) ∨
    ∃ p d, Free s p (order + d) ∧
      rmqueueLoop order n current s = (cut s p order d, some p) := by
  induction n generalizing current with
  | zero => exact Or.inl ⟨rfl, fun j h₁ h₂ => by omega⟩
  | succ n ih =>
    rw [rmqueueLoop]
    cases hlist : (s.area current).list with
    | nil =>
      rcases @ih (current + 1) (by omega) (by omega) with ⟨hrun, hempty⟩ | hfound
      · refine Or.inl ⟨hrun, fun j h₁ h₂ => ?_⟩
        rcases Nat.eq_or_lt_of_le h₁ with rfl | h₁
        · exact hlist
        · exact hempty j h₁ h₂
      · exact Or.inr hfound
    | cons p rest =>
      obtain ⟨d, rfl⟩ := Nat.exists_eq_add_of_le hle
      refine Or.inr ⟨p, d, ⟨by omega, by rw [hlist]; exact List.mem_cons_self⟩, ?_⟩
      dsimp only
      rw [take_head hlist, Nat.add_sub_cancel_left, cut]

theorem allocPages_cases (s : St) (order : ℕ) :
    (allocPages s order = (s, none) ∧ ∀ j, order ≤ j → j < maxOrder → (s.area j).list = []) ∨
    ∃ p d, Free s p (order + d) ∧ allocPages s order =
      (setPage (cut s p order d) p { (cut s p order d).page p with priv := order, refcount := 1 },
        some p) := by
  rw [allocPages, rmqueue]
  by_cases hle : order ≤ maxOrder
  · rcases rmqueueLoop_cases (s := s) le_rfl (Nat.add_sub_cancel' hle) with
      ⟨hrun, hempty⟩ | ⟨p, d, hf, hrun⟩ <;> rw [hrun]
    · exact Or.inl ⟨rfl, hempty⟩
    · exact Or.inr ⟨p, d, hf, rfl⟩
  · rw [show maxOrder - order = 0 by omega]
    exact Or.inl ⟨rfl, fun j h₁ h₂ => by omega⟩

/-- `prev_new_page` on the block in hand. -/
theorem Hand.prevNewPage (h : Hand B s live p k) (hflag : (s.page p).buddy = false) :
    Inv B (setPage s p { s.page p with priv := k, refcount := 1 }) ((p, k) :: live) where
  toPart := h.toPart.setPages (setPage_outside s k _)
  live_ok := by
    intro b hb
    rcases List.mem_cons.mp hb with rfl | hb
    · rw [setPage_self]
      exact ⟨hflag, rfl⟩
    · rw [setPage_of_ne _ (h.live_ne hb)]
      exact h.live_ok b hb
  merged := h.merged

theorem allocPages_spec (order : ℕ) (h : Inv B s live) :
    (allocPages s order = (s, none) ∧ ∀ j, order ≤ j → j < maxOrder → (s.area j).list = []) ∨
    ∃ p s', allocPages s order = (s', some p) ∧ Inv B s' ((p, order) :: live) := by
  rcases allocPages_cases s order with hnone | ⟨p, d, hf, hrun⟩
  · exact Or.inl hnone
  · obtain ⟨hhand, hflag⟩ := h.cut hf
    exact Or.inr ⟨p, _, hrun, hhand.prevNewPage hflag⟩

/-! ## §7  Boot -/

theorem inv_init : Inv (fun _ => False) init [] where
  tiling := tiling_nil
  count _ := rfl
  flag p k h := by simp [Free, init] at h
  outside _ _ := rfl
  live_ok b h := by simp at h
  merged p k h := by simp [Free, init] at h

/-- A new block, outside what has been handed over, is in hand. -/
theorem Inv.add (h : Inv B s live) (hk : k ≤ maxOrder - 1) (hp : Aligned p k)
    (hnew : ∀ x, InBlock p k x → ¬ B x) : Hand (fun x => B x ∨ InBlock p k x) s live p k := by
  exact
    { h.toPart with
      tiling := (h.tiling.add hk hp hnew).perm (blocks_out s [_] live).symm
      outside := fun x hx => h.outside x fun hB => hx (Or.inl hB)
      live_ok := h.live_ok
      merged := h.merged }

/-- `memblock_free_pages` resets the descriptors of the block and frees it. -/
theorem memblockFreePages_eq (s : St) (p k : ℕ) :
    ∃ page : ℕ → Page, memblockFreePages s p k = freeOnePage { s with page := page } p k ∧
      (∀ x, ¬ InBlock p k x → page x = s.page x) ∧
      ∀ x, (page x).buddy = true → (s.page x).buddy = true := by
  have hpos := Nat.two_pow_pos k
  refine ⟨_, by
    simp only [memblockFreePages, freePages, setPage_self, sub_self, if_true]
    rfl, fun x hx => ?_, fun x hx => ?_⟩
  · have hxp : x ≠ p := by
      rintro rfl
      exact hx (inBlock_self x k)
    have hrange : ¬ (p ≤ x ∧ x < p + (2 ^ k - 1)) := fun hr => hx ⟨hr.1, by omega⟩
    rw [update_of_ne hxp, setPage_of_ne _ hxp]
    exact if_neg hrange
  · by_cases hxp : x = p
    · subst hxp
      rw [update_self] at hx
      dsimp only at hx
      split_ifs at hx
      exact hx
    · rw [update_of_ne hxp, setPage_of_ne _ hxp] at hx
      dsimp only at hx
      split_ifs at hx
      exact hx

theorem memblockFreePages_spec (h : Inv B s live) (hk : k ≤ maxOrder - 1) (hp : Aligned p k)
    (hnew : ∀ x, InBlock p k x → ¬ B x) :
    ∃ s', memblockFreePages s p k = some s' ∧ Inv (fun x => B x ∨ InBlock p k x) s' live := by
  obtain ⟨page, heq, hout, -⟩ := memblockFreePages_eq s p k
  rw [heq]
  exact freeOnePage_spec (Hand.resetPages (h.add hk hp hnew) hout)

theorem fitOrder_spec {start stop : ℕ} (h : start < stop) (k : ℕ) :
    fitOrder start stop k ≤ k ∧ start + 2 ^ fitOrder start stop k ≤ stop := by
  induction k with
  | zero => exact ⟨le_rfl, h⟩
  | succ k ih =>
    rw [fitOrder]
    split_ifs with hfit
    · exact ⟨by omega, ih.2⟩
    · exact ⟨le_rfl, by omega⟩

/-- The blocks that `memblock_free_memory` hands over, one for each round. -/
def freeMemoryCalls : ℕ → ℕ → ℕ → List (ℕ × ℕ)
  | 0, _, _ => []
  | n + 1, start, stop =>
    if start < stop then
      let order := fitOrder start stop (min (maxOrder - 1) (ffs start))
      (start, order) :: freeMemoryCalls n (start + 2 ^ order) stop
    else []

/-- The blocks of one region of `memblock_free_all`, and of all. -/
def regionCalls (r : Region) : List (ℕ × ℕ) :=
  if r.free then
    freeMemoryCalls (pfnUp (r.base + r.size) - pfnDown r.base) (pfnDown r.base)
      (pfnUp (r.base + r.size))
  else []

def freeAllCalls (rs : List Region) : List (ℕ × ℕ) := rs.flatMap regionCalls

def freeBlocks (s : St) (l : List (ℕ × ℕ)) : Option St :=
  l.foldlM (fun s b => memblockFreePages s b.1 b.2) s

theorem freeMemoryLoop_eq (n : ℕ) (s : St) (start stop : ℕ) :
    freeMemoryLoop n s start stop = freeBlocks s (freeMemoryCalls n start stop) := by
  induction n generalizing s start with
  | zero => rfl
  | succ n ih =>
    rw [freeMemoryLoop, freeMemoryCalls]
    split
    · rw [freeBlocks, List.foldlM_cons]
      exact bind_congr fun s => ih s _
    · rfl

theorem memblockFreeAll_eq (s : St) (rs : List Region) :
    memblockFreeAll s rs = freeBlocks s (freeAllCalls rs) := by
  induction rs generalizing s with
  | nil => rfl
  | cons r rs ih =>
    rw [memblockFreeAll, freeAllCalls, List.flatMap_cons, freeBlocks, regionCalls]
    split
    · rw [List.foldlM_append, memblockFreeMemory, freeMemoryLoop_eq]
      exact bind_congr fun s => ih s
    · exact ih s

/-- The blocks make up the pages from `start` to `stop`, in ascending order. -/
theorem freeMemoryCalls_tiling {start stop : ℕ} (hn : stop - start ≤ n) :
    Tiling (maxOrder - 1) (fun x => start ≤ x ∧ x < stop) (freeMemoryCalls n start stop) ∧
      (freeMemoryCalls n start stop).Pairwise fun a b =>
        ∀ x y, InBlock a.1 a.2 x → InBlock b.1 b.2 y → x < y := by
  have hnil : ∀ start, stop ≤ start → (fun x => start ≤ x ∧ x < stop) = fun _ => False :=
    fun start hle => funext fun x => propext ⟨fun hx => by omega, False.elim⟩
  induction n generalizing start with
  | zero =>
    rw [hnil start (by omega)]
    exact ⟨tiling_nil, List.Pairwise.nil⟩
  | succ n ih =>
    rw [freeMemoryCalls]
    split
    · next hlt =>
        obtain ⟨hle, hfit⟩ := fitOrder_spec hlt (min (maxOrder - 1) (ffs start))
        generalize fitOrder start stop (min (maxOrder - 1) (ffs start)) = k at hle hfit
        have hal : Aligned start k :=
          Aligned.mono (two_pow_ffs_dvd start) (hle.trans (min_le_right _ _))
        have hpos := Nat.two_pow_pos k
        obtain ⟨hrest, hasc⟩ := @ih (start + 2 ^ k) (by omega)
        have hadd := hrest.add (hle.trans (min_le_left _ _)) hal
          fun x hx hx' => absurd hx.2 (not_lt.mpr hx'.1)
        have hB : (fun x => (start + 2 ^ k ≤ x ∧ x < stop) ∨ InBlock start k x) =
            fun x => start ≤ x ∧ x < stop := by
          funext x
          unfold InBlock
          exact propext (by omega)
        rw [hB] at hadd
        refine ⟨hadd, List.pairwise_cons.mpr ⟨fun b hb x y hx hy => ?_, hasc⟩⟩
        have hy' := (hrest.cover y).mpr ⟨b, hb, hy⟩
        exact lt_of_lt_of_le hx.2 hy'.1
    · rw [hnil start (by omega)]
      exact ⟨tiling_nil, List.Pairwise.nil⟩

/-- The pages of a region. -/
def Region.Has (r : Region) (x : ℕ) : Prop :=
  r.free = true ∧ pfnDown r.base ≤ x ∧ x < pfnUp (r.base + r.size)

/-- The pages handed over at boot. -/
def bootPages (rs : List Region) (x : ℕ) : Prop := ∃ r ∈ rs, r.Has x

/-- No page belongs to two free regions. -/
def RegionsDisjoint (rs : List Region) : Prop := rs.Pairwise fun a b => ∀ x, a.Has x → ¬ b.Has x

theorem mem_regionCalls {r : Region} (hb : b ∈ regionCalls r) :
    b.2 ≤ maxOrder - 1 ∧ Aligned b.1 b.2 ∧ ∀ x, InBlock b.1 b.2 x → r.Has x := by
  unfold regionCalls at hb
  split at hb
  · next hfree =>
      obtain ⟨ht, -⟩ := @freeMemoryCalls_tiling _ (pfnDown r.base) (pfnUp (r.base + r.size)) le_rfl
      exact ⟨ht.le b hb, ht.aligned b hb, fun x hx => ⟨hfree, (ht.cover x).mpr ⟨b, hb, hx⟩⟩⟩
  · cases hb

theorem bootPages_iff (rs : List Region) (x : ℕ) :
    bootPages rs x ↔ ∃ b ∈ freeAllCalls rs, InBlock b.1 b.2 x := by
  constructor
  · rintro ⟨r, hr, hfree, hx⟩
    obtain ⟨b, hb, hin⟩ := ((freeMemoryCalls_tiling le_rfl).1.cover x).mp hx
    refine ⟨b, List.mem_flatMap.mpr ⟨r, hr, ?_⟩, hin⟩
    rw [regionCalls, if_pos hfree]
    exact hb
  · rintro ⟨b, hb, hin⟩
    obtain ⟨r, hr, hb⟩ := List.mem_flatMap.mp hb
    exact ⟨r, hr, (mem_regionCalls hb).2.2 x hin⟩

theorem freeAllCalls_block (hb : b ∈ freeAllCalls rs) :
    b.2 ≤ maxOrder - 1 ∧ Aligned b.1 b.2 := by
  obtain ⟨r, -, hb⟩ := List.mem_flatMap.mp hb
  obtain ⟨hk, hal, -⟩ := mem_regionCalls hb
  exact ⟨hk, hal⟩

/-- What holds between the pages of two regions, or of two blocks of one region, holds
between the blocks of `memblock_free_all`. -/
theorem freeAllCalls_pairwise {R : ℕ → ℕ → Prop}
    (hlt : ∀ x y, x < y → R x y)
    (hrs : rs.Pairwise fun a b => ∀ x y, a.Has x → b.Has y → R x y) :
    (freeAllCalls rs).Pairwise fun a b =>
      ∀ x y, InBlock a.1 a.2 x → InBlock b.1 b.2 y → R x y := by
  refine List.pairwise_flatMap.mpr ⟨fun r _ => ?_, hrs.imp fun hR a ha b hb x y hx hy => ?_⟩
  · unfold regionCalls
    split
    · exact (freeMemoryCalls_tiling le_rfl).2.imp fun hab x y hx hy => hlt x y (hab x y hx hy)
    · exact List.Pairwise.nil
  · exact hR x y ((mem_regionCalls ha).2.2 x hx) ((mem_regionCalls hb).2.2 y hy)

theorem RegionsDisjoint.calls (hrs : RegionsDisjoint rs) :
    (freeAllCalls rs).Pairwise fun a b =>
      ∀ x y, InBlock a.1 a.2 x → InBlock b.1 b.2 y → x ≠ y := by
  apply freeAllCalls_pairwise fun x y hlt => Nat.ne_of_lt hlt
  refine hrs.imp fun hab x y hx hy heq => ?_
  exact hab x hx (heq ▸ hy)

theorem freeBlocks_spec {l : List (ℕ × ℕ)} (hl : ∀ b ∈ l, b.2 ≤ maxOrder - 1 ∧ Aligned b.1 b.2)
    (hdisj : l.Pairwise fun a b => ∀ x y, InBlock a.1 a.2 x → InBlock b.1 b.2 y → x ≠ y)
    (h : Inv B s live) (hnew : ∀ b ∈ l, ∀ x, InBlock b.1 b.2 x → ¬ B x) :
    ∃ s', freeBlocks s l = some s' ∧
      Inv (fun x => B x ∨ ∃ b ∈ l, InBlock b.1 b.2 x) s' live := by
  induction l generalizing s B with
  | nil =>
    refine ⟨s, rfl, ?_⟩
    simpa using h
  | cons b l ih =>
    obtain ⟨hb, hl⟩ := List.forall_mem_cons.mp hl
    obtain ⟨hapart, hdisj⟩ := List.pairwise_cons.mp hdisj
    obtain ⟨hnewb, hnew⟩ := List.forall_mem_cons.mp hnew
    obtain ⟨s₁, hrun₁, h₁⟩ := memblockFreePages_spec h hb.1 hb.2 hnewb
    obtain ⟨s₂, hrun₂, h₂⟩ := ih hl hdisj h₁ (by
      rintro c hc x hx (hB | hin)
      · exact hnew c hc x hx hB
      · exact hapart c hc x x hin hx rfl)
    refine ⟨s₂, ?_, ?_⟩
    · rw [freeBlocks, List.foldlM_cons, hrun₁]
      exact hrun₂
    · simpa only [List.exists_mem_cons_iff, or_assoc] using h₂

theorem memblockFreeAll_spec (hrs : RegionsDisjoint rs) (h : Inv B s live)
    (hnew : ∀ x, bootPages rs x → ¬ B x) :
    ∃ s', memblockFreeAll s rs = some s' ∧ Inv (fun x => B x ∨ bootPages rs x) s' live := by
  simp only [memblockFreeAll_eq, bootPages_iff] at hnew ⊢
  apply freeBlocks_spec
  · exact fun b hb => freeAllCalls_block hb
  · exact hrs.calls
  · exact h
  · exact fun b hb x hx => hnew x ⟨b, hb, hx⟩

/-- What `memblock_free_memory` returns. -/
def freeMemoryRet (start stop : ℕ) : ℕ := if pfnUp stop ≤ pfnDown start then 0 else stop - start

/-- What `memblock_free_all` returns. -/
def memblockFreeAllRet (rs : List Region) : ℕ :=
  (rs.map fun r => if r.free then freeMemoryRet r.base (r.base + r.size) else 0).sum

/-- Page `x` lies in the region. -/
def Region.Page (r : Region) (x : ℕ) : Prop :=
  r.base ≤ x * pgsize ∧ (x + 1) * pgsize ≤ r.base + r.size

/-- The blocks `l` are the pages of the free regions, each once. -/
structure HandsOver (rs : List Region) (l : List (ℕ × ℕ)) : Prop where
  blocks : ∀ b ∈ l, b.2 ≤ maxOrder - 1 ∧ Aligned b.1 b.2 ∧
    ∃ r ∈ rs, r.free = true ∧ ∀ x, InBlock b.1 b.2 x → r.Page x
  once : ∀ r ∈ rs, r.free = true → ∀ x, r.Page x → l.countP (fun b => InBlock b.1 b.2 x) = 1
  reserved : ∀ r ∈ rs, r.free = false → ∀ x, r.Page x → ∀ b ∈ l, ¬ InBlock b.1 b.2 x

theorem has_iff {r : Region} (hb : pgsize ∣ r.base) (hs : pgsize ∣ r.size) (x : ℕ) :
    r.Has x ↔ r.free = true ∧ r.Page x := by
  obtain ⟨m, hm⟩ := hb
  obtain ⟨n, hn⟩ := hs
  apply and_congr_right
  intro _
  unfold Region.Page pfnDown pfnUp pgsize at *
  omega

/-- **Hand-over.** For aligned regions in order, `memblock_free_all` calls
`memblock_free_pages` for every page of the free regions once, in aligned blocks, and returns
the size of these regions. -/
theorem memblockFreeAll_handsOver (rs : List Region)
    (hsorted : rs.Pairwise fun a b => a.base + a.size ≤ b.base)
    (hal : ∀ r ∈ rs, pgsize ∣ r.base ∧ pgsize ∣ r.size) :
    (∃ s, memblockFreeAll init rs = some s ∧ freeBlocks init (freeAllCalls rs) = some s) ∧
      HandsOver rs (freeAllCalls rs) ∧
      memblockFreeAllRet rs = (rs.map fun r => if r.free then r.size else 0).sum := by
  have hpage : ∀ r ∈ rs, ∀ x, r.Has x ↔ r.free = true ∧ r.Page x :=
    fun r hr => has_iff (hal r hr).1 (hal r hr).2
  -- no page lies in two regions, of either kind
  have hapart : ∀ a ∈ rs, ∀ b ∈ rs, ∀ x, a.Page x → b.Page x → a = b := by
    intro a ha b hb x hax hbx
    by_contra hne
    let R : Region → Region → Prop := fun a b =>
      a.base + a.size ≤ b.base ∨ b.base + b.size ≤ a.base
    have hsymm : Std.Symm R := ⟨fun _ _ h => h.symm⟩
    rcases (hsorted.imp (S := R) .inl).forall ha hb hne with hab | hab <;>
      unfold Region.Page pgsize at hax hbx <;> omega
  have hdisj : RegionsDisjoint rs := by
    refine hsorted.imp_of_mem fun {a b} ha hb hab x hax hbx => ?_
    have hax := ((hpage a ha x).mp hax).2
    have hbx := ((hpage b hb x).mp hbx).2
    unfold Region.Page pgsize at hax hbx
    omega
  refine ⟨?_, ⟨?_, ?_, ?_⟩, ?_⟩
  · obtain ⟨s, hrun, -⟩ := memblockFreeAll_spec hdisj inv_init fun _ _ h => h
    exact ⟨s, hrun, by rw [← memblockFreeAll_eq, hrun]⟩
  · intro b hb
    obtain ⟨r, hr, hb⟩ := List.mem_flatMap.mp hb
    obtain ⟨hk, hb', hhas⟩ := mem_regionCalls hb
    exact ⟨hk, hb', r, hr, ((hpage r hr _).mp (hhas b.1 (inBlock_self b.1 b.2))).1,
      fun x hx => ((hpage r hr x).mp (hhas x hx)).2⟩
  · intro r hr hfree x hx
    obtain ⟨b, hb, hin⟩ := (bootPages_iff rs x).mp ⟨r, hr, (hpage r hr x).mpr ⟨hfree, hx⟩⟩
    have hperm := List.perm_cons_erase hb
    have hrest := (List.pairwise_cons.mp ((hperm.pairwise_iff
      fun h x y hx hy => (h y x hy hx).symm).mp hdisj.calls)).1
    rw [hperm.countP_eq, List.countP_cons_of_pos (by simpa using hin), List.countP_eq_zero.mpr]
    intro c hc hin'
    exact hrest c hc x x hin (of_decide_eq_true hin') rfl
  · intro r hr hres x hx b hb hin
    obtain ⟨r', hr', hx'⟩ := (bootPages_iff rs x).mpr ⟨b, hb, hin⟩
    have hx' := (hpage r' hr' x).mp hx'
    rw [hapart r hr r' hr' x hx hx'.2, hx'.1] at hres
    cases hres
  · rw [memblockFreeAllRet]
    congr 1
    apply List.map_congr_left
    intro r hr
    have hret : freeMemoryRet r.base (r.base + r.size) = r.size := by
      obtain ⟨⟨m, hm⟩, ⟨n, hn⟩⟩ := hal r hr
      unfold freeMemoryRet pfnUp pfnDown pgsize at *
      rw [hm, hn]
      split <;> omega
    rw [hret]

/-- Five free pages from pfn `0x80003` on, then a reserved one. -/
def smallBoot : List Region := [⟨0x80003000, 0x5000, true⟩, ⟨0x80008000, 0x1000, false⟩]

theorem handsOver_smallBoot :
    HandsOver smallBoot (freeAllCalls smallBoot) ∧
      freeAllCalls smallBoot = [(0x80003, 0), (0x80004, 2)] ∧
      memblockFreeAllRet smallBoot = 0x5000 :=
  ⟨(memblockFreeAll_handsOver smallBoot (by decide) (by decide)).2.1, by decide, by decide⟩

/-! ## §8  Runs -/

inductive Act where
  | alloc (order : ℕ)
  | free (p k : ℕ)       -- `__free_pages` of a live block with its own order
deriving DecidableEq, Repr

local instance lawfulBEq_block : LawfulBEq (ℕ × ℕ) := inferInstance

def step (s : Sys) : Act → Option Sys
  | .alloc order =>
    match allocPages s.mem order with
    | (m, some p) => some ⟨m, (p, order) :: s.live⟩
    | (m, none) => some ⟨m, s.live⟩
  | .free p k =>
    if (p, k) ∈ s.live then (freePages s.mem p k).map fun m => ⟨m, s.live.erase (p, k)⟩
    else none

def boot (rs : List Region) : Option Sys := (memblockFreeAll init rs).map fun m => ⟨m, []⟩

theorem inv_alloc {s s' : Sys} (h : Inv B s.mem s.live)
    (hstep : step s (.alloc order) = some s') : Inv B s'.mem s'.live := by
  rw [step] at hstep
  rcases allocPages_spec order h with ⟨hrun, -⟩ | ⟨p, m, hrun, hinv⟩ <;> rw [hrun] at hstep <;>
    cases hstep
  · exact h
  · exact hinv

/-- Freeing a live block never fails. -/
theorem inv_free {s : Sys} (h : Inv B s.mem s.live) (hmem : (p, k) ∈ s.live) :
    ∃ s', step s (.free p k) = some s' ∧ Inv B s'.mem s'.live := by
  obtain ⟨m, hrun, hinv⟩ := freePages_spec h hmem
  refine ⟨⟨m, s.live.erase (p, k)⟩, ?_, hinv⟩
  simp only [step, if_pos hmem, hrun, Option.map_some]

theorem inv_step (s : Sys) (a : Act) (s' : Sys) (h : Inv B s.mem s.live)
    (hstep : step s a = some s') : Inv B s'.mem s'.live := by
  cases a with
  | alloc order => exact inv_alloc h hstep
  | free p k =>
    by_cases hmem : (p, k) ∈ s.live
    · obtain ⟨t, ht, hinv⟩ := inv_free h hmem
      rw [ht] at hstep
      cases hstep
      exact hinv
    · rw [step, if_neg hmem] at hstep
      cases hstep

theorem boot_spec (hrs : RegionsDisjoint rs) :
    ∃ s, boot rs = some s ∧ s.live = [] ∧ Inv (bootPages rs) s.mem s.live := by
  obtain ⟨m, hrun, hinv⟩ := memblockFreeAll_spec hrs inv_init fun _ _ h => h
  refine ⟨⟨m, []⟩, by rw [boot, hrun]; rfl, rfl, ?_⟩
  simpa only [false_or] using hinv

theorem inv_run {s₀ s : Sys} {as : List Act}
    (h₀ : Inv (bootPages rs) s₀.mem s₀.live) (h : runFrom step s₀ as = some s) :
    Inv (bootPages rs) s.mem s.live := by
  have hstep : ∀ (s : Sys) (a : Act) (s' : Sys), Inv (bootPages rs) s.mem s.live →
      step s a = some s' → Inv (bootPages rs) s'.mem s'.live := inv_step
  exact @run_invariant _ _ _ (fun s : Sys => Inv (bootPages rs) s.mem s.live) hstep as _ _ h₀ h

/-! ## §9  The partition of the boot memory -/

structure Partition (B : ℕ → Prop) (s : Sys) : Prop where
  disjoint : (blocks s).Pairwise fun a b => ∀ x, InBlock a.1 a.2 x → ¬ InBlock b.1 b.2 x
  union : ∀ x, B x ↔ ∃ b ∈ blocks s, InBlock b.1 b.2 x
  aligned : ∀ b ∈ blocks s, Aligned b.1 b.2
  count : ∀ k < maxOrder, (s.mem.area k).nrFree = (s.mem.area k).list.length

theorem Inv.partition {s : Sys} (h : Inv B s.mem s.live) : Partition B s where
  disjoint := h.tiling.disjoint
  union := h.tiling.cover
  aligned := h.tiling.aligned
  count k _ := h.count k

/-- **Partition.** From the free lists that `memblock_free_all` builds, every run
of `alloc_pages` and `__free_pages` keeps free and live blocks disjoint, aligned
and equal in union to the memory handed over; `nr_free` counts each list; and
freeing a live block never runs into a broken list. -/
theorem buddy_partition (rs : List Region) (hrs : RegionsDisjoint rs) :
    ∃ s₀, boot rs = some s₀ ∧ ∀ as s, runFrom step s₀ as = some s →
      Partition (bootPages rs) s ∧
        ∀ p k, (p, k) ∈ s.live → ∃ s', step s (.free p k) = some s' := by
  obtain ⟨s₀, hboot, -, h₀⟩ := boot_spec hrs
  refine ⟨s₀, hboot, fun as s hrun => ?_⟩
  have h := inv_run h₀ hrun
  refine ⟨h.partition, fun p k hmem => ?_⟩
  obtain ⟨s', hs', -⟩ := inv_free h hmem
  exact ⟨s', hs'⟩

theorem regionsDisjoint_smallBoot : RegionsDisjoint smallBoot := by
  simp [RegionsDisjoint, smallBoot, Region.Has]

/-- One page and one pair are taken from `smallBoot`; the page is given back. -/
theorem buddy_partition_smallBoot :
    ∃ s₀ s, boot smallBoot = some s₀ ∧
      runFrom step s₀ [.alloc 0, .alloc 1, .free 0x80003 0] = some s ∧
      s.live = [(0x80004, 1)] ∧ Partition (bootPages smallBoot) s := by
  obtain ⟨s₀, hboot, hall⟩ := buddy_partition smallBoot regionsDisjoint_smallBoot
  have hrun : ((boot smallBoot).bind fun s =>
      runFrom step s [.alloc 0, .alloc 1, .free 0x80003 0]).map (fun s => s.live) =
        some [(0x80004, 1)] := by decide +kernel
  rw [hboot, Option.bind_some] at hrun
  obtain ⟨s, hs, hlive⟩ := Option.map_eq_some_iff.mp hrun
  exact ⟨s₀, s, hboot, hs, hlive, (hall _ _ hs).1⟩

/-! ## §10  Nothing is left to merge -/

/-- A page inside a free block. -/
def FreePage (s : St) (x : ℕ) : Prop := Covered (Free s) x

theorem Inv.canonical (h : Inv B s live) : Canonical (maxOrder - 1) (Free s) where
  aligned p k hf := h.tiling.aligned (p, k) hf.mem_blocks
  le p k hf := h.tiling.le (p, k) hf.mem_blocks
  disjoint _ _ _ _ _ hp hq hx hx' :=
    Prod.mk.inj (h.tiling.eq_of_inBlock hq.mem_blocks hp.mem_blocks hx' hx)
  merged := h.merged

/-- The free pages are those of the boot memory that no live block contains. -/
theorem Inv.freePage_iff (h : Inv B s live) (x : ℕ) :
    FreePage s x ↔ B x ∧ ∀ b ∈ live, ¬ InBlock b.1 b.2 x := by
  constructor
  · rintro ⟨p, k, hf, hx⟩
    refine ⟨(h.tiling.cover x).mpr ⟨_, hf.mem_blocks, hx⟩, fun b hb hx' => ?_⟩
    have hpart : Part B s (b :: live.erase b) :=
      { h.toPart with tiling := h.tiling.perm ((List.perm_cons_erase hb).append_left _) }
    exact hpart.not_free hx' hx hf
  · rintro ⟨hB, hlive⟩
    obtain ⟨b, hb, hx⟩ := (h.tiling.cover x).mp hB
    rcases (mem_blocks ..).mp hb with hf | hm
    · exact ⟨b.1, b.2, hf, hx⟩
    · exact absurd hx (hlive b hm)

theorem Inv.alloc_none_iff (h : Inv B s live) (ho : order < maxOrder) :
    (allocPages s order).2 = none ↔
      ¬ ∃ p, Aligned p order ∧ ∀ x, InBlock p order x → FreePage s x := by
  rcases allocPages_spec order h with ⟨hrun, hempty⟩ | ⟨p, s', hrun, hinv⟩ <;> rw [hrun]
  · refine ⟨fun _ => ?_, fun _ => rfl⟩
    rintro ⟨p, hal, hsub⟩
    obtain ⟨q, j, hf, hj, -⟩ := h.canonical.covered hal (by omega) hsub
    have hmem := hf.2
    rw [hempty j hj hf.1] at hmem
    cases hmem
  · refine ⟨fun h => (by cases h), fun hno => absurd ⟨p, hinv.aligned, fun x hx => ?_⟩ hno⟩
    rw [h.freePage_iff]
    exact ⟨hinv.mem_of_inBlock hx, fun b hb => hinv.apart hx ((mem_blocks ..).mpr (Or.inr hb))⟩

/-- **Canonical coalescing.** In every run from the boot state no two buddies
below the top order are free; so the free blocks are the maximal aligned blocks
of the free pages, whatever the history, freeing everything restores the boot
lists, and `alloc_pages` fails only when no aligned run of that size is free. -/
theorem buddy_canonical (rs : List Region) (hrs : RegionsDisjoint rs) :
    ∃ s₀, boot rs = some s₀ ∧ ∀ as s, runFrom step s₀ as = some s →
      (∀ p k, Free s.mem p k → k < maxOrder - 1 → ¬ Free s.mem (buddy p k) k) ∧
      (∀ p k, Free s.mem p k ↔ Maximal (maxOrder - 1) (FreePage s.mem) p k) ∧
      (∀ as' s', runFrom step s₀ as' = some s' →
        (∀ x, FreePage s.mem x ↔ FreePage s'.mem x) →
          ∀ p k, Free s.mem p k ↔ Free s'.mem p k) ∧
      (s.live = [] → ∀ p k, Free s.mem p k ↔ Free s₀.mem p k) ∧
      ∀ order < maxOrder, (allocPages s.mem order).2 = none ↔
        ¬ ∃ p, Aligned p order ∧ ∀ x, InBlock p order x → FreePage s.mem x := by
  obtain ⟨s₀, hboot, hlive₀, h₀⟩ := boot_spec hrs
  refine ⟨s₀, hboot, fun as s hrun => ?_⟩
  have h := inv_run h₀ hrun
  refine ⟨h.merged, h.canonical.mem_iff_maximal, fun as' s' hrun' hsame => ?_, fun hlive => ?_,
    fun order ho => h.alloc_none_iff ho⟩
  · exact h.canonical.unique (inv_run h₀ hrun').canonical hsame
  · refine h.canonical.unique h₀.canonical fun x => ?_
    show FreePage s.mem x ↔ FreePage s₀.mem x
    rw [h.freePage_iff, h₀.freePage_iff, hlive, hlive₀]

/-- Two single pages of `smallBoot` are taken and given back in the other order. -/
theorem buddy_canonical_smallBoot :
    ∃ s₀ s, boot smallBoot = some s₀ ∧
      runFrom step s₀ [.alloc 0, .alloc 0, .free 0x80003 0, .free 0x80004 0] = some s ∧
      ∀ p k, Free s.mem p k ↔ Free s₀.mem p k := by
  obtain ⟨s₀, hboot, hall⟩ := buddy_canonical smallBoot regionsDisjoint_smallBoot
  have hrun : ((boot smallBoot).bind fun s => runFrom step s
      [.alloc 0, .alloc 0, .free 0x80003 0, .free 0x80004 0]).map (fun s => s.live) =
        some [] := by decide +kernel
  rw [hboot, Option.bind_some] at hrun
  obtain ⟨s, hs, hlive⟩ := Option.map_eq_some_iff.mp hrun
  exact ⟨s₀, s, hboot, hs, (hall _ _ hs).2.2.2.1 hlive⟩

end RiscvBm.PageAlloc

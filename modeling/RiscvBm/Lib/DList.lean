import Mathlib.Data.List.Nodup

/-!
# Circular doubly linked lists

Nodes of any type with a `next` and a `prev` link. `Cycle k h l` says that following `next`
from the head `h` visits the nodes of `l` in order and comes back to `h`, and that `prev` goes the
other way. The pointer operations are given as the assignments a program makes, and each is
an operation on `l`: `Cycle.pushFront`, `Cycle.moveToFront`; a scan from the head is a search
in `l` (`Cycle.scan_next`, `Cycle.scan_prev`).
-/

namespace RiscvBm.DList

open Function

variable {ν : Type*} [DecidableEq ν]

structure Links (ν : Type*) where
  next : ν → ν
  prev : ν → ν

/-- Both link fields exchanged. -/
def Links.flip (k : Links ν) : Links ν := ⟨k.prev, k.next⟩

/-- The links lead from `x` through `l` to `y`, and back. -/
def Seg (k : Links ν) : ν → List ν → ν → Prop
  | x, [], y => k.next x = y ∧ k.prev y = x
  | x, a :: l, y => k.next x = a ∧ k.prev a = x ∧ Seg k a l y

structure Cycle (k : Links ν) (h : ν) (l : List ν) : Prop where
  nodup : (h :: l).Nodup
  seg : Seg k h l h

/-! ## Operations -/

/-- `b->next = h->next; b->prev = h; h->next->prev = b; h->next = b`. -/
def pushFront (k : Links ν) (h b : ν) : Links ν :=
  let k : Links ν := { k with next := update k.next b (k.next h) }
  let k : Links ν := { k with prev := update k.prev b h }
  let k : Links ν := { k with prev := update k.prev (k.next h) b }
  { k with next := update k.next h b }

/-- `b->next->prev = b->prev; b->prev->next = b->next`. -/
def unlink (k : Links ν) (b : ν) : Links ν :=
  let k : Links ν := { k with prev := update k.prev (k.next b) (k.prev b) }
  { k with next := update k.next (k.prev b) (k.next b) }

/-- Follow `link` from `b` until the head or a node with `ok`. The result is `none` if
neither comes up within `n` nodes. -/
def scan (link : ν → ν) (h : ν) (ok : ν → Bool) : ℕ → ν → Option (Option ν)
  | 0, _ => none
  | n + 1, b =>
    if b = h then some none
    else if ok b then some (some b)
    else scan link h ok n (link b)

/-- The nodes on the way from `b` along `link` to the head, at most `n`. -/
def walk (link : ν → ν) (h : ν) : ℕ → ν → List ν
  | 0, _ => []
  | n + 1, b => if b = h then [] else b :: walk link h n (link b)

/-! ## Segments -/

variable {k k' : Links ν} {x y a h : ν} {l l₁ l₂ : List ν}

omit [DecidableEq ν] in
theorem Seg.congr (hs : Seg k x l y) (hnext : ∀ z ∈ x :: l, k'.next z = k.next z)
    (hprev : ∀ z ∈ l ++ [y], k'.prev z = k.prev z) : Seg k' x l y := by
  induction l generalizing x with
  | nil =>
    rw [Seg, hnext x List.mem_cons_self, hprev y (by simp)]
    exact hs
  | cons a l ih =>
    rw [Seg, hnext x List.mem_cons_self, hprev a (by simp)]
    refine ⟨hs.1, hs.2.1, ih hs.2.2 ?_ ?_⟩
    · exact fun z hz => hnext z (List.mem_cons_of_mem x hz)
    · exact fun z hz => hprev z (List.mem_cons_of_mem a hz)

omit [DecidableEq ν] in
theorem seg_append : Seg k x (l₁ ++ a :: l₂) y ↔ Seg k x l₁ a ∧ Seg k a l₂ y := by
  induction l₁ generalizing x with
  | nil => simp [Seg, and_assoc]
  | cons b l₁ ih => simp [Seg, ih, and_assoc]

omit [DecidableEq ν] in
theorem Seg.flip (hs : Seg k x l y) : Seg k.flip y l.reverse x := by
  induction l generalizing x with
  | nil => exact ⟨hs.2, hs.1⟩
  | cons a l ih =>
    rw [List.reverse_cons, seg_append]
    exact ⟨ih hs.2.2, hs.2.1, hs.1⟩

omit [DecidableEq ν] in
theorem Seg.prev_mem (hs : Seg k x l y) : k.prev y ∈ x :: l := by
  induction l generalizing x with
  | nil => simp [hs.2]
  | cons a l ih => exact List.mem_cons_of_mem x (ih hs.2.2)

omit [DecidableEq ν] in
theorem Seg.next_mem (hs : Seg k x l y) : k.next x ∈ l ++ [y] := by
  cases l with
  | nil => simp [hs.1]
  | cons a l => simp [hs.1]

theorem unlink_eq (k : Links ν) (h : k.next a ≠ a) :
    unlink k a = ⟨update k.next (k.prev a) (k.next a), update k.prev (k.next a) (k.prev a)⟩ := by
  simp only [unlink, update_of_ne (Ne.symm h)]

theorem Seg.unlink (hs : Seg k x (l₁ ++ a :: l₂) y) (hnd : (x :: (l₁ ++ a :: l₂)).Nodup)
    (hy : y ∉ l₁ ++ a :: l₂) : Seg (unlink k a) x (l₁ ++ l₂) y := by
  have hright := (seg_append.mp hs).2
  have hleft := (seg_append.mp hs).1
  have hya : y ≠ a := by
    rintro rfl
    exact hy (by simp)
  have hnext : k.next a ≠ a := by
    intro heq
    have hmem := hright.next_mem
    rw [heq, List.mem_append, List.mem_singleton] at hmem
    have hmid := (List.nodup_cons.mp hnd).2
    rw [List.nodup_append] at hmid
    exact hmem.elim (List.nodup_cons.mp hmid.2.1).1 hya.symm
  rw [unlink_eq k hnext]
  -- the links of `a` are the ends of the two segments, whichever way they are reached
  clear hleft
  induction l₁ generalizing x with
  | nil =>
    obtain ⟨hxa, hax, hseg⟩ := hs
    rw [hax]
    cases l₂ with
    | nil =>
      obtain ⟨hay, -⟩ := hseg
      simp [Seg, hay]
    | cons c l₂ =>
      obtain ⟨hac, -, hseg⟩ := hseg
      rw [hac]
      simp only [List.nil_append, List.nodup_cons, List.mem_cons, not_or] at hnd hy
      refine ⟨update_self _ _ _, update_self _ _ _, hseg.congr ?_ ?_⟩
      · grind
      · grind
  | cons d l₁ ih =>
    obtain ⟨hxd, hdx, hseg⟩ := hs
    obtain ⟨hxni, hnd'⟩ := List.nodup_cons.mp hnd
    rw [List.cons_append, List.mem_cons, not_or] at hy
    have hleft := (seg_append.mp hseg).1
    have hpx : x ≠ k.prev a := by
      intro heq
      have hmem := hleft.prev_mem
      rw [← heq, List.mem_cons] at hmem
      apply hxni
      rcases hmem with rfl | hmem
      · exact List.mem_cons_self
      · exact List.mem_cons_of_mem _ (List.mem_append_left _ hmem)
    have hnd : d ≠ k.next a := by
      intro heq
      have hmem := hright.next_mem
      rw [← heq, List.mem_append, List.mem_singleton] at hmem
      rcases hmem with hmem | rfl
      · exact (List.nodup_cons.mp hnd').1 (by simp [hmem])
      · exact hy.1 rfl
    refine ⟨?_, ?_, ih hseg hnd' hy.2⟩
    · rw [← hxd]
      exact update_of_ne hpx _ _
    · rw [← hdx]
      exact update_of_ne hnd _ _

/-! ## Cycles -/

omit [DecidableEq ν] in
theorem cycle_nil (next prev : ν → ν) (h : ν) (hn : next h = h) (hp : prev h = h) :
    Cycle ⟨next, prev⟩ h [] :=
  ⟨List.nodup_singleton h, hn, hp⟩

theorem Cycle.pushFront (hc : Cycle k h l) (ha : a ∉ h :: l) : Cycle (pushFront k h a) h
    (a :: l) := by
  have hah : a ≠ h := fun heq => ha (heq ▸ List.mem_cons_self)
  have hal : a ∉ l := fun hmem => ha (List.mem_cons_of_mem h hmem)
  obtain ⟨hhl, hndl⟩ := List.nodup_cons.mp hc.nodup
  have hseg := hc.seg
  constructor
  · simp only [List.nodup_cons, List.mem_cons, not_or]
    exact ⟨⟨Ne.symm hah, hhl⟩, hal, hndl⟩
  · have hfirst : k.next h ≠ a := by
      have hmem := hseg.next_mem
      rintro rfl
      rcases List.mem_append.mp hmem with hmem | hmem
      · exact hal hmem
      · exact hah (List.mem_singleton.mp hmem)
    simp only [DList.pushFront, update_of_ne (Ne.symm hah)]
    refine ⟨update_self _ _ _, ?_, ?_⟩
    · simp [update_of_ne (Ne.symm hfirst)]
    · cases l with
      | nil =>
        obtain ⟨hnext, -⟩ := hseg
        refine ⟨?_, ?_⟩
        · simp [update_of_ne hah, hnext]
        · simp [hnext]
      | cons c l =>
        obtain ⟨hnext, -, hseg⟩ := hseg
        simp only [List.mem_cons, not_or] at hal hhl
        refine ⟨?_, ?_, hseg.congr ?_ ?_⟩
        · simp [update_of_ne hah, hnext]
        · simp [hnext]
        · grind
        · grind

omit [DecidableEq ν] in
theorem Cycle.congr (hc : Cycle k h l) (hnext : ∀ z ∈ h :: l, k'.next z = k.next z)
    (hprev : ∀ z ∈ h :: l, k'.prev z = k.prev z) : Cycle k' h l := by
  refine ⟨hc.nodup, hc.seg.congr hnext fun z hz => hprev z ?_⟩
  rcases List.mem_append.mp hz with hz | hz
  · exact List.mem_cons_of_mem h hz
  · rw [List.mem_singleton.mp hz]
    exact List.mem_cons_self

omit [DecidableEq ν] in
theorem Cycle.next_mem (hc : Cycle k h l) (ha : a ∈ l) : k.next a ∈ l ++ [h] := by
  obtain ⟨l₁, l₂, rfl⟩ := List.append_of_mem ha
  have hmem := (seg_append.mp hc.seg).2.next_mem
  simp only [List.mem_append, List.mem_cons] at hmem ⊢
  tauto

omit [DecidableEq ν] in
theorem Cycle.next_ne_self (hc : Cycle k h l) (ha : a ∈ l) : k.next a ≠ a := by
  obtain ⟨l₁, l₂, rfl⟩ := List.append_of_mem ha
  obtain ⟨hhl, hndl⟩ := List.nodup_cons.mp hc.nodup
  have hmem := (seg_append.mp hc.seg).2.next_mem
  intro heq
  rw [heq] at hmem
  rcases List.mem_append.mp hmem with hmem | hmem
  · exact (List.nodup_cons.mp (List.nodup_append.mp hndl).2.1).1 hmem
  · rw [List.mem_singleton] at hmem
    exact hhl (hmem ▸ ha)

theorem Cycle.unlink (hc : Cycle k h l) (ha : a ∈ l) : Cycle (DList.unlink k a) h (l.erase a) := by
  obtain ⟨l₁, l₂, rfl⟩ := List.append_of_mem ha
  obtain ⟨hhl, hndl⟩ := List.nodup_cons.mp hc.nodup
  have hni : a ∉ l₁ := by
    rw [List.nodup_append] at hndl
    exact fun hmem => hndl.2.2 a hmem a List.mem_cons_self rfl
  have herase : (l₁ ++ a :: l₂).erase a = l₁ ++ l₂ := by
    rw [List.erase_append_right _ hni, List.erase_cons_head]
  have hsub : (l₁ ++ l₂).Sublist (l₁ ++ a :: l₂) :=
    (List.sublist_cons_self a l₂).append_left l₁
  rw [herase]
  exact ⟨hc.nodup.sublist (hsub.cons_cons h), hc.seg.unlink hc.nodup hhl⟩

/-- Nodes outside the list keep their links. -/
theorem Cycle.unlink_next (hc : Cycle k h l) (ha : a ∈ l) (hy : y ∉ h :: l) :
    (DList.unlink k a).next y = k.next y := by
  have hprev : k.prev a ∈ h :: l := by
    obtain ⟨l₁, l₂, rfl⟩ := List.append_of_mem ha
    have hmem := (seg_append.mp hc.seg).1.prev_mem
    simp only [List.mem_cons, List.mem_append] at hmem ⊢
    tauto
  rw [unlink_eq k (hc.next_ne_self ha)]
  apply update_of_ne
  rintro rfl
  exact hy hprev

theorem Cycle.moveToFront (hc : Cycle k h l) (ha : a ∈ l) :
    Cycle (DList.pushFront (DList.unlink k a) h a) h (a :: l.erase a) := by
  obtain ⟨hhl, hndl⟩ := List.nodup_cons.mp hc.nodup
  apply (hc.unlink ha).pushFront
  rw [List.mem_cons, not_or]
  refine ⟨?_, hndl.not_mem_erase⟩
  rintro rfl
  exact hhl ha

theorem Seg.scan_next (hs : Seg k x l h) (hh : h ∉ l) (ok : ν → Bool) {n : ℕ}
    (hn : l.length < n) : scan k.next h ok n (k.next x) = some (l.find? ok) := by
  induction l generalizing x n with
  | nil =>
    obtain ⟨m, rfl⟩ := Nat.exists_eq_succ_of_ne_zero (Nat.ne_of_gt hn)
    rw [scan, if_pos hs.1, List.find?_nil]
  | cons b l ih =>
    obtain ⟨m, rfl⟩ := Nat.exists_eq_succ_of_ne_zero (Nat.ne_of_gt (Nat.zero_lt_of_lt hn))
    obtain ⟨hxb, -, hseg⟩ := hs
    rw [List.mem_cons, not_or] at hh
    rw [scan, hxb, if_neg (Ne.symm hh.1)]
    cases hok : ok b with
    | true => simp [hok]
    | false =>
      rw [if_neg Bool.false_ne_true, List.find?_cons_of_neg (by simp [hok])]
      exact ih hseg hh.2 (Nat.lt_of_succ_lt_succ hn)

theorem Cycle.scan_next (hc : Cycle k h l) (ok : ν → Bool) {n : ℕ} (hn : l.length < n) :
    scan k.next h ok n (k.next h) = some (l.find? ok) :=
  hc.seg.scan_next (List.nodup_cons.mp hc.nodup).1 ok hn

theorem Cycle.scan_prev (hc : Cycle k h l) (ok : ν → Bool) {n : ℕ} (hn : l.length < n) :
    scan k.prev h ok n (k.prev h) = some (l.reverse.find? ok) := by
  have hh : h ∉ l.reverse := by
    rw [List.mem_reverse]
    exact (List.nodup_cons.mp hc.nodup).1
  exact hc.seg.flip.scan_next hh ok (by rwa [List.length_reverse])

theorem Seg.walk (hs : Seg k x l h) (hh : h ∉ l) {n : ℕ} (hn : l.length < n) :
    DList.walk k.next h n (k.next x) = l := by
  induction l generalizing x n with
  | nil =>
    obtain ⟨m, rfl⟩ := Nat.exists_eq_succ_of_ne_zero (Nat.ne_of_gt hn)
    rw [DList.walk, if_pos hs.1]
  | cons b l ih =>
    obtain ⟨m, rfl⟩ := Nat.exists_eq_succ_of_ne_zero (Nat.ne_of_gt (Nat.zero_lt_of_lt hn))
    obtain ⟨hxb, -, hseg⟩ := hs
    rw [List.mem_cons, not_or] at hh
    rw [DList.walk, hxb, if_neg (Ne.symm hh.1), ih hseg hh.2 (Nat.lt_of_succ_lt_succ hn)]

theorem Cycle.walk (hc : Cycle k h l) {n : ℕ} (hn : l.length < n) :
    DList.walk k.next h n (k.next h) = l :=
  hc.seg.walk (List.nodup_cons.mp hc.nodup).1 hn

end RiscvBm.DList

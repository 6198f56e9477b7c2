import Mathlib.Data.List.Nodup

/-!
# Doubly linked lists that end in a null pointer

Nodes of any type with a `next` and a `prev` link, either of which may be null. `IsList k h l`
says that following `next` from the head `h` visits the nodes of `l` in order and ends in a null
pointer, and that `prev` goes the other way. It is stated for each way to split `l` at a
node, so that a change of links in the middle is checked node by node.

`IsList.insert` and `IsList.remove` are about the links that a program has to end up with, in
whichever order it assigns them.
-/

namespace RiscvBm.Chain

open Function

variable {ν : Type*}

structure Links (ν : Type*) where
  next : ν → Option ν
  prev : ν → Option ν

structure IsList (k : Links ν) (h : Option ν) (l : List ν) : Prop where
  nodup : l.Nodup
  head : h = l.head?
  split : ∀ l₁ a l₂, l = l₁ ++ a :: l₂ → k.prev a = l₁.getLast? ∧ k.next a = l₂.head?

variable {k k' : Links ν} {h h' : Option ν} {l l₁ l₂ : List ν} {a b : ν}

/-! ## Checking a list -/

/-- The links of the nodes of `l`, one after the other; `p` is the node before them. -/
def Threaded (k : Links ν) : Option ν → List ν → Prop
  | _, [] => True
  | p, a :: l => k.prev a = p ∧ k.next a = l.head? ∧ Threaded k (some a) l

instance decidableThreaded [DecidableEq ν] (k : Links ν) :
    ∀ (p : Option ν) (l : List ν), Decidable (Threaded k p l)
  | _, [] => isTrue trivial
  | _, a :: l => @instDecidableAnd _ _ _ (@instDecidableAnd _ _ _ (decidableThreaded k (some a) l))

theorem Threaded.split {p : Option ν} (ht : Threaded k p (l₁ ++ a :: l₂)) :
    k.prev a = l₁.getLast?.or p ∧ k.next a = l₂.head? := by
  induction l₁ generalizing p with
  | nil => exact ⟨ht.1, ht.2.1⟩
  | cons x l₁ ih =>
    obtain ⟨hprev, hnext⟩ := ih ht.2.2
    refine ⟨hprev.trans ?_, hnext⟩
    rw [List.getLast?_cons]
    cases l₁.getLast? <;> rfl

theorem isList_of_threaded (hnodup : l.Nodup) (ht : Threaded k none l) : IsList k l.head? l := by
  refine ⟨hnodup, rfl, ?_⟩
  rintro l₁ a l₂ rfl
  obtain ⟨hprev, hnext⟩ := ht.split
  exact ⟨by rw [hprev, Option.or_none], hnext⟩

/-! ## Changes in the middle -/

theorem append_cases {l₁' l₂' : List ν} (hsplit : l₁ ++ l₂ = l₁' ++ a :: l₂') :
    (∃ m, l₁ = l₁' ++ a :: m ∧ l₂' = m ++ l₂) ∨ ∃ m, l₁' = l₁ ++ m ∧ l₂ = m ++ a :: l₂' := by
  rcases List.append_eq_append_iff.mp hsplit with ⟨m, hl₁, hrest⟩ | ⟨m, hl₁, hrest⟩
  · exact Or.inr ⟨m, hl₁, hrest⟩
  · rcases List.cons_eq_append_iff.mp hrest with ⟨rfl, heq⟩ | ⟨m', rfl, heq⟩
    · exact Or.inr ⟨[], by simpa using hl₁.symm, heq⟩
    · exact Or.inl ⟨m', hl₁, heq⟩

theorem getLast?_ne_of_cons {x : ν} (hnodup : (l₁ ++ a :: x :: l₂).Nodup) :
    (l₁ ++ a :: x :: l₂).getLast? ≠ some a := by
  intro hlast
  have hmem : a ∈ x :: l₂ := by
    have heq : (l₁ ++ a :: x :: l₂).getLast? = (x :: l₂).getLast? := by
      simp [List.getLast?_append, List.getLast?_cons]
    rw [heq] at hlast
    exact List.mem_of_getLast? hlast
  exact (List.nodup_cons.mp (List.nodup_append.mp hnodup).2.1).1 hmem

theorem head?_ne_of_append {x : ν} (hnodup : (x :: (l₁ ++ a :: l₂)).Nodup) :
    (x :: (l₁ ++ a :: l₂)).head? ≠ some a := by
  intro hhead
  have heq : x = a := by simpa using hhead
  subst heq
  exact (List.nodup_cons.mp hnodup).1 (List.mem_append_right l₁ List.mem_cons_self)

/-- The nodes `c` between `l₁` and `l₂` are replaced by `d`. -/
theorem IsList.splice {c d : List ν} (hl : IsList k h (l₁ ++ (c ++ l₂)))
    (hnodup : (l₁ ++ (d ++ l₂)).Nodup)
    (hleft : ∀ a, l₁.getLast? = some a → k'.next a = (d ++ l₂).head?)
    (hright : ∀ a, l₂.head? = some a → k'.prev a = (l₁ ++ d).getLast?)
    (hnext : ∀ a ∈ l₁ ++ l₂, l₁.getLast? ≠ some a → k'.next a = k.next a)
    (hprev : ∀ a ∈ l₁ ++ l₂, l₂.head? ≠ some a → k'.prev a = k.prev a)
    (hmid : ∀ m a m', d = m ++ a :: m' →
      k'.prev a = (l₁ ++ m).getLast? ∧ k'.next a = (m' ++ l₂).head?)
    (hh : h' = (l₁ ++ (d ++ l₂)).head?) : IsList k' h' (l₁ ++ (d ++ l₂)) := by
  refine ⟨hnodup, hh, ?_⟩
  have hapart := (List.nodup_append.mp hnodup).2.2
  intro l₁' a l₂' hsplit
  rcases append_cases hsplit with ⟨m, rfl, rfl⟩ | ⟨m, rfl, hrest⟩
  · -- a node before the change
    obtain ⟨hprev₀, hnext₀⟩ := hl.split l₁' a (m ++ (c ++ l₂)) (by simp)
    have hne : l₂.head? ≠ some a := fun hhead =>
      hapart a (by simp) a (List.mem_append_right _ (List.mem_of_head? hhead)) rfl
    refine ⟨(hprev a (by simp) hne).trans hprev₀, ?_⟩
    cases m with
    | nil => exact hleft a (by simp)
    | cons x m =>
      rw [hnext a (by simp) (getLast?_ne_of_cons (List.nodup_append.mp hnodup).1), hnext₀]
      rfl
  · rcases append_cases hrest with ⟨m', hc', rfl⟩ | ⟨m', rfl, rfl⟩
    · exact hmid m a m' hc'
    · -- a node behind it
      obtain ⟨hprev₀, hnext₀⟩ := hl.split (l₁ ++ (c ++ m')) a l₂' (by simp)
      have hne : l₁.getLast? ≠ some a := fun hlast =>
        hapart a (List.mem_of_getLast? hlast) a (by simp) rfl
      refine ⟨?_, (hnext a (by simp) hne).trans hnext₀⟩
      cases m' with
      | nil =>
        rw [hright a (by simp)]
        simp
      | cons x m' =>
        have hback := (List.nodup_append.mp (List.nodup_append.mp hnodup).2.1).2.1
        rw [hprev a (by simp) (head?_ne_of_append hback), hprev₀]
        simp [List.getLast?_append, List.getLast?_cons]

/-! ## Insertion -/

/-- The links after `b` has been put between the nodes `p` and `n`, either of which may be
missing. -/
structure Inserted (k : Links ν) (p n : Option ν) (b : ν) (k' : Links ν) : Prop where
  prev_new : k'.prev b = p
  next_new : k'.next b = n
  next_left : ∀ a, p = some a → k'.next a = some b
  prev_right : ∀ a, n = some a → k'.prev a = some b
  next_same : ∀ a, a ≠ b → p ≠ some a → k'.next a = k.next a
  prev_same : ∀ a, a ≠ b → n ≠ some a → k'.prev a = k.prev a

theorem IsList.insert (hl : IsList k h (l₁ ++ l₂)) (hb : b ∉ l₁ ++ l₂)
    (hk : Inserted k l₁.getLast? l₂.head? b k')
    (hh : h' = if l₁ = [] then some b else h) : IsList k' h' (l₁ ++ b :: l₂) := by
  have hne : ∀ a ∈ l₁ ++ l₂, a ≠ b := fun a ha hab => hb (hab ▸ ha)
  apply hl.splice (c := []) (d := [b])
  · exact (List.perm_middle.nodup_iff).mpr (List.nodup_cons.mpr ⟨hb, hl.nodup⟩)
  · exact hk.next_left
  · intro a ha
    rw [hk.prev_right a ha]
    simp
  · exact fun a ha => hk.next_same a (hne a ha)
  · exact fun a ha => hk.prev_same a (hne a ha)
  · intro m a m' hm
    obtain ⟨rfl, ⟨rfl, rfl⟩⟩ | hfalse := List.singleton_eq_append_iff.mp hm
    · exact ⟨by rw [List.append_nil]; exact hk.prev_new, hk.next_new⟩
    · cases hfalse.2
  · rw [hh, hl.head]
    cases l₁ <;> rfl

/-! ## Removal -/

/-- The links after the node between `p` and `n` has been taken out. -/
structure Removed (k : Links ν) (p n : Option ν) (b : ν) (k' : Links ν) : Prop where
  next_left : ∀ a, p = some a → k'.next a = n
  prev_right : ∀ a, n = some a → k'.prev a = p
  next_same : ∀ a, a ≠ b → p ≠ some a → k'.next a = k.next a
  prev_same : ∀ a, a ≠ b → n ≠ some a → k'.prev a = k.prev a

theorem removed_of_eq [DecidableEq ν] {p n : Option ν}
    (hnext : ∀ a, k'.next a = if p = some a then n else k.next a)
    (hprev : ∀ a, k'.prev a = if n = some a then p else k.prev a) : Removed k p n b k' where
  next_left a ha := by rw [hnext, if_pos ha]
  prev_right a ha := by rw [hprev, if_pos ha]
  next_same a _ ha := by rw [hnext, if_neg ha]
  prev_same a _ ha := by rw [hprev, if_neg ha]

theorem IsList.remove (hl : IsList k h (l₁ ++ b :: l₂))
    (hk : Removed k l₁.getLast? l₂.head? b k')
    (hh : h' = if l₁ = [] then l₂.head? else h) : IsList k' h' (l₁ ++ l₂) := by
  obtain ⟨hb, hnodup⟩ := List.nodup_cons.mp (List.perm_middle.nodup_iff.mp hl.nodup)
  have hne : ∀ a ∈ l₁ ++ l₂, a ≠ b := fun a ha hab => hb (hab ▸ ha)
  apply hl.splice (c := [b]) (d := [])
  · exact hnodup
  · exact hk.next_left
  · rw [List.append_nil]
    exact hk.prev_right
  · exact fun a ha => hk.next_same a (hne a ha)
  · exact fun a ha => hk.prev_same a (hne a ha)
  · intro m a m' hm
    cases (List.nil_eq_append_iff.mp hm).2
  · rw [hh, hl.head]
    cases l₁ <;> rfl

end RiscvBm.Chain

import Mathlib.Algebra.Order.BigOperators.Group.Finset
import RiscvBm.Lib.Sums

/-!
# Finite maps kept in a list of slots

A slot holds an entry, and an entry is used or not. A search goes through the slots from the
first one on and stops at a used entry with the key. As long as used entries have different
keys, the list stands for a finite map, and the two ways to change it are the two ways to
change a map: an entry with a new key is put into a slot that is not used (`lookup_place`), and
a slot is cleared (`lookup_clear`).
-/

namespace RiscvBm.Slots

open Function

section Place

variable {α : Type*} {l : List α} {m : ℕ} {a : α}

/-- The `m`-th place of the list is set; the list is longer by one if `m` is its length. -/
def place (l : List α) (m : ℕ) (a : α) : List α := l.take m ++ a :: l.drop (m + 1)

theorem getElem?_place (hm : m ≤ l.length) (j : ℕ) :
    (place l m a)[j]? = if j = m then some a else l[j]? := by
  unfold place
  have hlen : (l.take m).length = m := by
    rw [List.length_take]
    omega
  rcases Nat.lt_trichotomy j m with hlt | rfl | hgt
  · rw [List.getElem?_append_left (by omega), List.getElem?_take_of_lt hlt, if_neg hlt.ne]
  · rw [List.getElem?_append_right (by omega), hlen, Nat.sub_self, if_pos rfl]
    rfl
  · obtain ⟨c, rfl⟩ : ∃ c, j = m + 1 + c := ⟨j - m - 1, by omega⟩
    rw [List.getElem?_append_right (by omega), hlen, if_neg hgt.ne',
      show m + 1 + c - m = c + 1 by omega, List.getElem?_cons_succ, List.getElem?_drop]

end Place

variable {α κ : Type} [DecidableEq κ] {used : α → Bool} {key : α → κ}

/-- The first used entry with the key. -/
def lookup (used : α → Bool) (key : α → κ) (l : List α) (x : κ) : Option α :=
  l.find? fun a => used a && decide (key a = x)

/-- Used entries have different keys. -/
def Distinct (used : α → Bool) (key : α → κ) (l : List α) : Prop :=
  ∀ (i j : ℕ) (a b : α), l[i]? = some a → l[j]? = some b → used a = true → used b = true →
    key a = key b → i = j

variable {l : List α} {m : ℕ} {a : α} {x : κ}

theorem lookup_eq_none : lookup used key l x = none ↔ ∀ a ∈ l, used a = true → key a ≠ x := by
  simp [lookup, List.find?_eq_none]

theorem used_of_lookup (h : lookup used key l x = some a) : a ∈ l ∧ used a = true ∧ key a = x := by
  have hmem := List.mem_of_find?_eq_some h
  have hcond := List.find?_some h
  simp only [Bool.and_eq_true, decide_eq_true_eq] at hcond
  exact ⟨hmem, hcond.1, hcond.2⟩

theorem lookup_of_first (hbefore : ∀ j < m, ∀ b, l[j]? = some b → used b = true → key b ≠ x)
    (hget : l[m]? = some a) (hused : used a = true) (hkey : key a = x) :
    lookup used key l x = some a := by
  have hlt := (List.getElem?_eq_some_iff.mp hget).1
  have hsplit : l = l.take m ++ a :: l.drop (m + 1) := by
    rw [← (List.getElem?_eq_some_iff.mp hget).2, ← List.drop_eq_getElem_cons, List.take_append_drop]
  have hnone : (l.take m).find? (fun b => used b && decide (key b = x)) = none := by
    rw [List.find?_eq_none]
    intro b hb
    obtain ⟨j, hj⟩ := List.mem_iff_getElem?.mp hb
    rw [List.getElem?_take] at hj
    split_ifs at hj with hjm
    simp only [Bool.and_eq_true, decide_eq_true_eq, not_and]
    exact hbefore j hjm b hj
  rw [lookup, hsplit, List.find?_append, hnone, Option.none_or, List.find?_cons_of_pos]
  simp [hused, hkey]

/-- The order of the slots does not matter. -/
theorem lookup_eq_some (h : Distinct used key l) :
    lookup used key l x = some a ↔ a ∈ l ∧ used a = true ∧ key a = x := by
  refine ⟨used_of_lookup, ?_⟩
  rintro ⟨hmem, hused, rfl⟩
  cases hlook : lookup used key l (key a) with
  | none => exact absurd rfl (lookup_eq_none.mp hlook a hmem hused)
  | some b =>
    obtain ⟨hmem', hused', hkey⟩ := used_of_lookup hlook
    obtain ⟨i, hi⟩ := List.mem_iff_getElem?.mp hmem
    obtain ⟨j, hj⟩ := List.mem_iff_getElem?.mp hmem'
    obtain rfl := h j i b a hj hi hused' hused hkey
    exact hj.symm.trans hi

theorem mem_place_iff {b : α} (hm : m ≤ l.length) :
    b ∈ place l m a ↔ b = a ∨ ∃ j, j ≠ m ∧ l[j]? = some b := by
  rw [List.mem_iff_getElem?]
  constructor
  · rintro ⟨j, hj⟩
    rw [getElem?_place hm] at hj
    split_ifs at hj with hjm
    · exact Or.inl (Option.some.inj hj).symm
    · exact Or.inr ⟨j, hjm, hj⟩
  · rintro (rfl | ⟨j, hjm, hj⟩)
    · exact ⟨m, by rw [getElem?_place hm, if_pos rfl]⟩
    · exact ⟨j, by rw [getElem?_place hm, if_neg hjm, hj]⟩

/-! ### A new key -/

omit [DecidableEq κ] in
theorem Distinct.placed (h : Distinct used key l) (hm : m ≤ l.length)
    (hfresh : used a = true → ∀ b ∈ l, used b = true → key b ≠ key a) :
    Distinct used key (place l m a) := by
  intro i j b c hb hc hub huc hkey
  rw [getElem?_place hm] at hb hc
  by_cases him : i = m <;> by_cases hjm : j = m
  · exact him.trans hjm.symm
  · rw [if_pos him] at hb
    rw [if_neg hjm] at hc
    obtain rfl := Option.some.inj hb
    exact absurd hkey.symm (hfresh hub c (List.mem_of_getElem? hc) huc)
  · rw [if_neg him] at hb
    rw [if_pos hjm] at hc
    obtain rfl := Option.some.inj hc
    exact absurd hkey (hfresh huc b (List.mem_of_getElem? hb) hub)
  · rw [if_neg him] at hb
    rw [if_neg hjm] at hc
    exact h i j b c hb hc hub huc hkey

/-- The keys that are neither in the slot nor in the new entry. -/
theorem lookup_place_of_ne {x : κ} (h : Distinct used key l)
    (hnew : Distinct used key (place l m a)) (hm : m ≤ l.length) (ha : used a = true → key a ≠ x)
    (hold : ∀ b, l[m]? = some b → used b = true → key b ≠ x) :
    lookup used key (place l m a) x = lookup used key l x := by
  ext b
  rw [lookup_eq_some hnew, lookup_eq_some h, mem_place_iff hm]
  constructor
  · rintro ⟨rfl | ⟨j, -, hj⟩, hub, hkey⟩
    · exact absurd hkey (ha hub)
    · exact ⟨List.mem_of_getElem? hj, hub, hkey⟩
  · rintro ⟨hb, hub, hkey⟩
    obtain ⟨j, hj⟩ := List.mem_iff_getElem?.mp hb
    refine ⟨Or.inr ⟨j, ?_, hj⟩, hub, hkey⟩
    rintro rfl
    exact hold b hj hub hkey

/-- An entry with a new key is put into a slot that is not used. -/
theorem lookup_place (h : Distinct used key l) (hm : m ≤ l.length)
    (hfree : ∀ b, l[m]? = some b → used b = false) (hused : used a = true)
    (hfresh : lookup used key l (key a) = none) :
    lookup used key (place l m a) = update (lookup used key l) (key a) (some a) := by
  rw [lookup_eq_none] at hfresh
  have hnew := h.placed hm fun _ => hfresh
  funext x
  by_cases hx : x = key a
  · subst hx
    rw [update_self, lookup_eq_some hnew, mem_place_iff hm]
    exact ⟨Or.inl rfl, hused, rfl⟩
  · rw [update_of_ne hx]
    apply lookup_place_of_ne h hnew hm fun _ => Ne.symm hx
    intro b hb hub
    rw [hfree b hb] at hub
    cases hub

/-! ### A slot is cleared -/

omit [DecidableEq κ] in
theorem Distinct.cleared (h : Distinct used key l) (hm : m ≤ l.length) (hunused : used a = false) :
    Distinct used key (place l m a) := by
  apply h.placed hm
  intro hused
  rw [hunused] at hused
  cases hused

/-- The slot of a used entry is cleared. -/
theorem lookup_clear {b : α} (h : Distinct used key l) (hb : l[m]? = some b) (hused : used b = true)
    (hunused : used a = false) :
    lookup used key (place l m a) = update (lookup used key l) (key b) none := by
  have hm : m ≤ l.length := (List.getElem?_eq_some_iff.mp hb).1.le
  have hnew := h.cleared hm hunused
  have hna : used a ≠ true := by simp [hunused]
  funext x
  by_cases hx : x = key b
  · subst hx
    rw [update_self, lookup_eq_none]
    intro c hc huc hkey
    rcases (mem_place_iff hm).mp hc with rfl | ⟨j, hjm, hj⟩
    · exact hna huc
    · exact hjm (h j m c b hj hb huc hused hkey)
  · rw [update_of_ne hx]
    apply lookup_place_of_ne h hnew hm fun hua => absurd hua hna
    intro c hc _ hkey
    rw [hb] at hc
    obtain rfl := Option.some.inj hc
    exact hx hkey.symm

end RiscvBm.Slots

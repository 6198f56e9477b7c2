import Mathlib.Data.List.Basic

/-!
# Sequences of writes to a store

A store is a function from addresses to values; a device carries out a list of
writes in order. A crash keeps the store as some first part of the list has
made it: `applyWrites d (ws.take k)`.
-/

namespace RiscvBm.Writes

open Function

variable {α β : Type*} [DecidableEq α]

def applyWrites (d : α → β) (ws : List (α × β)) : α → β :=
  ws.foldl (fun d w => update d w.1 w.2) d

@[simp] theorem applyWrites_nil (d : α → β) : applyWrites d [] = d := rfl

@[simp] theorem applyWrites_cons (d : α → β) (w : α × β) (ws : List (α × β)) :
    applyWrites d (w :: ws) = applyWrites (update d w.1 w.2) ws := rfl

theorem applyWrites_append (d : α → β) (ws vs : List (α × β)) :
    applyWrites d (ws ++ vs) = applyWrites (applyWrites d ws) vs :=
  List.foldl_append

/-- An address that no write names keeps its value. -/
theorem applyWrites_of_notMem {d : α → β} {ws : List (α × β)} {a : α}
    (h : ∀ w ∈ ws, w.1 ≠ a) : applyWrites d ws a = d a := by
  induction ws generalizing d with
  | nil => rfl
  | cons w ws ih =>
    rw [applyWrites_cons, ih fun v hv => h v (List.mem_cons_of_mem _ hv)]
    exact update_of_ne (h w List.mem_cons_self).symm _ _

/-- The writes `(f i, g i)` for `i < n`, to different addresses. -/
theorem applyWrites_range {d : α → β} {f : ℕ → α} {g : ℕ → β} {n : ℕ}
    (hf : ∀ i j, i < n → j < n → f i = f j → i = j) {i : ℕ} (hi : i < n) :
    applyWrites d ((List.range n).map fun j => (f j, g j)) (f i) = g i := by
  induction n with
  | zero => omega
  | succ n ih =>
    rw [List.range_succ, List.map_append, applyWrites_append]
    simp only [List.map_cons, List.map_nil, applyWrites_cons, applyWrites_nil]
    by_cases h : i = n
    · subst h
      exact update_self _ _ _
    · rw [update_of_ne fun he => h (hf i n (by omega) (by omega) he)]
      exact ih (fun a b ha hb => hf a b (by omega) (by omega)) (by omega)

/-- When only the first `k` of them are through, exactly the first `k` addresses
have their new value. -/
theorem applyWrites_take_range {d : α → β} {f : ℕ → α} {g : ℕ → β} {n : ℕ}
    (hf : ∀ i j, i < n → j < n → f i = f j → i = j) (k : ℕ) {i : ℕ} (hi : i < n) :
    applyWrites d (((List.range n).map fun j => (f j, g j)).take k) (f i) =
      if i < k then g i else d (f i) := by
  rw [← List.map_take, List.take_range]
  split_ifs with hk
  · exact applyWrites_range (fun a b ha hb => hf a b (by omega) (by omega)) (by omega)
  · apply applyWrites_of_notMem
    intro w hw he
    obtain ⟨j, hj, rfl⟩ := List.mem_map.mp hw
    rw [List.mem_range] at hj
    have := hf j i (by omega) hi he
    omega

end RiscvBm.Writes

import Mathlib.Algebra.BigOperators.Group.Finset.Piecewise
import Mathlib.Tactic.Abel

/-!
# Counting over a table

A table is a function from indices to entries, changed with `Function.update`.
What the entries contribute is a sum of weights; one change exchanges one weight
for another.
-/

namespace RiscvBm.Sums

open Finset Function

variable {ι β M : Type*} [DecidableEq ι] [AddCommMonoid M]

theorem sum_update {t : Finset ι} (w : β → M) (f : ι → β) {i : ι} (hi : i ∈ t) (x : β) :
    ∑ j ∈ t, w (update f i x j) + w (f i) = ∑ j ∈ t, w (f j) + w x := by
  have happly : ∀ j, w (update f i x j) = update (fun j => w (f j)) i (w x) j :=
    fun j => apply_update (fun _ => w) f i x j
  rw [sum_congr rfl fun j _ => happly j, sum_update_of_mem hi, sdiff_singleton_eq_erase,
    ← add_sum_erase t (fun j => w (f j)) hi]
  abel

/-- An entry outside the part that is counted. -/
theorem sum_update_of_notMem {t : Finset ι} (w : β → M) (f : ι → β) {i : ι} (hi : i ∉ t) (x : β) :
    ∑ j ∈ t, w (update f i x j) = ∑ j ∈ t, w (f j) := by
  refine sum_congr rfl fun j hj => ?_
  rw [update_of_ne]
  rintro rfl
  exact hi hj

/-- A sum over the places of a list, with room after it. -/
theorem sum_range_getElem? {α : Type*} (w : Option α → M) (hw : w none = 0) (l : List α) {n : ℕ}
    (hn : l.length ≤ n) : ∑ k ∈ range n, w l[k]? = (l.map fun a => w (some a)).sum := by
  induction l generalizing n with
  | nil => simp [hw]
  | cons a l ih =>
    cases n with
    | zero => cases hn
    | succ n =>
      rw [sum_range_succ', List.map_cons, List.sum_cons, add_comm]
      congr 1
      exact ih (Nat.le_of_succ_le_succ hn)

end RiscvBm.Sums

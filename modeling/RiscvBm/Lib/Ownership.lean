import Mathlib.Algebra.Notation.Defs
import Mathlib.Logic.Function.Basic

/-!
# Exclusive ownership

Places hold pointers to blocks; `0` is the null pointer. `Owns tgt data used` says that no block
is pointed to from two places, and that the blocks that are pointed to are among those that can
be allocated (`data`) and marked as allocated (`used`). Blocks that are marked may be lost.

`Owns.take` puts a free block into a place.
-/

namespace RiscvBm.Ownership

open Function

variable {P B : Type*} [Zero B] {tgt : P → B} {data used used' : Set B} {p : P} {b : B}

structure Owns (tgt : P → B) (data used : Set B) : Prop where
  inj : ∀ {p q}, tgt p ≠ 0 → tgt p = tgt q → p = q
  mem : ∀ {p}, tgt p ≠ 0 → tgt p ∈ data
  used : ∀ {p}, tgt p ≠ 0 → tgt p ∈ used

theorem Owns.ne_of_free (h : Owns tgt data used) (hb : b ∉ used) (hp : tgt p ≠ 0) : tgt p ≠ b := by
  rintro rfl
  exact hb (h.used hp)

/-- A free block is put into a place. -/
theorem Owns.take [DecidableEq P] (h : Owns tgt data used) (hb : b ∈ data) (hfree : b ∉ used)
    (hused : ∀ c ∈ data, c ∈ used ∨ c = b → c ∈ used') : Owns (update tgt p b) data used' := by
  have hmem : ∀ {q}, update tgt p b q ≠ 0 →
      update tgt p b q ∈ data ∧ (update tgt p b q ∈ used ∨ update tgt p b q = b) := by
    intro q hq
    by_cases hqp : q = p
    · rw [hqp, update_self]
      exact ⟨hb, Or.inr rfl⟩
    · rw [update_of_ne hqp] at hq ⊢
      exact ⟨h.mem hq, Or.inl (h.used hq)⟩
  refine ⟨fun {q r} hq hqr => ?_, fun hq => (hmem hq).1, fun hq => hused _ (hmem hq).1 (hmem hq).2⟩
  by_cases hqp : q = p
  · by_cases hrp : r = p
    · rw [hqp, hrp]
    · rw [hqp, update_self] at hq hqr
      rw [update_of_ne hrp] at hqr
      exact absurd hqr.symm (h.ne_of_free hfree (hqr ▸ hq))
  · rw [update_of_ne hqp] at hq hqr
    by_cases hrp : r = p
    · rw [hrp, update_self] at hqr
      exact absurd hqr (h.ne_of_free hfree hq)
    · rw [update_of_ne hrp] at hqr
      exact h.inj hq hqr

end RiscvBm.Ownership

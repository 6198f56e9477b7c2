import Mathlib.Data.List.Pairwise

/-!
# Packings of an address range

A list of non-empty half-open intervals `[lo, hi)` that lie in one range and do not overlap.
The order of the list does not matter (`Packed.perm`), so an allocator's lists may be
rearranged freely; blocks are split, merged, added at the end of the range and cut off there.
-/

namespace RiscvBm.Extents

structure Extent where
  lo : ℕ
  hi : ℕ
deriving DecidableEq, Repr

/-- The two intervals have no address in common. -/
def Apart (a b : Extent) : Prop := a.hi ≤ b.lo ∨ b.hi ≤ a.lo

instance (a b : Extent) : Decidable (Apart a b) := instDecidableOr

theorem Apart.symm {a b : Extent} (h : Apart a b) : Apart b a := Or.symm h

structure Packed (lo hi : ℕ) (es : List Extent) : Prop where
  apart : es.Pairwise Apart
  inside : ∀ e ∈ es, lo ≤ e.lo ∧ e.lo < e.hi ∧ e.hi ≤ hi

variable {lo hi a b c : ℕ} {e : Extent} {es es' : List Extent}

theorem packed_nil (lo hi : ℕ) : Packed lo hi [] := ⟨List.Pairwise.nil, by simp⟩

theorem Packed.perm (h : Packed lo hi es) (hp : es.Perm es') : Packed lo hi es' where
  apart := (hp.pairwise_iff fun h => h.symm).mp h.apart
  inside e he := h.inside e (hp.mem_iff.mpr he)

theorem packed_cons : Packed lo hi (e :: es) ↔
    (lo ≤ e.lo ∧ e.lo < e.hi ∧ e.hi ≤ hi) ∧ (∀ x ∈ es, Apart e x) ∧ Packed lo hi es := by
  constructor
  · rintro ⟨hap, hin⟩
    rw [List.pairwise_cons] at hap
    rw [List.forall_mem_cons] at hin
    exact ⟨hin.1, hap.1, hap.2, hin.2⟩
  · rintro ⟨hin, hap, h⟩
    exact ⟨List.pairwise_cons.mpr ⟨hap, h.apart⟩, List.forall_mem_cons.mpr ⟨hin, h.inside⟩⟩

theorem Packed.split (h : Packed lo hi (⟨a, c⟩ :: es)) (hab : a < b) (hbc : b < c) :
    Packed lo hi (⟨a, b⟩ :: ⟨b, c⟩ :: es) := by
  simp only [packed_cons, List.forall_mem_cons, Apart] at h ⊢
  obtain ⟨⟨hlo, -, hhi⟩, hap, htail⟩ := h
  refine ⟨⟨hlo, hab, by omega⟩, ⟨Or.inl (Nat.le_refl _), fun x hx => ?_⟩, ⟨by omega, hbc, hhi⟩,
    fun x hx => ?_, htail⟩
  · have hx := hap x hx
    omega
  · have hx := hap x hx
    omega

theorem Packed.merge (h : Packed lo hi (⟨a, b⟩ :: ⟨b, c⟩ :: es)) :
    Packed lo hi (⟨a, c⟩ :: es) := by
  simp only [packed_cons, List.forall_mem_cons, Apart] at h ⊢
  obtain ⟨⟨hlo, hab, -⟩, ⟨-, hfirst⟩, ⟨-, hbc, hhi⟩, hsecond, htail⟩ := h
  refine ⟨⟨hlo, by omega, hhi⟩, fun x hx => ?_, htail⟩
  have hin := htail.inside x hx
  have h₁ := hfirst x hx
  have h₂ := hsecond x hx
  omega

/-- The range grows, and the new part is one interval. -/
theorem Packed.push (h : Packed lo a es) (hlo : lo ≤ a) (hab : a < b) :
    Packed lo b (⟨a, b⟩ :: es) := by
  refine packed_cons.mpr ⟨⟨hlo, hab, Nat.le_refl _⟩, fun x hx => Or.inr (h.inside x hx).2.2,
    h.apart, fun x hx => ?_⟩
  obtain ⟨h₁, h₂, h₃⟩ := h.inside x hx
  exact ⟨h₁, h₂, Nat.le_trans h₃ (Nat.le_of_lt hab)⟩

/-- All others lie below an interval that ends where the range ends. -/
theorem Packed.pop (h : Packed lo b (⟨a, b⟩ :: es)) : lo ≤ a ∧ a < b ∧ Packed lo a es := by
  simp only [packed_cons, Apart] at h
  obtain ⟨⟨hlo, hab, -⟩, hap, htail⟩ := h
  refine ⟨hlo, hab, htail.apart, fun x hx => ?_⟩
  have hin := htail.inside x hx
  have hx := hap x hx
  omega

end RiscvBm.Extents

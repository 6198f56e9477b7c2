import Mathlib.Data.Nat.Bitwise
import Mathlib.Data.List.Perm.Basic
import Mathlib.Tactic.Ring

/-!
# Aligned blocks of powers of two

A block of order `k` at `p` is the interval `[p, p + 2 ^ k)`; it is aligned when
`2 ^ k` divides `p`. Aligned blocks are nested or disjoint, two halves of an
aligned block are buddies of each other, and a set of aligned blocks without
free buddies is the only way to cut its union into maximal pieces
(`mem_iff_maximal`).
-/

namespace RiscvBm.Dyadic

def Aligned (p k : ℕ) : Prop := 2 ^ k ∣ p

def InBlock (p k x : ℕ) : Prop := p ≤ x ∧ x < p + 2 ^ k

instance (p k : ℕ) : Decidable (Aligned p k) := inferInstanceAs (Decidable (2 ^ k ∣ p))

instance (p k x : ℕ) : Decidable (InBlock p k x) :=
  inferInstanceAs (Decidable (p ≤ x ∧ x < p + 2 ^ k))

/-- The other half of the aligned block of order `k + 1`. -/
def buddy (p k : ℕ) : ℕ := p ^^^ 2 ^ k

/-! ## §1  Blocks -/

variable {p j k x q : ℕ}

theorem Aligned.mono (h : Aligned p k) (hjk : j ≤ k) : Aligned p j :=
  (pow_dvd_pow 2 hjk).trans h

theorem inBlock_self (p k : ℕ) : InBlock p k p :=
  ⟨le_rfl, Nat.lt_add_of_pos_right (Nat.two_pow_pos k)⟩

/-- The block of an address is found by division. -/
theorem inBlock_iff_div (h : Aligned p k) : InBlock p k x ↔ x / 2 ^ k = p / 2 ^ k := by
  obtain ⟨m, rfl⟩ := h
  have hpos := Nat.two_pow_pos k
  rw [Nat.mul_div_cancel_left m hpos, InBlock, Nat.div_eq_iff hpos]
  constructor
  · rintro ⟨h₁, h₂⟩
    exact ⟨by rw [mul_comm]; exact h₁, by rw [mul_comm m]; omega⟩
  · rintro ⟨h₁, h₂⟩
    rw [mul_comm m] at h₁ h₂
    exact ⟨h₁, by omega⟩

theorem eq_of_inBlock (hp : Aligned p k) (hq : Aligned q k)
    (hxp : InBlock p k x) (hxq : InBlock q k x) : p = q := by
  have h : p / 2 ^ k = q / 2 ^ k :=
    ((inBlock_iff_div hp).mp hxp).symm.trans ((inBlock_iff_div hq).mp hxq)
  rw [← Nat.mul_div_cancel' hp, ← Nat.mul_div_cancel' hq, h]

/-- A block that shares an address with a larger one lies inside it. -/
theorem InBlock.nested {y : ℕ} (hp : Aligned p k) (hq : Aligned q j) (hkj : k ≤ j)
    (hxp : InBlock p k x) (hxq : InBlock q j x) (hy : InBlock p k y) : InBlock q j y := by
  rw [inBlock_iff_div hp] at hxp hy
  rw [inBlock_iff_div hq] at hxq ⊢
  obtain ⟨d, rfl⟩ := Nat.exists_eq_add_of_le hkj
  rw [pow_add, ← Nat.div_div_eq_div_mul] at hxq ⊢
  rw [hy, ← hxp, hxq]

/-- An aligned address inside an aligned block of smaller order starts it. -/
theorem eq_of_aligned_inBlock (hp : Aligned p k) (hq : Aligned q j) (hjk : j ≤ k)
    (h : InBlock q j p) : q = p :=
  eq_of_inBlock hq (hp.mono hjk) h (inBlock_self p j)

theorem inBlock_succ :
    InBlock p (k + 1) x ↔ InBlock p k x ∨ InBlock (p + 2 ^ k) k x := by
  unfold InBlock
  rw [pow_succ]
  omega

/-! ## §2  Buddies -/

theorem buddy_mul (m k : ℕ) : buddy (2 ^ k * m) k = 2 ^ k * (m ^^^ 1) := by
  have h := Nat.shiftLeft_xor_distrib (a := m) (b := 1) (i := k)
  rw [Nat.shiftLeft_eq, Nat.shiftLeft_eq, Nat.shiftLeft_eq, one_mul] at h
  rw [buddy, mul_comm, mul_comm _ (m ^^^ 1), h]

theorem xor_one_cases (m : ℕ) :
    (m % 2 = 0 ∧ m ^^^ 1 = m + 1) ∨ (m % 2 = 1 ∧ (m ^^^ 1) + 1 = m) := by
  have hdiv : (m ^^^ 1) / 2 = m / 2 := by
    rw [Nat.xor_div_two]
    simp
  have hmod : (m ^^^ 1) % 2 = (m + 1) % 2 := Nat.xor_mod_two_eq
  omega

/-- The buddy is the upper or the lower neighbour; the lower of the two starts
the block of the next order. -/
theorem buddy_cases (hp : Aligned p k) :
    (Aligned p (k + 1) ∧ buddy p k = p + 2 ^ k) ∨
      (Aligned (buddy p k) (k + 1) ∧ p = buddy p k + 2 ^ k) := by
  obtain ⟨m, rfl⟩ := hp
  rw [buddy_mul]
  rcases xor_one_cases m with ⟨h₁, h₂⟩ | ⟨h₁, h₂⟩
  · left
    refine ⟨?_, by rw [h₂, mul_add, mul_one]⟩
    obtain ⟨r, rfl⟩ := Nat.dvd_of_mod_eq_zero h₁
    exact ⟨r, by ring⟩
  · right
    have hm : m ^^^ 1 = 2 * (m / 2) := by omega
    refine ⟨⟨m / 2, by rw [hm]; ring⟩, ?_⟩
    conv_lhs => rw [← h₂]
    ring

/-- The upper half of an aligned block is not aligned to the next order. -/
theorem not_aligned_upper (hq : Aligned q (k + 1)) (hp : p = q + 2 ^ k) :
    ¬ Aligned p (k + 1) := by
  intro h
  rw [hp] at h
  have hdvd := (Nat.dvd_add_right hq).mp h
  have hle := Nat.le_of_dvd (Nat.two_pow_pos k) hdvd
  have hpos := Nat.two_pow_pos k
  rw [pow_succ] at hle
  omega

theorem Aligned.buddy (hp : Aligned p k) : Aligned (buddy p k) k := by
  rcases buddy_cases hp with ⟨-, h⟩ | ⟨h, -⟩
  · rw [h]
    exact (Nat.dvd_add_right hp).mpr dvd_rfl
  · exact h.mono (Nat.le_succ k)

theorem buddy_buddy (p k : ℕ) : buddy (buddy p k) k = p := by
  unfold buddy
  rw [Nat.xor_assoc, Nat.xor_self, Nat.xor_zero]

theorem buddy_ne (p k : ℕ) : buddy p k ≠ p := by
  intro h
  have h' : p ^^^ (p ^^^ 2 ^ k) = p ^^^ p := by
    unfold buddy at h
    rw [h]
  rw [← Nat.xor_assoc, Nat.xor_self, Nat.zero_xor] at h'
  exact absurd h' (Nat.two_pow_pos k).ne'

/-- `buddy_pfn & pfn` is the lower of the two. -/
theorem buddy_and (hp : Aligned p k) : buddy p k &&& p = min (buddy p k) p := by
  obtain ⟨m, rfl⟩ := hp
  have hpos := Nat.two_pow_pos k
  have h := Nat.shiftLeft_and_distrib (a := m ^^^ 1) (b := m) (i := k)
  rw [Nat.shiftLeft_eq, Nat.shiftLeft_eq, Nat.shiftLeft_eq] at h
  have hone : (m ^^^ 1) &&& m = min (m ^^^ 1) m := by
    have hdiv : ((m ^^^ 1) &&& m) / 2 = m / 2 := by
      rw [Nat.and_div_two, Nat.xor_div_two]
      simp
    have hmod : ((m ^^^ 1) &&& m) % 2 = 0 := by
      have hand := Nat.and_mod_two_pow (a := m ^^^ 1) (b := m) (n := 1)
      rw [pow_one] at hand
      rcases xor_one_cases m with ⟨h₁, h₂⟩ | ⟨h₁, h₂⟩
      · rw [hand, h₁, Nat.and_zero]
      · rw [hand, show (m ^^^ 1) % 2 = 0 by omega, Nat.zero_and]
    have hcases := xor_one_cases m
    omega
  rw [buddy_mul, mul_comm, mul_comm (2 ^ k) m, ← h, hone, ← Nat.mul_min_mul_right]

theorem buddy_and_cases (hp : Aligned p k) :
    Aligned (buddy p k &&& p) (k + 1) ∧
    ∀ x, InBlock (buddy p k &&& p) (k + 1) x ↔ InBlock p k x ∨ InBlock (buddy p k) k x := by
  have hpos := Nat.two_pow_pos k
  rw [buddy_and hp]
  rcases buddy_cases hp with ⟨hal, hb⟩ | ⟨hal, hb⟩
  · rw [min_eq_right (by omega), hb]
    exact ⟨hal, fun x => inBlock_succ⟩
  · rw [min_eq_left (by omega)]
    refine ⟨hal, fun x => ?_⟩
    rw [inBlock_succ, ← hb, or_comm]

/-- An aligned block that contains `buddy p k` and is larger contains `p`. -/
theorem inBlock_of_buddy (hp : Aligned p k) (hq : Aligned q j) (hkj : k < j)
    (h : InBlock q j (buddy p k)) : InBlock q j p := by
  obtain ⟨hal, hx⟩ := buddy_and_cases hp
  exact InBlock.nested hal hq hkj ((hx _).mpr (Or.inr (inBlock_self _ k))) h
    ((hx _).mpr (Or.inl (inBlock_self p k)))

/-! ## §3  Sets of blocks -/

variable {N : ℕ} {D : ℕ → ℕ → Prop}

/-- The addresses that some block of `D` contains. -/
def Covered (D : ℕ → ℕ → Prop) (x : ℕ) : Prop := ∃ p k, D p k ∧ InBlock p k x

/-- A set of disjoint aligned blocks of order at most `N` in which nothing is
left to merge. -/
structure Canonical (N : ℕ) (D : ℕ → ℕ → Prop) : Prop where
  aligned : ∀ p k, D p k → Aligned p k
  le : ∀ p k, D p k → k ≤ N
  disjoint : ∀ p k q j x, D p k → D q j → InBlock p k x → InBlock q j x → p = q ∧ k = j
  merged : ∀ p k, D p k → k < N → ¬ D (buddy p k) k

/-- `[p, p + 2 ^ k)` is one of the largest aligned blocks inside `S`. -/
structure Maximal (N : ℕ) (S : ℕ → Prop) (p k : ℕ) : Prop where
  aligned : Aligned p k
  le : k ≤ N
  subset : ∀ x, InBlock p k x → S x
  max : ∀ q j, Aligned q j → j ≤ N → k < j → InBlock q j p → ∃ x, InBlock q j x ∧ ¬ S x

/-- An aligned block inside the union lies inside one block of the set: its two
halves do, by induction on the order, and if these were two blocks they would
be buddies. -/
theorem Canonical.covered (hD : Canonical N D) (hq : Aligned q k) (hk : k ≤ N)
    (hsub : ∀ x, InBlock q k x → Covered D x) : ∃ p j, D p j ∧ k ≤ j ∧ InBlock p j q := by
  induction k generalizing q with
  | zero =>
    obtain ⟨p, j, hpj, hx⟩ := hsub q (inBlock_self q 0)
    exact ⟨p, j, hpj, Nat.zero_le j, hx⟩
  | succ k ih =>
    have hlow : Aligned q k := hq.mono (Nat.le_succ k)
    have hhigh : Aligned (q + 2 ^ k) k := (Nat.dvd_add_right hlow).mpr dvd_rfl
    obtain ⟨p₁, j₁, hD₁, hj₁, hx₁⟩ := ih hlow (by omega)
      fun x hx => hsub x (inBlock_succ.mpr (Or.inl hx))
    obtain ⟨p₂, j₂, hD₂, hj₂, hx₂⟩ := ih hhigh (by omega)
      fun x hx => hsub x (inBlock_succ.mpr (Or.inr hx))
    have hal₁ := hD.aligned _ _ hD₁
    have hal₂ := hD.aligned _ _ hD₂
    have hup : InBlock q (k + 1) (q + 2 ^ k) := inBlock_succ.mpr (Or.inr (inBlock_self _ k))
    rcases Nat.lt_or_ge k j₁ with h₁ | h₁
    · exact ⟨p₁, j₁, hD₁, h₁, hx₁⟩
    rcases Nat.lt_or_ge k j₂ with h₂ | h₂
    · exact ⟨p₂, j₂, hD₂, h₂, InBlock.nested hq hal₂ h₂ hup hx₂ (inBlock_self q _)⟩
    obtain rfl : j₁ = k := le_antisymm h₁ hj₁
    obtain rfl : j₂ = j₁ := le_antisymm h₂ hj₂
    obtain rfl := eq_of_aligned_inBlock hlow hal₁ le_rfl hx₁
    obtain rfl := eq_of_aligned_inBlock hhigh hal₂ le_rfl hx₂
    refine absurd hD₂ ?_
    rcases buddy_cases hlow with ⟨-, hb⟩ | ⟨hal, hb⟩
    · rw [← hb]
      exact hD.merged _ _ hD₁ (by omega)
    · -- the lower half of an aligned block is not an upper half
      exact absurd hq (not_aligned_upper hal hb)

/-- A canonical set consists of the maximal blocks of its union. -/
theorem Canonical.mem_iff_maximal (hD : Canonical N D) (p k : ℕ) :
    D p k ↔ Maximal N (Covered D) p k := by
  constructor
  · intro h
    refine ⟨hD.aligned p k h, hD.le p k h, fun x hx => ⟨p, k, h, hx⟩, ?_⟩
    intro q j hq hj hkj hpq
    by_contra hall
    push Not at hall
    obtain ⟨r, i, hri, hji, hqr⟩ := hD.covered hq hj hall
    have hp : InBlock r i p := InBlock.nested hq (hD.aligned r i hri) hji (inBlock_self q j) hqr hpq
    obtain ⟨-, rfl⟩ := hD.disjoint p k r i p h hri (inBlock_self p k) hp
    omega
  · intro h
    obtain ⟨q, j, hqj, hkj, hpq⟩ := hD.covered h.aligned h.le h.subset
    rcases Nat.lt_or_ge k j with hlt | hge
    · obtain ⟨x, hx, hnot⟩ := h.max q j (hD.aligned q j hqj) (hD.le q j hqj) hlt hpq
      exact absurd ⟨q, j, hqj, hx⟩ hnot
    · obtain rfl : j = k := le_antisymm hge hkj
      obtain rfl := eq_of_aligned_inBlock h.aligned (hD.aligned q j hqj) le_rfl hpq
      exact hqj

/-- Two canonical sets with the same union are the same. -/
theorem Canonical.unique {D' : ℕ → ℕ → Prop} (hD : Canonical N D) (hD' : Canonical N D')
    (h : ∀ x, Covered D x ↔ Covered D' x) (p k : ℕ) : D p k ↔ D' p k := by
  have hS : Covered D = Covered D' := funext fun x => propext (h x)
  rw [hD.mem_iff_maximal, hD'.mem_iff_maximal, hS]

/-! ## §4  Tilings -/

/-- The blocks `l` cut `B` into disjoint aligned blocks of order at most `N`. -/
structure Tiling (N : ℕ) (B : ℕ → Prop) (l : List (ℕ × ℕ)) : Prop where
  aligned : ∀ b ∈ l, Aligned b.1 b.2
  le : ∀ b ∈ l, b.2 ≤ N
  disjoint : l.Pairwise fun a b => ∀ x, InBlock a.1 a.2 x → ¬ InBlock b.1 b.2 x
  cover : ∀ x, B x ↔ ∃ b ∈ l, InBlock b.1 b.2 x

variable {B R : ℕ → Prop} {l a c : List (ℕ × ℕ)}

theorem Tiling.perm (h : Tiling N B l) (hp : l.Perm a) : Tiling N B a where
  aligned b hb := h.aligned b (hp.mem_iff.mpr hb)
  le b hb := h.le b (hp.mem_iff.mpr hb)
  disjoint := (hp.pairwise_iff fun hab x hb ha => hab x ha hb).mp h.disjoint
  cover x := (h.cover x).trans (exists_congr fun _ => and_congr_left fun _ => hp.mem_iff)

/-- Two blocks that overlap are one. -/
theorem Tiling.eq_of_inBlock {b b' : ℕ × ℕ} (h : Tiling N B l) (hb : b ∈ l) (hb' : b' ∈ l)
    (hx : InBlock b.1 b.2 x) (hx' : InBlock b'.1 b'.2 x) : b' = b := by
  by_contra hne
  have hfirst := (List.pairwise_cons.mp (h.perm (List.perm_cons_erase hb)).disjoint).1
  exact hfirst b' ((List.mem_erase_of_ne hne).mpr hb') x hx hx'

theorem tiling_nil : Tiling N (fun _ => False) [] :=
  ⟨by simp, by simp, List.Pairwise.nil, by simp⟩

/-- A new block next to what is there. -/
theorem Tiling.add (h : Tiling N B l) (hk : k ≤ N) (hp : Aligned p k)
    (hnew : ∀ x, InBlock p k x → ¬ B x) :
    Tiling N (fun x => B x ∨ InBlock p k x) ((p, k) :: l) where
  aligned := List.forall_mem_cons.mpr ⟨hp, h.aligned⟩
  le := List.forall_mem_cons.mpr ⟨hk, h.le⟩
  disjoint := List.pairwise_cons.mpr
    ⟨fun b hb x hx hx' => hnew x hx ((h.cover x).mpr ⟨b, hb, hx'⟩), h.disjoint⟩
  cover x := by rw [List.exists_mem_cons_iff, h.cover, or_comm]

/-- The place of the blocks `a` is cut into the blocks `c`. -/
theorem Tiling.recut (h : Tiling N B (a ++ l)) (hc : Tiling N R c)
    (hR : ∀ x, R x ↔ ∃ b ∈ a, InBlock b.1 b.2 x) : Tiling N B (c ++ l) := by
  obtain ⟨-, hrest, hmiss⟩ := List.pairwise_append.mp h.disjoint
  refine ⟨?_, ?_, List.pairwise_append.mpr ⟨hc.disjoint, hrest, fun b hb b' hb' x hx => ?_⟩, ?_⟩
  · exact List.forall_mem_append.mpr ⟨hc.aligned, (List.forall_mem_append.mp h.aligned).2⟩
  · exact List.forall_mem_append.mpr ⟨hc.le, (List.forall_mem_append.mp h.le).2⟩
  · obtain ⟨d, hd, hxd⟩ := (hR x).mp ((hc.cover x).mpr ⟨b, hb, hx⟩)
    exact hmiss d hd b' hb' x hxd
  · intro x
    rw [h.cover]
    simp only [List.mem_append, or_and_right, exists_or]
    rw [← hR, hc.cover]

/-- Two buddies become one block of the next order. -/
theorem Tiling.merge (h : Tiling N B ((buddy p k, k) :: (p, k) :: l)) (hk : k < N) :
    Tiling N B ((buddy p k &&& p, k + 1) :: l) := by
  obtain ⟨hal, hx⟩ := buddy_and_cases (h.aligned (p, k) (by simp))
  refine Tiling.recut (a := [_, _]) (c := [_]) h (tiling_nil.add hk hal fun _ _ => id) fun x => ?_
  simp [hx, or_comm]

/-- A block is cut into its two halves. -/
theorem Tiling.split (h : Tiling N B ((p, k + 1) :: l)) :
    Tiling N B ((p + 2 ^ k, k) :: (p, k) :: l) := by
  have hk : k ≤ N := Nat.le_of_succ_le (h.le _ List.mem_cons_self)
  have hlow : Aligned p k := (h.aligned _ List.mem_cons_self).mono (Nat.le_succ k)
  have hup : Aligned (p + 2 ^ k) k := (Nat.dvd_add_right hlow).mpr dvd_rfl
  refine Tiling.recut (a := [_]) (c := [_, _]) h
    ((tiling_nil.add hk hlow fun _ _ => id).add hk hup ?_) fun x => ?_
  · rintro x hx (hx' | hx')
    · exact hx'
    · unfold InBlock at hx hx'
      omega
  · simp [inBlock_succ]

/-- The buddy test decides from the head of a block alone: whatever block covers
the buddy of a block of the tiling starts there, and is not larger. -/
theorem Tiling.at_buddy (h : Tiling N B l) (hp : (p, k) ∈ l) (hb : B (buddy p k)) :
    ∃ j ≤ k, (buddy p k, j) ∈ l := by
  have hal := h.aligned _ hp
  obtain ⟨⟨r, j⟩, hr, hin⟩ := (h.cover _).mp hb
  have hrj := h.aligned _ hr
  rcases Nat.lt_or_ge k j with hlt | hge
  · have hpr := inBlock_of_buddy hal hrj hlt hin
    obtain ⟨-, rfl⟩ := Prod.mk.inj (h.eq_of_inBlock hp hr (inBlock_self p k) hpr)
    omega
  · obtain rfl := eq_of_aligned_inBlock hal.buddy hrj hge hin
    exact ⟨j, hge, hr⟩

end RiscvBm.Dyadic

import Mathlib.Data.Nat.ModEq

/-!
# Ring buffers with free-running counters

A ring of `c` slots is filled at `wr % c` and emptied at `rd % c`. The counters are
words of `w` bits that are never reset, so they wrap. `Holds c data rd wr q` says that the
ring contains the queue `q`. Since `c` divides `2 ^ w`, consecutive elements are in
consecutive slots also where a counter wraps, and `q` behaves as a queue: `Holds.push`,
`Holds.pop`, with the tests for empty and full that the counters allow.

`Last c data h` is the other way to use the slots: nothing is taken out, the `n`-th element
of the history `h` is written to slot `n % c` over the one of `c` writes before.
-/

namespace RiscvBm.Ring

open Function

variable {α : Type*} {w c : ℕ}

/-- The capacity goes into the range of the counters. -/
structure Fits (c w : ℕ) : Prop where
  dvd : c ∣ 2 ^ w
  lt : c < 2 ^ w

def slot (c : ℕ) (n : BitVec w) : ℕ := n.toNat % c

structure Holds (c : ℕ) (data : ℕ → α) (rd wr : BitVec w) (q : List α) : Prop where
  length : q.length = (wr - rd).toNat
  le : q.length ≤ c
  get : ∀ j (hj : j < q.length), data (slot c (rd + BitVec.ofNat w j)) = q[j]

/-- What a reader of the ring would find, in order. -/
def contents (c : ℕ) (data : ℕ → α) (rd wr : BitVec w) : List α :=
  (List.range (wr - rd).toNat).map fun j => data (slot c (rd + BitVec.ofNat w j))

variable {data : ℕ → α} {rd wr : BitVec w} {q : List α}

theorem Holds.eq_contents (h : Holds c data rd wr q) : q = contents c data rd wr := by
  apply List.ext_getElem
  · rw [contents, List.length_map, List.length_range]
    exact h.length
  · intro j hj _
    rw [← h.get j hj]
    simp [contents]

theorem holds_nil (c : ℕ) (data : ℕ → α) (n : BitVec w) : Holds c data n n [] := by
  refine ⟨?_, Nat.zero_le c, fun j hj => absurd hj (Nat.not_lt_zero j)⟩
  simp

theorem slot_add (hf : Fits c w) (n : BitVec w) (j : ℕ) :
    slot c (n + BitVec.ofNat w j) = (n.toNat + j) % c := by
  unfold slot
  rw [BitVec.toNat_add, BitVec.toNat_ofNat, Nat.mod_mod_of_dvd _ hf.dvd, Nat.add_mod,
    Nat.mod_mod_of_dvd _ hf.dvd, ← Nat.add_mod]

theorem Holds.wr_eq (h : Holds c data rd wr q) : wr = rd + BitVec.ofNat w q.length := by
  rw [h.length, BitVec.ofNat_toNat, BitVec.setWidth_eq, BitVec.add_comm, BitVec.sub_add_cancel]

/-- The element after the last one goes to the slot of `wr`. -/
theorem Holds.slot_wr (h : Holds c data rd wr q) :
    slot c wr = slot c (rd + BitVec.ofNat w q.length) :=
  congrArg (slot c) h.wr_eq

theorem Holds.push (hf : Fits c w) (h : Holds c data rd wr q) (hlt : q.length < c) (x : α) :
    Holds c (update data (slot c wr) x) rd (wr + 1) (q ++ [x]) := by
  have hlen := h.length
  have hc := hf.lt
  constructor
  · -- the difference of the counters does not wrap: it stays below `c`
    have hsub : wr + 1 - rd = wr - rd + 1 := by
      rw [BitVec.sub_eq_add_neg, BitVec.sub_eq_add_neg, BitVec.add_assoc, BitVec.add_comm 1,
        BitVec.add_assoc]
    rw [List.length_append, List.length_singleton, hsub, BitVec.toNat_add, ← hlen]
    have hone : (1 : BitVec w).toNat = 1 := by
      have h1 : 1 < 2 ^ w := by omega
      simpa using Nat.mod_eq_of_lt h1
    rw [hone, Nat.mod_eq_of_lt (by omega)]
  · rw [List.length_append, List.length_singleton]
    exact hlt
  · intro j hj
    rw [List.length_append, List.length_singleton] at hj
    by_cases hjq : j < q.length
    · have hne : slot c (rd + BitVec.ofNat w j) ≠ slot c wr := by
        rw [h.slot_wr, slot_add hf, slot_add hf]
        intro heq
        have hmod : j ≡ q.length [MOD c] := Nat.ModEq.add_left_cancel' _ heq
        have := hmod.eq_of_lt_of_lt (lt_trans hjq hlt) hlt
        omega
      rw [update_of_ne hne, List.getElem_append_left hjq]
      exact h.get j hjq
    · have hjq : j = q.length := by omega
      subst hjq
      rw [← h.slot_wr, update_self]
      simp

theorem Holds.head {x : α} (h : Holds c data rd wr (x :: q)) : data (slot c rd) = x := by
  have hget := h.get 0 (Nat.succ_pos _)
  rwa [BitVec.add_zero] at hget

theorem Holds.pop {x : α} (h : Holds c data rd wr (x :: q)) : Holds c data (rd + 1) wr q := by
  have hlen := h.length
  have hle := h.le
  rw [List.length_cons] at hlen hle
  refine ⟨?_, by omega, fun j hj => ?_⟩
  · have hsub : wr - (rd + 1) = wr - rd - 1 := by
      rw [BitVec.sub_eq_add_neg, BitVec.neg_add, BitVec.sub_eq_add_neg, BitVec.sub_eq_add_neg,
        BitVec.sub_eq_add_neg, BitVec.add_assoc]
    have hpos : 1 ≤ (wr - rd).toNat := by omega
    have hw : 1 < 2 ^ w := lt_of_le_of_lt hpos (wr - rd).isLt
    have hone : (1 : BitVec w) ≤ wr - rd := by
      rw [BitVec.le_def]
      simpa [Nat.mod_eq_of_lt hw] using hpos
    rw [hsub, BitVec.toNat_sub_of_le hone, ← hlen]
    simp [Nat.mod_eq_of_lt hw]
  · have hget := h.get (j + 1) (by rw [List.length_cons]; omega)
    rw [List.getElem_cons_succ] at hget
    rw [← hget]
    congr 2
    rw [BitVec.add_assoc, BitVec.ofNat_add, BitVec.add_comm (BitVec.ofNat w j)]
    rfl

/-- The first elements, without those behind them. -/
theorem Holds.left {q' : List α} (h : Holds c data rd wr (q ++ q')) :
    Holds c data rd (rd + BitVec.ofNat w q.length) q := by
  have hlen := h.length
  have hle := h.le
  rw [List.length_append] at hlen hle
  have hlt := (wr - rd).isLt
  refine ⟨?_, by omega, fun j hj => ?_⟩
  · rw [BitVec.add_comm, BitVec.add_sub_cancel, BitVec.toNat_ofNat, Nat.mod_eq_of_lt (by omega)]
  · rw [h.get j (by rw [List.length_append]; omega), List.getElem_append_left hj]

/-- The elements behind the first ones. -/
theorem Holds.right {q' : List α} (h : Holds c data rd wr (q ++ q')) :
    Holds c data (rd + BitVec.ofNat w q.length) wr q' := by
  induction q generalizing rd with
  | nil =>
    rw [List.length_nil, BitVec.add_zero]
    exact h
  | cons x q ih =>
    have hnext := ih h.pop
    rw [BitVec.add_assoc] at hnext
    rw [List.length_cons, Nat.add_comm, BitVec.ofNat_add]
    exact hnext

/-- The last element is taken back. -/
theorem Holds.erase {x : α} (h : Holds c data rd wr (q ++ [x])) : Holds c data rd (wr - 1) q := by
  have hwr := h.wr_eq
  rw [List.length_append, List.length_singleton, BitVec.ofNat_add, ← BitVec.add_assoc] at hwr
  have hback : wr - 1 = rd + BitVec.ofNat w q.length := by
    rw [hwr]
    exact BitVec.add_sub_cancel _ _
  rw [hback]
  exact h.left

theorem Holds.empty_iff (h : Holds c data rd wr q) : rd = wr ↔ q = [] := by
  rw [← List.length_eq_zero_iff, h.length]
  constructor
  · rintro rfl
    simp
  · intro h0
    have hsub : wr - rd = 0#w := BitVec.eq_of_toNat_eq (by simpa using h0)
    rw [← BitVec.sub_add_cancel wr rd, hsub, BitVec.zero_add]

theorem Holds.full_iff (hf : Fits c w) (h : Holds c data rd wr q) :
    wr = rd + BitVec.ofNat w c ↔ q.length = c := by
  rw [h.length]
  constructor
  · rintro rfl
    rw [BitVec.add_comm, BitVec.add_sub_cancel, BitVec.toNat_ofNat, Nat.mod_eq_of_lt hf.lt]
  · intro hc
    rw [← hc, BitVec.ofNat_toNat, BitVec.setWidth_eq, BitVec.add_comm, BitVec.sub_add_cancel]

/-! ## The last elements of a history -/

/-- Slot `k % c` has the `k`-th element of the history, unless a later one was written there. -/
structure Last (c : ℕ) (data : ℕ → Option α) (h : List α) : Prop where
  get : ∀ k (hk : k < h.length), h.length ≤ k + c → data (k % c) = some h[k]
  unused : ∀ k, h.length ≤ k → k < c → data k = none

/-- Two positions of a history less than `c` apart have different slots. -/
theorem mod_ne_mod {c i j : ℕ} (hij : i < j) (hj : j < i + c) : i % c ≠ j % c := by
  intro heq
  have hmod : c ∣ j - i := (Nat.modEq_iff_dvd' hij.le).mp heq
  have := Nat.le_of_dvd (by omega) hmod
  omega

theorem last_nil (c : ℕ) : Last c (fun _ => (none : Option α)) [] :=
  ⟨fun k hk => absurd hk (Nat.not_lt_zero k), fun _ _ _ => rfl⟩

theorem Last.push {data : ℕ → Option α} {h : List α} (hl : Last c data h) (x : α) :
    Last c (update data (h.length % c) (some x)) (h ++ [x]) := by
  constructor
  · intro k hk hwin
    rw [List.length_append, List.length_singleton] at hk hwin
    by_cases hkh : k < h.length
    · rw [update_of_ne (mod_ne_mod hkh (by omega)), List.getElem_append_left hkh]
      exact hl.get k hkh (by omega)
    · have hk : k = h.length := by omega
      subst hk
      simp
  · intro k hk hkc
    rw [List.length_append, List.length_singleton] at hk
    have hne : k ≠ h.length % c := by
      rw [Nat.mod_eq_of_lt (by omega)]
      omega
    rw [update_of_ne hne]
    exact hl.unused k (by omega) hkc

/-- What the next write goes over. -/
theorem Last.oldest {data : ℕ → Option α} {h : List α} (hl : Last c data h) (hc : 0 < c) :
    h.take (h.length - c) ++ (data (h.length % c)).toList = h.take (h.length + 1 - c) := by
  by_cases hlt : h.length < c
  · rw [Nat.mod_eq_of_lt hlt, hl.unused _ le_rfl hlt, Nat.sub_eq_zero_of_le hlt.le,
      Nat.sub_eq_zero_of_le hlt]
    rfl
  · have hk : h.length - c < h.length := by omega
    have hslot : (h.length - c) % c = h.length % c := by
      rw [← Nat.mod_eq_sub_mod (by omega)]
    have hget := hl.get (h.length - c) hk (by omega)
    rw [hslot] at hget
    rw [hget, Nat.sub_add_comm (by omega), List.take_add_one, List.getElem?_eq_getElem hk]

/-- Reading a list by position up to `n`. -/
theorem filterMap_range_getElem? (l : List α) (n : ℕ) :
    (List.range n).filterMap (fun j => l[j]?) = l.take n := by
  induction n with
  | zero => simp
  | succ n ih =>
    rw [List.range_succ, List.filterMap_append, ih, List.take_add_one, List.filterMap_cons]
    cases l[n]? <;> rfl

end RiscvBm.Ring

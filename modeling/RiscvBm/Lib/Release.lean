import Mathlib.Data.List.Perm.Basic
import Mathlib.Data.List.Nodup
import RiscvBm.Lib.Radix

/-!
# Releasing a tree of frames

The frames under a table are those its valid entries point to, and the frames under these.
`releaseTree` walks them depth first: it releases what is under an entry, clears the entry
and releases the frame that it pointed to. `under` lists the frames in that order. If no frame
occurs twice, exactly these are released, each once (`releaseTree_spec`).

The other way to release is one entry at a time, from outside the walk: a cleared entry of a
bottom table takes its frame out of the list (`under_write`).
-/

namespace RiscvBm.Radix

variable {W : Type*}

/-- A store and the frames released so far. -/
structure Heap (W : Type*) where
  word : Store W
  freed : List ℕ

def Heap.set (s : Heap W) (t k : ℕ) (w : W) : Heap W := { s with word := write s.word t k w }

def Heap.free (s : Heap W) (p : ℕ) : Heap W := { s with freed := s.freed ++ [p] }

section Release

variable (next : W → Option ℕ) (z : W) (idx : ℕ → List ℕ)

/-- The frames under `t`, a table of height `n`; `idx` are the entries of a table that belong
to the tree, by its height. -/
def under (word : Store W) : ℕ → ℕ → List ℕ
  | 0, _ => []
  | n + 1, t => (idx n).flatMap fun i =>
    ((next (word t i)).map fun p => under word n p ++ [p]).getD []

/-- The frames under the entries `is` of `t`. -/
def rows (word : Store W) (n t : ℕ) (is : List ℕ) : List ℕ :=
  is.flatMap fun i => ((next (word t i)).map fun p => under next idx word n p ++ [p]).getD []

/-- One entry of the walk. -/
def releaseEntry (child : Heap W → ℕ → Heap W) (t : ℕ) (s : Heap W) (i : ℕ) : Heap W :=
  match next (s.word t i) with
  | none => s
  | some p => ((child s p).set t i z).free p

def releaseTree : ℕ → Heap W → ℕ → Heap W
  | 0, s, _ => s
  | n + 1, s, t => (idx n).foldl (releaseEntry next z (releaseTree n) t) s

end Release

variable {next : W → Option ℕ} {z : W} {idx : ℕ → List ℕ} {word word' : Store W} {n t i p u k x : ℕ}
  {is σ : List ℕ}

theorem rows_cons_none (h : next (word t i) = none) :
    rows next idx word n t (i :: is) = rows next idx word n t is := by
  rw [rows, List.flatMap_cons, h]
  rfl

theorem rows_cons_some (h : next (word t i) = some p) :
    rows next idx word n t (i :: is) =
      under next idx word n p ++ [p] ++ rows next idx word n t is := by
  rw [rows, List.flatMap_cons, h]
  rfl

/-- The order of the entries. -/
theorem perm_rows (hi : i ∈ is) :
    (rows next idx word n t is).Perm (rows next idx word n t (i :: is.erase i)) :=
  (List.perm_cons_erase hi).flatMap_right _

theorem mem_rows (hi : i ∈ is) (h : next (word t i) = some p) {q : ℕ}
    (hq : q ∈ p :: under next idx word n p) : q ∈ rows next idx word n t is := by
  apply List.mem_flatMap.mpr
  refine ⟨i, hi, ?_⟩
  rw [h]
  rcases List.mem_cons.mp hq with rfl | hq
  · exact List.mem_append_right _ (List.mem_singleton.mpr rfl)
  · exact List.mem_append_left _ hq

theorem rows_eq_nil (h : ∀ i ∈ is, next (word t i) = none) : rows next idx word n t is = [] := by
  apply List.flatMap_eq_nil_iff.mpr
  intro i hi
  rw [h i hi]
  rfl

/-- A table with one entry. -/
theorem under_single (hidx : (idx n).Nodup) (hk : k ∈ idx n) (hp : next (word t k) = some p)
    (hno : ∀ i, i ≠ k → next (word t i) = none) :
    (under next idx word (n + 1) t).Perm (p :: under next idx word n p) := by
  refine (perm_rows hk).trans ?_
  rw [rows_cons_some hp, rows_eq_nil fun i hi => hno i (hidx.mem_erase_iff.mp hi).1,
    List.append_nil]
  exact List.perm_append_singleton p _

/-- `σ` goes from a table of height `n` through entries of the tree, as far as it goes. -/
def Path (idx : ℕ → List ℕ) : ℕ → List ℕ → Prop
  | _, [] => True
  | 0, _ :: _ => False
  | n + 1, i :: σ => i ∈ idx n ∧ Path idx n σ

/-- The list holds the frames that the paths lead to. -/
theorem mem_under :
    u ∈ t :: under next idx word n t ↔ ∃ σ, Path idx n σ ∧ descend next word t σ = some u := by
  constructor
  · intro hu
    induction n generalizing t with
    | zero =>
      rw [under, List.mem_singleton] at hu
      exact ⟨[], trivial, congrArg some hu.symm⟩
    | succ n ih =>
      rcases List.mem_cons.mp hu with rfl | hu
      · exact ⟨[], trivial, rfl⟩
      obtain ⟨i, hi, hrow⟩ := List.mem_flatMap.mp hu
      cases hp : next (word t i) with
      | none =>
        rw [hp] at hrow
        exact absurd hrow List.not_mem_nil
      | some p =>
        rw [hp] at hrow
        obtain ⟨σ, hσ, hd⟩ := ih ((List.perm_append_singleton p _).mem_iff.mp hrow)
        refine ⟨i :: σ, ⟨hi, hσ⟩, ?_⟩
        rw [descend, hp]
        exact hd
  · rintro ⟨σ, hσ, hd⟩
    induction σ generalizing n t with
    | nil =>
      cases hd
      exact List.mem_cons_self
    | cons i σ ih =>
      cases n with
      | zero => exact hσ.elim
      | succ n =>
        rw [descend, Option.bind_eq_some_iff] at hd
        obtain ⟨p, hp, hd⟩ := hd
        exact List.mem_cons_of_mem t (mem_rows hσ.1 hp (ih hσ.2 hd))

theorem rows_congr (hsub : ∀ p, (∀ q ∈ p :: under next idx word n p, word' q = word q) →
      under next idx word' n p = under next idx word n p)
    (ht : ∀ i ∈ is, word' t i = word t i) (h : ∀ q ∈ rows next idx word n t is, word' q = word q) :
    rows next idx word' n t is = rows next idx word n t is := by
  apply List.flatMap_congr
  intro i hi
  rw [ht i hi]
  cases hp : next (word t i) with
  | none => rfl
  | some p => rw [Option.map_some, Option.map_some, hsub p fun q hq => h q (mem_rows hi hp hq)]

/-- What is under a table depends on the table and the frames under it only. -/
theorem under_congr (h : ∀ q ∈ t :: under next idx word n t, word' q = word q) :
    under next idx word' n t = under next idx word n t := by
  induction n generalizing t with
  | zero => rfl
  | succ n ih =>
    apply rows_congr (fun p => ih)
    · intro i _
      rw [h t List.mem_cons_self]
    · exact fun q hq => h q (List.mem_cons_of_mem t hq)

/-- What a walk releases and what it leaves alone. -/
structure Releases (l : List ℕ) (t : ℕ) (s s' : Heap W) : Prop where
  freed : s'.freed = s.freed ++ l
  word : ∀ q ∉ t :: l, s'.word q = s.word q

/-- One entry after the other: the entries still to come are as they were, because no frame
occurs twice. -/
theorem releases_rows {s : Heap W}
    (hchild : ∀ s p, (p :: under next idx s.word n p).Nodup →
      Releases (under next idx s.word n p) p s (releaseTree next z idx n s p))
    (his : is.Nodup) (h : (t :: rows next idx s.word n t is).Nodup) :
    Releases (rows next idx s.word n t is) t s
      (is.foldl (releaseEntry next z (releaseTree next z idx n) t) s) := by
  induction is generalizing s with
  | nil => exact ⟨(List.append_nil _).symm, fun _ _ => rfl⟩
  | cons i is ih =>
    obtain ⟨hi, his⟩ := List.nodup_cons.mp his
    rw [List.foldl_cons]
    cases hp : next (s.word t i) with
    | none =>
      rw [rows_cons_none hp] at h ⊢
      have hskip : releaseEntry next z (releaseTree next z idx n) t s i = s := by
        rw [releaseEntry, hp]
      rw [hskip]
      exact ih his h
    | some p =>
      rw [rows_cons_some hp] at h ⊢
      obtain ⟨ht, hnd⟩ := List.nodup_cons.mp h
      obtain ⟨hsub, hrest, hdisj⟩ := List.nodup_append.mp hnd
      have hsub' : (p :: under next idx s.word n p).Nodup :=
        (List.perm_append_singleton p _).nodup_iff.mp hsub
      have hmem : ∀ q, q ∈ under next idx s.word n p ++ [p] ↔
          q ∈ p :: under next idx s.word n p :=
        fun q => (List.perm_append_singleton p _).mem_iff
      have hc := hchild s p hsub'
      have hstep : releaseEntry next z (releaseTree next z idx n) t s i =
          ((releaseTree next z idx n s p).set t i z).free p := by
        rw [releaseEntry, hp]
      rw [hstep]
      generalize hs₁ : ((releaseTree next z idx n s p).set t i z).free p = s₁
      have hword : ∀ q, q ≠ t → q ∉ under next idx s.word n p ++ [p] →
          s₁.word q = s.word q := by
        intro q hqt hq
        rw [← hc.word q (fun hm => hq ((hmem q).mpr hm)), ← hs₁]
        funext j
        exact write_of_ne _ _ fun heq => hqt heq.1
      have htp : t ∉ under next idx s.word n p ++ [p] :=
        fun hm => ht (List.mem_append_left _ hm)
      have hrow : ∀ j ∈ is, s₁.word t j = s.word t j := by
        intro j hj
        have hji : j ≠ i := fun heq => hi (heq ▸ hj)
        rw [← hs₁]
        show write _ t i z t j = _
        rw [write_of_ne _ _ fun heq => hji heq.2,
          hc.word t fun hm => htp ((hmem t).mpr hm)]
      have hrows : rows next idx s₁.word n t is = rows next idx s.word n t is := by
        apply rows_congr (fun _ => under_congr) hrow
        intro q hq
        apply hword q
        · rintro rfl
          exact ht (List.mem_append_right _ hq)
        · intro hm
          exact hdisj q hm q hq rfl
      have hnd₁ : (t :: rows next idx s₁.word n t is).Nodup := by
        rw [hrows]
        exact List.nodup_cons.mpr ⟨fun hm => ht (List.mem_append_right _ hm), hrest⟩
      obtain ⟨hfreed, hleft⟩ := ih his hnd₁
      rw [hrows] at hfreed hleft
      constructor
      · have hfreed₁ : s₁.freed = s.freed ++ under next idx s.word n p ++ [p] := by
          rw [← hs₁]
          show (releaseTree next z idx n s p).freed ++ [p] = _
          rw [hc.freed]
        rw [hfreed, hfreed₁]
        simp
      · grind

/-- A walk releases the frames under its table, in order, and changes no frame outside. -/
theorem releaseTree_spec (hidx : ∀ n, (idx n).Nodup) (n : ℕ) (s : Heap W) (t : ℕ)
    (h : (t :: under next idx s.word n t).Nodup) :
    Releases (under next idx s.word n t) t s (releaseTree next z idx n s t) := by
  induction n generalizing s t with
  | zero => exact ⟨(List.append_nil _).symm, fun _ _ => rfl⟩
  | succ n ih => exact releases_rows ih (hidx n) h

/-! ## One entry of a bottom table -/

/-- `σ` leads from a table of height `n + 1` through entries of the tree to a bottom table. -/
def Onto (idx : ℕ → List ℕ) : ℕ → List ℕ → Prop
  | 0, [] => True
  | n + 1, i :: σ => i ∈ idx (n + 1) ∧ Onto idx n σ
  | _, _ => False

theorem path_of_onto (hσ : Onto idx n σ) : Path idx (n + 1) σ := by
  induction n generalizing σ with
  | zero =>
    cases σ with
    | nil => trivial
    | cons i σ => exact hσ.elim
  | succ n ih =>
    cases σ with
    | nil => exact hσ.elim
    | cons i σ => exact ⟨hσ.1, ih hσ.2⟩

theorem mem_of_descend (hσ : Onto idx n σ) (hu : descend next word t σ = some u) :
    u ∈ t :: under next idx word (n + 1) t :=
  mem_under.mpr ⟨σ, path_of_onto hσ, hu⟩

/-- Clearing an entry of a bottom table takes its frame out of the list, and nothing else. -/
theorem under_write (hidx : ∀ n, (idx n).Nodup) (hz : next z = none) (hσ : Onto idx n σ)
    (hu : descend next word t σ = some u) (hk : k ∈ idx 0) (hx : next (word u k) = some x)
    (h : (t :: under next idx word (n + 1) t).Nodup) :
    (under next idx word (n + 1) t).Perm
      (x :: under next idx (write word u k z) (n + 1) t) := by
  have hother : ∀ q, q ≠ u → write word u k z q = word q := by
    intro q hq
    funext j
    exact write_of_ne _ _ fun heq => hq heq.1
  induction n generalizing σ t with
  | zero =>
    cases σ with
    | cons i σ => exact hσ.elim
    | nil =>
      cases hu
      -- the entry is in the table itself
      have hrows : rows next idx (write word u k z) 0 u ((idx 0).erase k) =
          rows next idx word 0 u ((idx 0).erase k) := by
        apply List.flatMap_congr
        intro j hj
        rw [write_of_ne _ _ fun heq => ((hidx 0).mem_erase_iff.mp hj).1 heq.2]
        rfl
      have hzk : next (write word u k z u k) = none := by rw [write_same, hz]
      have hnew := @perm_rows _ next idx (write word u k z) 0 u _ _ hk
      rw [rows_cons_none hzk, hrows] at hnew
      refine (perm_rows hk).trans ?_
      rw [rows_cons_some hx]
      exact hnew.symm.cons x
  | succ n ih =>
    cases σ with
    | nil => exact hσ.elim
    | cons i σ =>
      obtain ⟨hi, hσ⟩ := hσ
      rw [descend, Option.bind_eq_some_iff] at hu
      obtain ⟨p, hp, hu⟩ := hu
      have hup := mem_of_descend hσ hu
      obtain ⟨ht, hnd⟩ := List.nodup_cons.mp h
      have hut : u ≠ t := by
        rintro rfl
        exact ht (mem_rows hi hp hup)
      -- the entry is under `p`, so the rows of the other entries stay
      have hold := @perm_rows _ next idx word (n + 1) t _ _ hi
      rw [rows_cons_some hp] at hold
      obtain ⟨hsub, -, hdisj⟩ := List.nodup_append.mp (hold.nodup_iff.mp hnd)
      have huin := (List.perm_append_singleton p _).mem_iff.mpr hup
      have hrows : rows next idx (write word u k z) (n + 1) t ((idx (n + 1)).erase i) =
          rows next idx word (n + 1) t ((idx (n + 1)).erase i) := by
        apply rows_congr fun _ => under_congr
        · intro j _
          rw [hother t hut.symm]
        · rintro q hq
          apply hother
          rintro rfl
          exact hdisj q huin q hq rfl
      have hp' : next (write word u k z t i) = some p := by rw [hother t hut.symm, hp]
      have hnew := @perm_rows _ next idx (write word u k z) (n + 1) t _ _ hi
      rw [rows_cons_some hp', hrows] at hnew
      have hblock := ih hσ hu ((List.perm_append_singleton p _).nodup_iff.mp hsub)
      refine hold.trans (((hblock.append_right [p]).append_right _).trans ?_)
      exact hnew.symm.cons x

end RiscvBm.Radix

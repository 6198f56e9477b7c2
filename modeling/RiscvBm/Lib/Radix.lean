import Mathlib.Data.List.Induction
import Mathlib.Logic.Function.Basic

/-!
# Radix trees in a store of frames

A frame is an array of words, and a word may point to another frame (`next`). A path
`σ` of indices leads from a root to the frame `descend next word r σ`. Several trees
share one store; `place` says for each frame which tree it belongs to and where it
stands in it, and `Linked` says that the pointers agree with that: down from a table to the
tables below it, and up to the one entry that points to a table. Since `place` is a function,
no frame is in two trees or twice in one.

`own σ i` marks the entries that belong to the tree. The others may point to frames that
are shared with other trees.

A store changes in three ways: a word at the bottom (`Linked.write`), a frame outside all
trees (`Linked.fill`) and a new table (`Linked.link`, `Linked.addRoot`). `view` is what a tree
maps a path to.

For a single tree `place` need not be given: `Unique` says that no frame is reached in two
ways, and `Unique.linked` finds the places.
-/

namespace RiscvBm.Radix

open Function

variable {W : Type*}

/-- Frame, index, word. -/
abbrev Store (W : Type*) := ℕ → ℕ → W

def write (word : Store W) (t k : ℕ) (w : W) : Store W :=
  fun f i => if f = t ∧ i = k then w else word f i

def fill (word : Store W) (p : ℕ) (page : ℕ → W) : Store W :=
  fun f => if f = p then page else word f

theorem write_same (word : Store W) (t k : ℕ) (w : W) : write word t k w t k = w :=
  if_pos ⟨rfl, rfl⟩

theorem write_of_ne (word : Store W) {t k f i : ℕ} (w : W) (h : ¬ (f = t ∧ i = k)) :
    write word t k w f i = word f i :=
  if_neg h

theorem fill_same (word : Store W) (p : ℕ) (page : ℕ → W) : fill word p page p = page :=
  if_pos rfl

theorem fill_of_ne (word : Store W) {p f : ℕ} (page : ℕ → W) (h : f ≠ p) :
    fill word p page f = word f :=
  if_neg h

/-! ## Paths -/

section Paths

variable (next : W → Option ℕ)

def descend (word : Store W) : ℕ → List ℕ → Option ℕ
  | f, [] => some f
  | f, i :: σ => (next (word f i)).bind fun d => descend word d σ

variable {next} {word word' : Store W} {f : ℕ} {σ τ : List ℕ}

theorem descend_append :
    descend next word f (σ ++ τ) =
      (descend next word f σ).bind fun d => descend next word d τ := by
  induction σ generalizing f with
  | nil => rfl
  | cons i σ ih =>
    rw [List.cons_append, descend, descend, Option.bind_assoc]
    congr 1
    funext d
    exact ih

theorem descend_snoc {i : ℕ} :
    descend next word f (σ ++ [i]) =
      (descend next word f σ).bind fun d => next (word d i) := by
  rw [descend_append]
  congr 1
  funext d
  rw [descend]
  cases next (word d i) <;> rfl

/-- The words read on the way along a path. -/
def trail (next : W → Option ℕ) (word : Store W) : ℕ → List ℕ → List W
  | _, [] => []
  | f, i :: σ =>
    word f i ::
      match next (word f i) with
      | none => []
      | some d => trail next word d σ

/-- Two stores that agree on the entries along a path lead to the same frame, by the same words. -/
theorem path_congr
    (h : ∀ σ₁ i σ₂ d, σ = σ₁ ++ i :: σ₂ → descend next word f σ₁ = some d →
      word' d i = word d i) :
    descend next word' f σ = descend next word f σ ∧
    trail next word' f σ = trail next word f σ := by
  induction σ generalizing f with
  | nil => exact ⟨rfl, rfl⟩
  | cons i σ ih =>
    rw [descend, descend, trail, trail, h [] i σ f rfl rfl]
    cases hd : next (word f i) with
    | none => exact ⟨rfl, rfl⟩
    | some d =>
      obtain ⟨hframe, htrail⟩ := @ih d fun σ₁ j σ₂ d' hσ hd' => by
        apply h (i :: σ₁) j σ₂ d'
        · rw [hσ, List.cons_append]
        · rw [descend, hd]
          exact hd'
      exact ⟨hframe, congrArg _ htrail⟩

/-- A word is read where the path has led to. -/
theorem mem_trail {w : W} :
    w ∈ trail next word f σ ↔
      ∃ σ₁ i σ₂ d, σ = σ₁ ++ i :: σ₂ ∧ descend next word f σ₁ = some d ∧ word d i = w := by
  induction σ generalizing f with
  | nil =>
    constructor
    · intro hw
      exact (List.not_mem_nil hw).elim
    · rintro ⟨σ₁, i, σ₂, d, hσ, -⟩
      cases σ₁ <;> cases hσ
  | cons j σ ih =>
    rw [trail, List.mem_cons]
    constructor
    · rintro (rfl | hw)
      · exact ⟨[], j, σ, f, rfl, rfl, rfl⟩
      · cases hd : next (word f j) with
        | none =>
          rw [hd] at hw
          exact (List.not_mem_nil hw).elim
        | some d =>
          rw [hd] at hw
          obtain ⟨σ₁, i, σ₂, d', rfl, hd', heq⟩ := ih.mp hw
          refine ⟨j :: σ₁, i, σ₂, d', rfl, ?_, heq⟩
          rw [descend, hd]
          exact hd'
    · rintro ⟨σ₁, i, σ₂, d, hσ, hd, heq⟩
      cases σ₁ with
      | nil =>
        cases hσ
        cases hd
        exact Or.inl heq.symm
      | cons j' σ₁ =>
        cases hσ
        rw [descend] at hd
        obtain ⟨d', hd', hrest⟩ := Option.bind_eq_some_iff.mp hd
        right
        rw [hd']
        exact ih.mpr ⟨σ₁, i, σ₂, d, rfl, hrest, heq⟩

/-- What the tree at `r` has under the path `σ` and the index `k`; `z` if there is no table. -/
def view (next : W → Option ℕ) (z : W) (word : Store W) (r : ℕ) (σ : List ℕ) (k : ℕ) : W :=
  match descend next word r σ with
  | none => z
  | some t => word t k

variable {z : W} {r k t : ℕ}

theorem view_of_none (h : descend next word r σ = none) : view next z word r σ k = z := by
  rw [view, h]

theorem view_of_some (h : descend next word r σ = some t) :
    view next z word r σ k = word t k := by
  rw [view, h]

theorem view_congr (hd : descend next word' r σ = descend next word r σ)
    (hw : ∀ t, descend next word r σ = some t → word' t k = word t k) :
    view next z word' r σ k = view next z word r σ k := by
  unfold view
  rw [hd]
  cases ht : descend next word r σ with
  | none => rfl
  | some t => exact hw t ht

end Paths

/-! ## Trees -/

structure Linked (next : W → Option ℕ) (own : List ℕ → ℕ → Prop) (depth : ℕ) (word : Store W)
    (place : ℕ → Option (ℕ × List ℕ)) : Prop where
  root : ∀ {f r}, place f = some (r, []) → f = r
  down : ∀ {f r σ i d}, place f = some (r, σ) → σ.length < depth → own σ i →
    next (word f i) = some d → place d = some (r, σ ++ [i])
  up : ∀ {f r σ i}, place f = some (r, σ ++ [i]) →
    σ.length < depth ∧ own σ i ∧ ∃ d, place d = some (r, σ) ∧ next (word d i) = some f

/-- All entries along the path belong to the tree. -/
def OwnPath (own : List ℕ → ℕ → Prop) (σ : List ℕ) : Prop :=
  ∀ σ₁ i σ₂, σ = σ₁ ++ i :: σ₂ → own σ₁ i

theorem OwnPath.left {own : List ℕ → ℕ → Prop} {σ τ : List ℕ} (h : OwnPath own (σ ++ τ)) :
    OwnPath own σ := by
  intro σ₁ i σ₂ hσ
  apply h σ₁ i (σ₂ ++ τ)
  rw [hσ, List.append_assoc, List.cons_append]

namespace Linked

variable {next : W → Option ℕ} {own : List ℕ → ℕ → Prop} {depth : ℕ} {word : Store W}
variable {place : ℕ → Option (ℕ × List ℕ)} {f r r' t p k k' i : ℕ} {σ σ' τ : List ℕ} {w z : W}

section

variable (h : Linked next own depth word place)

include h

theorem length_le (hf : place f = some (r, σ)) :
    σ.length ≤ depth := by
  rcases List.eq_nil_or_concat σ with rfl | ⟨τ, i, rfl⟩
  · exact Nat.zero_le _
  · rw [List.concat_eq_append] at hf ⊢
    rw [List.length_append]
    exact (h.up hf).1

/-- A frame stands where its path leads. -/
theorem descend_of_place
    (hf : place f = some (r, σ)) :
    place r = some (r, []) ∧ descend next word r σ = some f := by
  induction σ using List.reverseRecOn generalizing f with
  | nil =>
    cases h.root hf
    exact ⟨hf, rfl⟩
  | append_singleton σ i ih =>
    obtain ⟨-, -, d, hd, hnext⟩ := h.up hf
    obtain ⟨hr, hdesc⟩ := ih hd
    refine ⟨hr, ?_⟩
    rw [descend_snoc, hdesc]
    exact hnext

theorem ownPath_of_place
    (hf : place f = some (r, σ)) : OwnPath own σ := by
  induction σ using List.reverseRecOn generalizing f with
  | nil =>
    intro σ₁ j σ₂ hσ
    cases σ₁ <;> cases hσ
  | append_singleton σ i ih =>
    obtain ⟨-, hown, d, hd, -⟩ := h.up hf
    intro σ₁ j σ₂ hσ
    rcases List.eq_nil_or_concat σ₂ with rfl | ⟨τ, l, rfl⟩
    · obtain ⟨rfl, hi⟩ := List.append_inj' hσ rfl
      cases hi
      exact hown
    · apply ih hd σ₁ j τ
      rw [List.concat_eq_append, ← List.cons_append, ← List.append_assoc] at hσ
      exact (List.append_inj' hσ rfl).1

/-- A path of the tree leads to a frame of the tree. -/
theorem place_of_descend
    (hr : place r = some (r, [])) (hown : OwnPath own σ) (hlen : σ.length ≤ depth)
    (hd : descend next word r σ = some f) : place f = some (r, σ) := by
  induction σ using List.reverseRecOn generalizing f with
  | nil =>
    cases hd
    exact hr
  | append_singleton σ i ih =>
    rw [descend_snoc, Option.bind_eq_some_iff] at hd
    obtain ⟨d, hd, hnext⟩ := hd
    rw [List.length_append] at hlen
    have hplace : place d = some (r, σ) :=
      ih hown.left (Nat.le_of_succ_le hlen) hd
    exact h.down hplace hlen (hown σ i [] rfl) hnext

theorem place_along
    (hr : place r = some (r, [])) (hown : OwnPath own σ) (hlen : σ.length ≤ depth)
    {σ₁ σ₂ : List ℕ} (hσ : σ = σ₁ ++ i :: σ₂) (hd : descend next word r σ₁ = some f) :
    place f = some (r, σ₁) ∧ σ₁.length < depth := by
  rw [hσ, List.length_append, List.length_cons] at hlen
  rw [hσ] at hown
  exact ⟨h.place_of_descend hr hown.left (by omega) hd, by omega⟩

end

theorem ne_of_place (hf : place f = some (r, σ)) (hp : place p = none) : f ≠ p := by
  rintro rfl
  rw [hp] at hf
  cases hf

/-! ### A word that is no pointer of a tree -/

/-- Only the pointers of the trees count. -/
theorem congr {word' : Store W} (h : Linked next own depth word place)
    (hsame : ∀ {f r σ i}, place f = some (r, σ) → σ.length < depth → own σ i →
      word' f i = word f i) : Linked next own depth word' place where
  root := h.root
  down hf hlen hown hnext := h.down hf hlen hown (by rwa [← hsame hf hlen hown])
  up hf := by
    obtain ⟨hlen, hown, d, hd, hnext⟩ := h.up hf
    exact ⟨hlen, hown, d, hd, by rwa [hsame hd hlen hown]⟩

theorem write (h : Linked next own depth word place)
    (ht : ∀ r σ, place t = some (r, σ) → σ.length < depth → ¬ own σ k) :
    Linked next own depth (write word t k w) place := by
  refine h.congr fun hf hlen hown => write_of_ne _ _ ?_
  rintro ⟨rfl, rfl⟩
  exact ht _ _ hf hlen hown

/-- Only the bottom table changes, and there one word. -/
theorem view_write (h : Linked next own depth word place) (ht : place t = some (r, σ))
    (hlen : σ.length = depth) (hr : place r' = some (r', [])) (hown : OwnPath own σ')
    (hlen' : σ'.length = depth) :
    view next z (Radix.write word t k w) r' σ' k' =
      if r' = r ∧ σ' = σ ∧ k' = k then w else view next z word r' σ' k' := by
  have hdesc : descend next (Radix.write word t k w) r' σ' = descend next word r' σ' := by
    refine (path_congr ?_).1
    intro σ₁ i σ₂ d hσ hd
    obtain ⟨hplace, hlt⟩ := h.place_along hr hown (Nat.le_of_eq hlen') hσ hd
    apply write_of_ne
    rintro ⟨rfl, -⟩
    rw [ht] at hplace
    cases hplace
    omega
  split
  · rename_i heq
    obtain ⟨rfl, rfl, rfl⟩ := heq
    have hd := (h.descend_of_place ht).2
    rw [view_of_some (hdesc.trans hd), write_same]
  · rename_i hne
    apply view_congr hdesc
    intro t' ht'
    apply write_of_ne
    rintro ⟨rfl, rfl⟩
    have hplace := h.place_of_descend hr hown (Nat.le_of_eq hlen') ht'
    rw [ht] at hplace
    cases hplace
    exact hne ⟨rfl, rfl, rfl⟩

/-! ### A frame outside all trees -/

theorem fill (h : Linked next own depth word place) (hp : place p = none) (page : ℕ → W) :
    Linked next own depth (fill word p page) place :=
  h.congr fun hf _ _ => congrFun (fill_of_ne _ _ (ne_of_place hf hp)) _

theorem descend_fill (h : Linked next own depth word place) (hp : place p = none) (page : ℕ → W)
    (hr : place r = some (r, [])) (hown : OwnPath own σ) (hlen : σ.length ≤ depth) :
    descend next (Radix.fill word p page) r σ = descend next word r σ := by
  refine (path_congr ?_).1
  intro σ₁ i σ₂ d hσ hd
  rw [fill_of_ne _ _ (ne_of_place (h.place_along hr hown hlen hσ hd).1 hp)]

theorem view_fill (h : Linked next own depth word place) (hp : place p = none) (page : ℕ → W)
    (hr : place r = some (r, [])) (hown : OwnPath own σ) (hlen : σ.length ≤ depth) :
    view next z (Radix.fill word p page) r σ k = view next z word r σ k := by
  apply view_congr (h.descend_fill hp page hr hown hlen)
  intro t ht
  rw [fill_of_ne _ _ (ne_of_place (h.place_of_descend hr hown hlen ht) hp)]

/-! ### A new table -/

section

variable (h : Linked next own depth word place)

include h

/-- The empty entry `i` of `f` gets a pointer to the empty frame `p`. -/
theorem link (hf : place f = some (r, σ))
    (hlen : σ.length < depth) (hown : own σ i) (hempty : next (word f i) = none)
    (hp : place p = none) (hpage : ∀ j, next (word p j) = none) (hw : next w = some p) :
    Linked next own depth (Radix.write word f i w) (update place p (some (r, σ ++ [i]))) where
  root := by
    intro g q hg
    by_cases hgp : g = p
    · rw [hgp, update_self] at hg
      cases σ <;> cases hg
    · rw [update_of_ne hgp] at hg
      exact h.root hg
  down := by
    intro g q τ j d hg hτ hj hnext
    by_cases hgp : g = p
    · -- the new table is empty
      rw [write_of_ne] at hnext
      · rw [hgp, hpage] at hnext
        cases hnext
      · rintro ⟨rfl, -⟩
        exact ne_of_place hf hp hgp
    rw [update_of_ne hgp] at hg
    by_cases hslot : g = f ∧ j = i
    · obtain ⟨rfl, rfl⟩ := hslot
      rw [write_same, hw] at hnext
      rw [hf] at hg
      cases hnext
      cases hg
      rw [update_self]
    · rw [write_of_ne _ _ hslot] at hnext
      have hd := h.down hg hτ hj hnext
      rwa [update_of_ne (ne_of_place hd hp)]
  up := by
    intro g q τ j hg
    by_cases hgp : g = p
    · rw [hgp, update_self, Option.some.injEq, Prod.mk.injEq] at hg
      obtain ⟨rfl, hσ⟩ := hg
      obtain ⟨rfl, hi⟩ := List.append_inj' hσ rfl
      cases hi
      refine ⟨hlen, hown, f, ?_, ?_⟩
      · rwa [update_of_ne (ne_of_place hf hp)]
      · rw [write_same, hw, hgp]
    · rw [update_of_ne hgp] at hg
      obtain ⟨hτ, hj, d, hd, hnext⟩ := h.up hg
      refine ⟨hτ, hj, d, ?_, ?_⟩
      · rwa [update_of_ne (ne_of_place hd hp)]
      · rw [write_of_ne]
        · exact hnext
        · rintro ⟨rfl, rfl⟩
          rw [hempty] at hnext
          cases hnext

/-- A path that does not run through the new entry leads where it led. -/
theorem descend_link_of_ne (hf : place f = some (r, σ))
    (hr : place r' = some (r', [])) (hown : OwnPath own σ') (hlen : σ'.length ≤ depth)
    (hne : ¬ (r' = r ∧ (σ ++ [i]) <+: σ')) :
    descend next (Radix.write word f i w) r' σ' = descend next word r' σ' := by
  refine (path_congr ?_).1
  intro σ₁ j σ₂ d hσ hd
  apply write_of_ne
  rintro ⟨rfl, rfl⟩
  have hplace := (h.place_along hr hown hlen hσ hd).1
  rw [hf] at hplace
  cases hplace
  exact hne ⟨rfl, σ₂, by rw [hσ, List.append_assoc, List.singleton_append]⟩

/-- The frames above a table are not that table. -/
theorem descend_write_above
    (hf : place f = some (r, σ)) :
    descend next (Radix.write word f i w) r σ = some f := by
  obtain ⟨hroot, hdesc⟩ := h.descend_of_place hf
  rw [← hdesc]
  refine (path_congr ?_).1
  intro σ₁ j σ₂ d hσ hd
  apply write_of_ne
  rintro ⟨rfl, rfl⟩
  have hplace := (h.place_along hroot (h.ownPath_of_place hf) (h.length_le hf) hσ hd).1
  rw [hf, Option.some.injEq, Prod.mk.injEq] at hplace
  have hcount := congrArg List.length (hσ.symm.trans hplace.2)
  rw [List.length_append, List.length_cons] at hcount
  omega

theorem descend_link (hf : place f = some (r, σ))
    (hw : next w = some p) :
    descend next (Radix.write word f i w) r (σ ++ [i]) = some p := by
  rw [descend_snoc, h.descend_write_above hf, Option.bind_some, write_same, hw]

/-- An empty table maps nothing. -/
theorem view_link (hf : place f = some (r, σ))
    (hempty : next (word f i) = none) (hp : place p = none) (hpage : ∀ j, word p j = z)
    (hz : next z = none) (hw : next w = some p) (hr : place r' = some (r', []))
    (hown : OwnPath own σ') (hlen : σ'.length ≤ depth) (hbottom : σ ≠ σ') :
    view next z (Radix.write word f i w) r' σ' k = view next z word r' σ' k := by
  by_cases hthrough : r' = r ∧ (σ ++ [i]) <+: σ'
  · obtain ⟨rfl, τ, rfl⟩ := hthrough
    have hbefore : descend next word r' (σ ++ [i] ++ τ) = none := by
      rw [descend_append, descend_snoc, (h.descend_of_place hf).2, Option.bind_some, hempty]
      rfl
    have hafter : descend next (Radix.write word f i w) r' (σ ++ [i] ++ τ) =
        descend next (Radix.write word f i w) p τ := by
      rw [descend_append, h.descend_link hf hw, Option.bind_some]
    have hzero : ∀ j, Radix.write word f i w p j = z := by
      intro j
      rw [write_of_ne _ _ (fun hslot => ne_of_place hf hp hslot.1.symm)]
      exact hpage j
    rw [view_of_none hbefore]
    cases τ with
    | nil => rw [view_of_some hafter, hzero]
    | cons j τ =>
      apply view_of_none
      rw [hafter, descend, hzero, hz]
      rfl
  · apply view_congr (h.descend_link_of_ne hf hr hown hlen hthrough)
    intro t ht
    apply write_of_ne
    rintro ⟨rfl, -⟩
    have hplace := h.place_of_descend hr hown hlen ht
    rw [hf] at hplace
    cases hplace
    exact hbottom rfl

theorem addRoot (hp : place p = none)
    (hpage : ∀ i, own [] i → next (word p i) = none) :
    Linked next own depth word (update place p (some (p, []))) where
  root := by
    intro f r hf
    by_cases hfp : f = p
    · rw [hfp, update_self] at hf
      cases hf
      exact hfp
    · rw [update_of_ne hfp] at hf
      exact h.root hf
  down := by
    intro f r σ i d hf hlen hown hnext
    by_cases hfp : f = p
    · rw [hfp, update_self] at hf
      cases hf
      rw [hfp, hpage i hown] at hnext
      cases hnext
    · rw [update_of_ne hfp] at hf
      have hd := h.down hf hlen hown hnext
      rwa [update_of_ne (ne_of_place hd hp)]
  up := by
    intro f r σ i hf
    by_cases hfp : f = p
    · rw [hfp, update_self, Option.some.injEq, Prod.mk.injEq] at hf
      cases σ <;> cases hf.2
    · rw [update_of_ne hfp] at hf
      obtain ⟨hlen, hown, d, hd, hnext⟩ := h.up hf
      exact ⟨hlen, hown, d, by rwa [update_of_ne (ne_of_place hd hp)], hnext⟩

end

end Linked

/-! ## Trees given by their paths -/

section Unique

variable {next : W → Option ℕ} {width depth : ℕ} {word : Store W} {r q f : ℕ} {σ : List ℕ}

/-- At most `depth` indices, all below `width`. -/
def IsPath (width depth : ℕ) (σ : List ℕ) : Prop := σ.length ≤ depth ∧ ∀ i ∈ σ, i < width

/-- No frame is reached from `r` in two ways. -/
def Unique (next : W → Option ℕ) (width depth : ℕ) (word : Store W) (r : ℕ) : Prop :=
  ∀ σ τ f, IsPath width depth σ → IsPath width depth τ →
    descend next word r σ = some f → descend next word r τ = some f → σ = τ

theorem IsPath.ownPath (h : IsPath width depth σ) : OwnPath (fun _ i => i < width) σ := by
  intro σ₁ i σ₂ hσ
  apply h.2
  rw [hσ]
  exact List.mem_append_right _ List.mem_cons_self

theorem isPath_nil : IsPath width depth [] := ⟨Nat.zero_le _, fun _ h => (List.not_mem_nil h).elim⟩

theorem isPath_snoc {i : ℕ} :
    IsPath width depth (σ ++ [i]) ↔ σ.length < depth ∧ IsPath width depth σ ∧ i < width := by
  simp only [IsPath, List.length_append, List.length_singleton, List.mem_append,
    List.mem_singleton]
  constructor
  · rintro ⟨hlen, hall⟩
    exact ⟨hlen, ⟨Nat.le_of_succ_le hlen, fun j hj => hall j (Or.inl hj)⟩, hall i (Or.inr rfl)⟩
  · rintro ⟨hlen, ⟨-, hall⟩, hi⟩
    refine ⟨hlen, ?_⟩
    rintro j (hj | rfl)
    · exact hall j hj
    · exact hi

open Classical in
/-- Where `f` stands in the tree at `r`. -/
noncomputable def placeOf (next : W → Option ℕ) (width depth : ℕ) (word : Store W) (r f : ℕ) :
    Option (ℕ × List ℕ) :=
  if h : ∃ σ, IsPath width depth σ ∧ descend next word r σ = some f then some (r, h.choose)
  else none

theorem Unique.placeOf_eq_some (h : Unique next width depth word r) :
    placeOf next width depth word r f = some (q, σ) ↔
      q = r ∧ IsPath width depth σ ∧ descend next word r σ = some f := by
  unfold placeOf
  constructor
  · intro hsome
    split at hsome
    · rename_i hex
      cases hsome
      exact ⟨rfl, hex.choose_spec⟩
    · cases hsome
  · rintro ⟨rfl, hσ, hd⟩
    have hex : ∃ σ, IsPath width depth σ ∧ descend next word q σ = some f := ⟨σ, hσ, hd⟩
    rw [dif_pos hex, h _ _ f hex.choose_spec.1 hσ hex.choose_spec.2 hd]

theorem Unique.linked (h : Unique next width depth word r) :
    Linked next (fun _ i => i < width) depth word (placeOf next width depth word r) where
  root := by
    intro f q hf
    obtain ⟨rfl, -, hd⟩ := h.placeOf_eq_some.mp hf
    exact (Option.some.inj hd).symm
  down := by
    intro f q σ i d hf hlen hi hnext
    obtain ⟨rfl, hσ, hd⟩ := h.placeOf_eq_some.mp hf
    apply h.placeOf_eq_some.mpr
    refine ⟨rfl, isPath_snoc.mpr ⟨hlen, hσ, hi⟩, ?_⟩
    rw [descend_snoc, hd]
    exact hnext
  up := by
    intro f q σ i hf
    obtain ⟨rfl, hσ, hd⟩ := h.placeOf_eq_some.mp hf
    obtain ⟨hlen, hσ, hi⟩ := isPath_snoc.mp hσ
    rw [descend_snoc, Option.bind_eq_some_iff] at hd
    obtain ⟨d, hd, hnext⟩ := hd
    exact ⟨hlen, hi, d, h.placeOf_eq_some.mpr ⟨rfl, hσ, hd⟩, hnext⟩

theorem Linked.unique {place : ℕ → Option (ℕ × List ℕ)}
    (h : Linked next (fun _ i => i < width) depth word place) (hr : place r = some (r, [])) :
    Unique next width depth word r := by
  intro σ τ f hσ hτ hd hd'
  have hplace := h.place_of_descend hr hσ.ownPath hσ.1 hd
  rw [h.place_of_descend hr hτ.ownPath hτ.1 hd'] at hplace
  cases hplace
  rfl

end Unique

end RiscvBm.Radix

import Mathlib.Algebra.Order.Ring.Nat

/-!
# Weakest preconditions for programs with state and panics

A kernel function is a program over a state `σ` that either returns a value or
stops with an error: `Prog σ ε α`. `wp c Q E s` says what a run of `c` from `s`
ends in: `Q` of the value and the new state, or `E` of the error. With
`E := fun _ => False` it is total correctness; with a set of errors it says
which panics can be reached.

A client proves one `wp` lemma for each function and chains them with `wp_bind`.
-/

namespace RiscvBm.Wp

abbrev Prog (σ ε : Type) := StateT σ (Except ε)

variable {σ ε α β : Type}

def wp (c : Prog σ ε α) (Q : α → σ → Prop) (E : ε → Prop) (s : σ) : Prop :=
  match c s with
  | .ok (a, s') => Q a s'
  | .error e => E e

/-- No error at all. -/
def noError : ε → Prop := fun _ => False

/-- `if (!b) panic(e)` -/
def require (b : Bool) (e : ε) : Prog σ ε Unit := if b then pure () else throw e

variable {c d : Prog σ ε α} {Q : α → σ → Prop} {R : β → σ → Prop} {E : ε → Prop} {s s' : σ} {a : α}
  {e : ε} {k : α → Prog σ ε β} {p : Prop} {body : ℕ → Prog σ ε Unit}

theorem wp_mono {R : α → σ → Prop} {F : ε → Prop}
    (h : wp c Q E s) (hQ : ∀ a s', Q a s' → R a s') (hE : ∀ e, E e → F e) :
    wp c R F s := by
  unfold wp at h ⊢
  cases hc : c s with
  | ok r =>
    rw [hc] at h
    exact hQ _ _ h
  | error e =>
    rw [hc] at h
    exact hE e h

theorem wp_post {R : α → σ → Prop}
    (h : wp c Q E s) (hQ : ∀ a s', Q a s' → R a s') : wp c R E s :=
  wp_mono h hQ fun _ he => he

theorem wp_error {F : ε → Prop} (h : wp c Q E s) (hE : ∀ e, E e → F e) : wp c Q F s :=
  wp_mono h (fun _ _ hQ => hQ) hE

theorem wp_pure (h : Q a s) :
    wp (pure a) Q E s := h

theorem wp_throw (h : E e) :
    wp (throw e) Q E s := h

/-- Sequencing: prove the first part with any postcondition that the second
part can start from. -/
theorem wp_bind (h : wp c Q E s)
    (hk : ∀ a s', Q a s' → wp (k a) R E s') : wp (c >>= k) R E s := by
  have hrun : (c >>= k) s = match c s with
      | .ok (a, s') => k a s'
      | .error e => .error e := by
    show (c s >>= fun p => k p.1 p.2) = _
    cases c s <;> rfl
  unfold wp at h ⊢
  rw [hrun]
  cases hc : c s with
  | ok r =>
    rw [hc] at h
    exact hk _ _ h
  | error e =>
    rw [hc] at h
    exact h

/-- A first part that ends in one way only. -/
theorem wp_bind_eq (h : wp c (fun b t => b = a ∧ t = s') E s) (hk : wp (k a) R E s') :
    wp (c >>= k) R E s := by
  refine wp_bind h ?_
  rintro _ _ ⟨rfl, rfl⟩
  exact hk

theorem wp_bind_state {c : Prog σ ε Unit} {k : Unit → Prog σ ε β}
    (h : wp c (fun _ t => t = s') E s) (hk : wp (k ()) R E s') : wp (c >>= k) R E s := by
  refine wp_bind h ?_
  rintro _ _ rfl
  exact hk

theorem wp_pure_bind (h : wp (k a) R E s) : wp (pure a >>= k) R E s := h

theorem wp_get {k : σ → Prog σ ε β}
    (h : wp (k s) R E s) : wp (get >>= k) R E s := h

theorem wp_modify {f : σ → σ} {R : Unit → σ → Prop}
    (h : R () (f s)) : wp (modify f) R E s := h

theorem wp_modify_bind {f : σ → σ} {k : Unit → Prog σ ε β} (h : wp (k ()) R E (f s)) : wp
    (modify f >>= k) R E s := h

theorem wp_require {b : Bool} {R : Unit → σ → Prop}
    (ht : b = true → R () s) (hf : b = false → E e) : wp (require b e) R E s := by
  cases b with
  | true => exact ht rfl
  | false => exact hf rfl

theorem wp_require_bind {b : Bool} {k : Unit → Prog σ ε β} (ht : b = true → wp (k ()) R E s)
    (hf : b = false → E e) :
    wp (require b e >>= k) R E s := by
  cases b with
  | true => exact ht rfl
  | false => exact hf rfl

theorem wp_ite [Decidable p] (hc : p → wp c Q E s) (hd : ¬ p → wp d Q E s) :
    wp (if p then c else d) Q E s := by
  by_cases h : p
  · rw [if_pos h]
    exact hc h
  · rw [if_neg h]
    exact hd h

theorem wp_trivial : wp c (fun _ _ => True) (fun _ => True) s := by
  unfold wp
  cases c s <;> trivial

/-- Two facts about one run. -/
theorem wp_and {R : α → σ → Prop} {F : ε → Prop}
    (h₁ : wp c Q E s) (h₂ : wp c R F s) :
    wp c (fun a s' => Q a s' ∧ R a s') (fun e => E e ∧ F e) s := by
  unfold wp at h₁ h₂ ⊢
  cases hc : c s with
  | ok r =>
    rw [hc] at h₁ h₂
    exact ⟨h₁, h₂⟩
  | error e =>
    rw [hc] at h₁ h₂
    exact ⟨h₁, h₂⟩

/-- What a run does in the good case, where it does not fail. -/
theorem wp_when {G : Prop} (h : G → wp c Q noError s) :
    wp c (fun a s' => G → Q a s') (fun _ => ¬ G) s := by
  by_cases hG : G
  · exact wp_mono (h hG) (fun _ _ hQ _ => hQ) fun _ he => he.elim
  · exact wp_mono wp_trivial (fun _ _ _ hyes => absurd hyes hG) fun _ _ => hG

/-- A total program really returns. -/
theorem exists_of_wp (h : wp c Q noError s) :
    ∃ a s', c s = .ok (a, s') ∧ Q a s' := by
  unfold wp at h
  cases hc : c s with
  | ok r =>
    rw [hc] at h
    exact ⟨r.1, r.2, rfl, h⟩
  | error e =>
    rw [hc] at h
    exact h.elim

theorem bind_run
    (hrun : c s = .ok (a, s')) : (c >>= k) s = k a s' := by
  show (c s >>= fun p => k p.1 p.2) = _
  rw [hrun]
  rfl

theorem bind_get {k : σ → Prog σ ε β} : (get >>= k) s = k s s := rfl

theorem bind_error
    (hrun : c s = .error e) : (c >>= k) s = .error e := by
  show (c s >>= fun p => k p.1 p.2) = _
  rw [hrun]
  rfl

theorem wp_of_run
    (hrun : c s = .ok (a, s')) (h : Q a s') : wp c Q E s := by
  unfold wp
  rw [hrun]
  exact h

/-- Two runs that end the same way. -/
theorem wp_of_eq (heq : c s = d s') (h : wp d Q E s') : wp c Q E s := by
  unfold wp at h ⊢
  rwa [heq]

theorem wp_bind_run (hrun : c s = .ok (a, s')) (h : wp (k a) R E s') : wp (c >>= k) R E s :=
  wp_of_eq (bind_run hrun) h

theorem wp_run : wp c (fun a s' => c s = .ok (a, s')) (fun e => c s = .error e) s := by
  unfold wp
  cases c s <;> rfl

/-- What a run that returned ends in. -/
theorem post_of_ok
    (h : wp c Q E s) (hrun : c s = .ok (a, s')) : Q a s' := by
  unfold wp at h
  rw [hrun] at h
  exact h

theorem error_of_wp
    (h : wp c Q E s) (hrun : c s = .error e) : E e := by
  unfold wp at h
  rw [hrun] at h
  exact h

/-- A result that was found by evaluation. -/
theorem ok_of_check {r : Except ε α} {p : α → Bool} (h : r.toOption.any p = true) :
    ∃ a, r = .ok a ∧ p a = true := by
  cases r with
  | ok a => exact ⟨a, rfl, h⟩
  | error e => cases h

/-! ### Loops -/

/-- `for (j = i; j < i + k; j++) body(j)` -/
def forRange (body : ℕ → Prog σ ε Unit) (i : ℕ) : ℕ → Prog σ ε Unit
  | 0 => pure ()
  | k + 1 => do
    body i
    forRange body (i + 1) k

/-- The loop rule: `I j` holds when round `j` starts. -/
theorem wp_forRange {I : ℕ → σ → Prop} :
    ∀ {k i : ℕ} {s : σ},
      (∀ j s', i ≤ j → j < i + k → I j s' → wp (body j) (fun _ s'' => I (j + 1) s'') E s') →
      I i s → wp (forRange body i k) (fun _ s' => I (i + k) s') E s
  | 0, _, _, _, hs => wp_pure hs
  | k + 1, i, s, hbody, hs => by
    refine wp_bind (hbody i s le_rfl (by omega) hs) fun _ s' hs' => ?_
    have h := wp_forRange (k := k) (fun j s'' h₁ h₂ => hbody j s'' (by omega) (by omega)) hs'
    rwa [add_assoc, add_comm 1 k] at h

/-- The loop rule for a loop that starts at 0. -/
theorem wp_forRange_zero {I : ℕ → σ → Prop} {k : ℕ}
    (hbody : ∀ j s', j < k → I j s' → wp (body j) (fun _ s'' => I (j + 1) s'') E s')
    (hs : I 0 s) : wp (forRange body 0 k) (fun _ s' => I k s') E s := by
  have h := wp_forRange (k := k) (i := 0) (fun j s' _ hj => hbody j s' (by omega)) hs
  rwa [zero_add] at h

/-- A loop with a round that does not return does not return. -/
theorem wp_forRange_never {k j : ℕ} (hj : j < k)
    (hbody : ∀ s', wp (body j) (fun _ _ => False) (fun _ => True) s') :
    wp (forRange body 0 k) (fun _ _ => False) (fun _ => True) s := by
  have h : wp (forRange body 0 k) (fun _ _ => k ≤ j) (fun _ => True) s := by
    apply wp_forRange_zero (I := fun i _ => i ≤ j) _ (Nat.zero_le j)
    intro i s' _ hi
    rcases Nat.lt_or_eq_of_le hi with hlt | rfl
    · exact wp_post wp_trivial fun _ _ _ => hlt
    · exact wp_post (hbody s') fun _ _ hfalse => hfalse.elim
  exact wp_post h fun _ _ hle => absurd hj (Nat.not_lt.mpr hle)

/-- `for (i in l) body(i)` -/
def forEach {ι : Type} (body : ι → Prog σ ε Unit) : List ι → Prog σ ε Unit
  | [] => pure ()
  | i :: l => do
    body i
    forEach body l

/-- The loop rule: `I l` holds when the rounds for `l` are left. -/
theorem wp_forEach {ι : Type} {body : ι → Prog σ ε Unit} {I : List ι → σ → Prop}
    (hbody : ∀ i l s, I (i :: l) s → wp (body i) (fun _ s' => I l s') E s)
    {l : List ι} (h : I l s) : wp (forEach body l) (fun _ s' => I [] s') E s := by
  induction l generalizing s with
  | nil => exact wp_pure h
  | cons i l ih => exact wp_bind (hbody i l s h) fun _ s' hs' => ih hs'

/-! ### What a program leaves alone -/

/-- No run of `c` that returns changes `f`. -/
def Keeps {τ : Type} (f : σ → τ) (c : Prog σ ε α) : Prop :=
  ∀ s, wp c (fun _ s' => f s' = f s) (fun _ => True) s

section Keeps

variable {τ : Type} {f : σ → τ}

theorem keeps_pure (a : α) : Keeps f (pure a : Prog σ ε α) := fun _ => wp_pure rfl

theorem keeps_throw (e : ε) : Keeps f (throw e : Prog σ ε α) := fun _ => wp_throw trivial

theorem keeps_bind (hc : Keeps f c)
    (hk : ∀ a, Keeps f (k a)) : Keeps f (c >>= k) := by
  intro s
  refine wp_bind (hc s) fun a s' hs' => ?_
  exact wp_post (hk a s') fun b s'' hs'' => hs''.trans hs'

theorem keeps_get {k : σ → Prog σ ε β} (hk : ∀ s, Keeps f (k s)) : Keeps f (get >>= k) :=
  fun s => wp_get (hk s s)

theorem keeps_modify {g : σ → σ} (hg : ∀ s, f (g s) = f s) :
    Keeps f (modify g : Prog σ ε PUnit) :=
  fun s => wp_modify (hg s)

theorem keeps_require (b : Bool) (e : ε) : Keeps f (require b e : Prog σ ε Unit) :=
  fun _ => wp_require (fun _ => rfl) fun _ => trivial

theorem keeps_ite [Decidable p] (hc : Keeps f c)
    (hd : Keeps f d) : Keeps f (if p then c else d) :=
  fun s => wp_ite (fun _ => hc s) fun _ => hd s

theorem keeps_forRange (h : ∀ i, Keeps f (body i)) (i k : ℕ) :
    Keeps f (forRange body i k) := by
  induction k generalizing i with
  | zero => exact keeps_pure ()
  | succ k ih => exact keeps_bind (h i) fun _ => ih (i + 1)

end Keeps

/-! ### Programs on a part of the state -/

/-- A part `τ` of the state `σ`. -/
structure Part (σ τ : Type) where
  get : σ → τ
  set : σ → τ → σ

def zoom {τ : Type} (l : Part σ τ) (c : Prog τ ε α) : Prog σ ε α := fun s =>
  match c (l.get s) with
  | .ok (a, t) => .ok (a, l.set s t)
  | .error e => .error e

theorem wp_zoom {τ : Type} {l : Part σ τ} {c : Prog τ ε α}
    (h : wp c (fun a t => Q a (l.set s t)) E (l.get s)) :
    wp (zoom l c) Q E s := by
  unfold wp at h ⊢
  unfold zoom
  cases hc : c (l.get s) with
  | ok r =>
    rw [hc] at h
    exact h
  | error e =>
    rw [hc] at h
    exact h

theorem wp_zoom_bind {τ : Type} {l : Part σ τ} {c : Prog τ ε α}
    {P : α → τ → Prop} (h : wp c P E (l.get s))
    (hk : ∀ a t, P a t → wp (k a) R E (l.set s t)) : wp (zoom l c >>= k) R E s := by
  refine wp_bind (Q := fun a s' => ∃ t, P a t ∧ s' = l.set s t) (wp_zoom ?_) ?_
  · exact wp_post h fun a t ht => ⟨t, ht, rfl⟩
  · rintro a _ ⟨t, ht, rfl⟩
    exact hk a t ht

-- clients use the rules above; unfolding `wp` would run the program symbolically
attribute [irreducible] wp

end RiscvBm.Wp

import Mathlib.Data.List.Basic

/-!
# Runs of a system with refused actions

A system is a partial step function `step : σ → α → Option σ`: `none` means that
the action is not enabled. A run is a list of actions; it is executed by
`runFrom`. Three notions are used by every state machine of the development:

- `Reach` — the states some run leads to, with its invariant rule
  (`reach_invariant`);
- `Along P` — `P` holds in every state a run visits;
- `Steps C` — every step a run takes meets the condition `C` in the state before it.

`along_of_steps` and `along_iff_steps` turn a per-step condition into a property
of whole runs, so a client only argues about one step.
-/

namespace RiscvBm.Transition

variable {σ α : Type*}

/-- Execute a list of actions; a refused action ends the run with `none`. -/
def runFrom (step : σ → α → Option σ) : σ → List α → Option σ
  | s, [] => some s
  | s, a :: as => (step s a).bind fun s' => runFrom step s' as

/-- The states that some run from `init` leads to. -/
def Reach (step : σ → α → Option σ) (init s : σ) : Prop :=
  ∃ as, runFrom step init as = some s

/-- `P` holds in every state visited by the run `as` from `s`. -/
def Along (step : σ → α → Option σ) (P : σ → Prop) : σ → List α → Prop
  | s, [] => P s
  | s, a :: as => P s ∧ ∀ s', step s a = some s' → Along step P s' as

/-- Every step the run takes meets the condition `C` in the state before it. -/
def Steps (step : σ → α → Option σ) (C : σ → α → Prop) : σ → List α → Prop
  | _, [] => True
  | s, a :: as => ∀ s', step s a = some s' → C s a ∧ Steps step C s' as

/-- `Steps` for a condition that can be evaluated. -/
def checkSteps (step : σ → α → Option σ) (c : σ → α → Bool) : σ → List α → Bool
  | _, [] => true
  | s, a :: as =>
    match step s a with
    | none => true
    | some s' => c s a && checkSteps step c s' as

variable {step : σ → α → Option σ}

theorem steps_of_check {C : σ → α → Prop} {c : σ → α → Bool}
    (hc : ∀ s a, c s a = true → C s a) :
    ∀ {as : List α} {s : σ}, checkSteps step c s as = true → Steps step C s as
  | [], _, _ => trivial
  | a :: as, s, h => by
    intro s' hs'
    simp only [checkSteps, hs', Bool.and_eq_true] at h
    exact ⟨hc s a h.1, steps_of_check hc h.2⟩

/-- A condition on the actions alone. -/
theorem steps_of_forall {C : α → Prop} : ∀ {as : List α} (s : σ),
    (∀ a ∈ as, C a) → Steps step (fun _ a => C a) s as
  | [], _, _ => trivial
  | a :: _, _, h => fun s' _ =>
    ⟨h a List.mem_cons_self, steps_of_forall s' fun b hb => h b (List.mem_cons_of_mem a hb)⟩

/-- A property of all states visited holds of the last one. -/
theorem Along.last {P : σ → Prop} : ∀ {as : List α} {s s' : σ},
    Along step P s as → runFrom step s as = some s' → P s'
  | [], s, s', h, hrun => by
    cases hrun
    exact h
  | a :: as, s, s', h, hrun => by
    simp only [runFrom, Option.bind_eq_some_iff] at hrun
    obtain ⟨s₁, h₁, h₂⟩ := hrun
    exact Along.last (h.2 s₁ h₁) h₂

/-- One component of a state was set to `v`: another value is found elsewhere, and was there
before. -/
theorem of_update {ι β : Type*} [DecidableEq ι] {f : ι → β} {i j : ι} {v c : β}
    (h : Function.update f i v j = c) (hc : c ≠ v) : j ≠ i ∧ f j = c := by
  by_cases hj : j = i
  · rw [hj, Function.update_self] at h
    exact absurd h.symm hc
  · rw [Function.update_of_ne hj] at h
    exact ⟨hj, h⟩

/-- What one step preserves, a whole run preserves. -/
theorem run_invariant {Inv : σ → Prop}
    (hstep : ∀ s a s', Inv s → step s a = some s' → Inv s') :
    ∀ {as : List α} {s s' : σ}, Inv s → runFrom step s as = some s' → Inv s'
  | [], s, s', hs, h => by
    cases h
    exact hs
  | a :: as, s, s', hs, h => by
    simp only [runFrom, Option.bind_eq_some_iff] at h
    obtain ⟨s₁, h₁, h₂⟩ := h
    exact run_invariant hstep (hstep s a s₁ hs h₁) h₂

/-- The invariant rule for reachable states. -/
theorem reach_invariant {Inv : σ → Prop} {init s : σ} (h0 : Inv init)
    (hstep : ∀ s a s', Inv s → step s a = some s' → Inv s')
    (h : Reach step init s) : Inv s := by
  obtain ⟨as, has⟩ := h
  exact run_invariant hstep h0 has

/-- A run whose steps all meet `C` visits only states with `P`, as soon as `C`
keeps an invariant that gives `P`. -/
theorem along_of_steps {Inv P : σ → Prop} {C : σ → α → Prop}
    (hP : ∀ s, Inv s → P s)
    (hstep : ∀ s a s', Inv s → C s a → step s a = some s' → Inv s') :
    ∀ {as : List α} {s : σ}, Inv s → Steps step C s as → Along step P s as
  | [], s, hs, _ => hP s hs
  | a :: as, s, hs, hC => by
    refine ⟨hP s hs, fun s' h' => ?_⟩
    obtain ⟨hc, hrest⟩ := hC s' h'
    exact along_of_steps hP hstep (hstep s a s' hs hc h') hrest

/-- An invariant holds in every state of every run. -/
theorem along_of_invariant {Inv P : σ → Prop} (hP : ∀ s, Inv s → P s)
    (hstep : ∀ s a s', Inv s → step s a = some s' → Inv s') (as : List α) {s : σ} (hs : Inv s) :
    Along step P s as :=
  along_of_steps hP (fun s a s' hs _ => hstep s a s' hs) hs (steps_of_forall s fun _ _ => trivial)

/-- A run whose steps all meet `C` takes only steps with `D`, as soon as `C` keeps an
invariant under which it gives `D`. -/
theorem steps_of_steps {Inv : σ → Prop} {C D : σ → α → Prop}
    (hstep : ∀ s a s', Inv s → C s a → step s a = some s' → Inv s' ∧ D s a) :
    ∀ {as : List α} {s : σ}, Inv s → Steps step C s as → Steps step D s as
  | [], _, _, _ => trivial
  | a :: as, s, hs, hC => by
    intro s' h'
    obtain ⟨hc, hrest⟩ := hC s' h'
    obtain ⟨hs', hd⟩ := hstep s a s' hs hc h'
    exact ⟨hd, steps_of_steps hstep hs' hrest⟩

/-- When in addition a step outside `C` leaves `P` at once, `C` is exactly the
condition under which the run keeps `P`. -/
theorem along_iff_steps {Inv P : σ → Prop} {C : σ → α → Prop}
    (hP : ∀ s, Inv s → P s)
    (hstep : ∀ s a s', Inv s → C s a → step s a = some s' → Inv s')
    (hbad : ∀ s a s', Inv s → ¬ C s a → step s a = some s' → ¬ P s') :
    ∀ {as : List α} {s : σ}, Inv s → (Along step P s as ↔ Steps step C s as)
  | [], s, hs => ⟨fun _ => trivial, fun _ => hP s hs⟩
  | a :: as, s, hs => by
    refine ⟨?_, along_of_steps hP hstep hs⟩
    rintro ⟨-, hnext⟩ s' h'
    have halong := hnext s' h'
    have hPs' : P s' := by
      cases as with
      | nil => exact halong
      | cons b bs => exact halong.1
    have hc : C s a := by
      by_contra hc
      exact hbad s a s' hs hc h' hPs'
    exact ⟨hc, (along_iff_steps hP hstep hbad (hstep s a s' hs hc h')).mp halong⟩

end RiscvBm.Transition

import RiscvBm.Sync.SpinLock

/-!
# `try_acquire` (`kernel/spinlock.c`)

`try_lock` gives up unless `owner` and `next` are equal. A lock of `initlock` is free when
`owner` is one ahead of `next`, and the two are equal when one hart holds the lock and nobody
waits: a free lock is refused and one that is held is handed out. `ret` is an output of the
assembly only, so its `-1` never gets there: the register starts with what it happens to hold,
and a call that is refused with 0 in it returns 0. Only with a second hart in the queue, and
another number in that register, is the answer right (`respects_run`).

A hart inside `try_acquire` is idle for the model of `acquire` and `release`; when it succeeds
it goes on as a hart that holds the lock.
-/

namespace RiscvBm.SpinLock

open Transition Function

variable {H : Type}

/-- Where a hart is inside `try_lock`. -/
inductive TryPc where
  | out
  | lr (ret : ℤ)                -- label `1:` of `try_lock`
  | lw (ret : ℤ) (next : Word)  -- `lr.w` has read `next`
  | sc (ret : ℤ) (next : Word)  -- `owner` is equal, and both `addi` are done
deriving DecidableEq

/-- A call that has returned: whether it succeeded, and whether the lock was free at its last
access to it. -/
structure Answer where
  success : Bool
  free : Bool
deriving DecidableEq

structure TrySt (H : Type) where
  lock : St H
  tpc : H → TryPc
  /-- ghost: the calls of `try_acquire` that have returned -/
  answers : List Answer

def tryInit (H : Type) : TrySt H := ⟨initlock H, fun _ => .out, []⟩

inductive TryAct (H : Type) where
  | lock (a : Act H)          -- a step of `acquire` or `release`
  | call (h : H) (ret : ℤ)    -- `try_acquire`, with what the register of `ret` holds
  | attempt (h : H)           -- the next access of the hart in `try_acquire`
  | failSc (h : H)            -- its `sc.w` fails
deriving DecidableEq

def Act.hart : Act H → H
  | .run h => h
  | .fail h => h

section System

variable [DecidableEq H] [Fintype H]

/-- Nobody holds the lock or waits for it. -/
def free (s : St H) : Bool := decide (∀ h, (s.pc h).queued = false)

/-- `try_lock` has returned `ret`: `try_acquire` succeeds if that is 0. -/
def answer (s : TrySt H) (h : H) (ret : ℤ) (lock : St H) : TrySt H where
  lock := if ret = 0 then goto lock h .held else lock
  tpc := update s.tpc h .out
  answers := s.answers ++ [⟨decide (ret = 0), free s.lock⟩]

def tryStep (s : TrySt H) : TryAct H → Option (TrySt H)
  | .lock a => if s.tpc a.hart = .out then (step s.lock a).map fun lock => { s with lock } else none
  | .call h ret =>
    if s.tpc h = .out ∧ s.lock.pc h = .idle then some { s with tpc := update s.tpc h (.lr ret) }
    else none
  | .failSc h =>
    match s.tpc h with
    | .sc ret _ => some { s with
        lock := { s.lock with reserved := update s.lock.reserved h false }
        tpc := update s.tpc h (.lr ret) }
    | _ => none
  | .attempt h =>
    match s.tpc h with
    | .out => none
    | .lr ret => some { s with
        lock := { s.lock with reserved := update s.lock.reserved h true }
        tpc := update s.tpc h (.lw ret s.lock.next) }
    | .lw ret next =>
      if s.lock.owner ≠ next then some (answer s h ret s.lock)
      else some { s with tpc := update s.tpc h (.sc (ret + 1) (next + 1)) }
    | .sc ret next =>
      if s.lock.reserved h then
        some (answer s h ret { s.lock with next, reserved := fun _ => false })
      else none

/-- A call does not find 0 in its register. When it compares the counters, two harts are in the
queue, and nobody has joined it since `next` was read. -/
def crowded (s : TrySt H) : TryAct H → Bool
  | .call _ ret => ret != 0
  | .attempt h =>
    match s.tpc h with
    | .lw _ next => decide (next = s.lock.next ∧
        ∃ a b, a ≠ b ∧ (s.lock.pc a).queued = true ∧ (s.lock.pc b).queued = true)
    | _ => true
  | _ => true

end System

/-- Every call that has returned succeeded exactly if the lock was free, and the lock is held
by one hart at most. -/
structure Respects (s : TrySt H) : Prop where
  answers : ∀ r ∈ s.answers, r.success = r.free
  exclusive : Exclusive s.lock

/-- No call has come to its `sc.w`. -/
def Trying (pc : Pc) : TryPc → Prop
  | .out => True
  | .lr ret | .lw ret _ => ret ≠ 0 ∧ pc = .idle
  | .sc _ _ => False

structure TryInv [Fintype H] (s : TrySt H) : Prop where
  lock : Inv s.lock
  trying : ∀ h, Trying (s.lock.pc h) (s.tpc h)
  refused : ∀ r ∈ s.answers, r = ⟨false, false⟩

variable {s s' : TrySt H} {h : H}

theorem TryInv.respects [Fintype H] (hinv : TryInv s) : Respects s where
  answers := fun r hr => by rw [hinv.refused r hr]
  exclusive := exclusive_of_inv hinv.lock

theorem step_pc [DecidableEq H] {s s' : St H} {a : Act H} (hstep : step s a = some s')
    (hne : h ≠ a.hart) : s'.pc h = s.pc h := by
  have hgoto : ∀ c, update s.pc a.hart c h = s.pc h := fun c => update_of_ne hne ..
  cases a with
  | fail g =>
    simp only [step] at hstep
    split at hstep <;> cases hstep
    exact hgoto _
  | run g =>
    simp only [step] at hstep
    split at hstep <;> try split at hstep
    all_goals cases hstep
    all_goals exact hgoto _

variable [Fintype H]

/-- With two harts in the queue the counters are not equal. -/
theorem Inv.owner_ne_next (hcard : Fintype.card H < 2 ^ 32) {s : St H} (hinv : Inv s) {a b : H}
    (hne : a ≠ b) (ha : (s.pc a).queued = true) (hb : (s.pc b).queued = true) :
    s.owner ≠ s.next := by
  obtain ⟨d, held, wait, hq⟩ := hinv
  have hlen := hq.length_le
  have htwo : 2 ≤ (held ++ wait).length := by
    have hsub : [a, b] ⊆ held ++ wait := by
      intro c hc
      rcases List.mem_pair.mp hc with rfl | rfl
      · exact (hq.queued _).mpr ha
      · exact (hq.queued _).mpr hb
    exact (List.subperm_of_subset (by simpa using hne) hsub).length_le
  rw [hq.owner, hq.next]
  intro heq
  have hmod := congrArg BitVec.toNat heq
  rw [BitVec.toNat_ofNat, BitVec.toNat_ofNat] at hmod
  omega

variable [DecidableEq H]

/-- A reservation of a hart that is idle for `acquire`. -/
theorem Inv.reserve {s : St H} (hinv : Inv s) (hidle : s.pc h = .idle) (b : Bool) :
    Inv { s with reserved := update s.reserved h b } := by
  obtain ⟨d, held, wait, hq⟩ := hinv
  have hmove : Queue { goto s h .idle with reserved := update s.reserved h b } d held wait :=
    hq.move hidle rfl rfl (fun h' hh' => update_of_ne hh' ..) trivial
  rw [goto, ← hidle, update_eq_self] at hmove
  exact ⟨d, held, wait, hmove⟩

theorem tryInv_step (hcard : Fintype.card H < 2 ^ 32) {a : TryAct H} (hinv : TryInv s)
    (hcrowd : crowded s a = true) (hstep : tryStep s a = some s') : TryInv s' := by
  -- the other harts are where they were
  have htpc : ∀ {h c}, Trying (s.lock.pc h) c →
      ∀ g, Trying (s.lock.pc g) (update s.tpc h c g) := fun hc =>
    (forall_update_iff s.tpc fun g c => Trying (s.lock.pc g) c).mpr
      ⟨hc, fun g _ => hinv.trying g⟩
  cases a with
  | lock a =>
    simp only [tryStep] at hstep
    split at hstep
    · rename_i hout
      obtain ⟨lock, hlock, rfl⟩ := Option.map_eq_some_iff.mp hstep
      refine ⟨inv_step hcard hinv.lock hlock, fun g => ?_, hinv.refused⟩
      by_cases hg : g = a.hart
      · rw [hg, hout]
        trivial
      · rw [step_pc hlock hg]
        exact hinv.trying g
    · cases hstep
  | call h ret =>
    simp only [tryStep] at hstep
    split at hstep <;> cases hstep
    rename_i hidle
    exact ⟨hinv.lock, htpc ⟨bne_iff_ne.mp hcrowd, hidle.2⟩, hinv.refused⟩
  | failSc h =>
    have htry := hinv.trying h
    simp only [tryStep] at hstep
    split at hstep
    · rename_i hc
      rw [hc] at htry
      exact htry.elim
    · cases hstep
  | attempt h =>
    have htry := hinv.trying h
    simp only [tryStep] at hstep
    cases hc : s.tpc h with
    | out =>
      rw [hc] at hstep
      cases hstep
    | lr ret =>
      rw [hc] at hstep htry
      cases hstep
      exact ⟨hinv.lock.reserve htry.2 true, htpc htry, hinv.refused⟩
    | lw ret next =>
      simp only [crowded, hc, decide_eq_true_iff] at hcrowd
      obtain ⟨rfl, a, b, hne, ha, hb⟩ := hcrowd
      rw [hc] at hstep htry
      dsimp only at hstep
      rw [if_pos (hinv.lock.owner_ne_next hcard hne ha hb), answer, if_neg htry.1] at hstep
      cases hstep
      refine ⟨hinv.lock, htpc trivial, fun r hr => ?_⟩
      rcases List.mem_append.mp hr with hr | hr
      · exact hinv.refused r hr
      · have hbusy : free s.lock = false := by
          apply decide_eq_false
          intro hfree
          rw [hfree a] at ha
          cases ha
        rw [List.mem_singleton.mp hr, hbusy, decide_eq_false htry.1]
    | sc ret next =>
      rw [hc] at htry
      exact htry.elim

/-- **`try_acquire` respects the lock while a hart waits behind the holder** at each of its
comparisons and the register of `ret` does not start with 0. -/
theorem respects_run (hcard : Fintype.card H < 2 ^ 32) (as : List (TryAct H))
    (has : Steps tryStep (fun s a => crowded s a = true) (tryInit H) as) :
    Along tryStep Respects (tryInit H) as := by
  apply along_of_steps (fun _ => TryInv.respects) (fun _ _ _ => tryInv_step hcard) _ has
  exact ⟨inv_initlock, fun _ => trivial, fun r hr => absurd hr List.not_mem_nil⟩

/-- The hart acquires the lock. -/
def acquires (h : H) : List (TryAct H) := List.replicate 6 (.lock (.run h))

/-- The hart calls `try_acquire` and makes `n` accesses. -/
def tries (h : H) (ret : ℤ) (n : ℕ) : List (TryAct H) :=
  .call h ret :: List.replicate n (.attempt h)

/-- One hart holds the lock, another one has a ticket and a third one tries. -/
def crowd : List (TryAct (Fin 3)) :=
  acquires 0 ++ List.replicate 4 (.lock (.run 1)) ++ tries 2 (-1) 2

theorem respects_run_crowd :
    (runFrom tryStep (tryInit (Fin 3)) crowd).map TrySt.answers = some [⟨false, false⟩] ∧
      Along tryStep Respects (tryInit (Fin 3)) crowd :=
  ⟨by decide, respects_run (by decide) _ (steps_of_check (fun _ _ h => h) (by decide))⟩

/-- Even where the register starts with `-1` a free lock is refused and a lock that is held is
taken; where it starts with 0 a refused call returns 0. -/
theorem not_respects_free :
    ¬ Along tryStep Respects (tryInit (Fin 2)) (tries 0 (-1) 2) ∧
    ¬ Along tryStep Respects (tryInit (Fin 2)) (acquires 0 ++ tries 1 (-1) 3) ∧
    ¬ Along tryStep Respects (tryInit (Fin 3))
      (acquires 0 ++ List.replicate 4 (.lock (.run 1)) ++ tries 2 0 2) := by
  have htwo : ∀ {n : ℕ} {as : List (TryAct (Fin (n + 2)))} {a b : Fin (n + 2)}, a ≠ b →
      (runFrom tryStep (tryInit _) as).map (fun s => (s.lock.pc a, s.lock.pc b)) =
        some (.held, .held) → ¬ Along tryStep Respects (tryInit _) as := by
    intro n as a b hne hrun h
    obtain ⟨s, hs, hpc⟩ := Option.map_eq_some_iff.mp hrun
    obtain ⟨ha, hb⟩ := Prod.mk.inj hpc
    exact hne ((h.last hs).exclusive a b (by rw [ha]; rfl) (by rw [hb]; rfl))
  refine ⟨fun h => ?_, htwo (a := 0) (b := 1) (by decide) (by decide),
    htwo (a := 0) (b := 2) (by decide) (by decide)⟩
  have hrun : (runFrom tryStep (tryInit (Fin 2)) (tries 0 (-1) 2)).map
      TrySt.answers = some [⟨false, true⟩] := by decide
  obtain ⟨s, hs, hans⟩ := Option.map_eq_some_iff.mp hrun
  have hr := (h.last hs).answers
  rw [hans] at hr
  exact absurd (hr _ List.mem_cons_self) (by decide)

end RiscvBm.SpinLock

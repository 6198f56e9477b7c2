import Mathlib.Data.Int.Notation
import Mathlib.Data.List.Nodup
import RiscvBm.Lib.Transition

/-!
# Timers (`kernel/timer.c`, `kernel/jiffies.h`)

`run_timers` looks for the first timer on the list whose time has come, gives up the lock of the
list and calls the timer's function. The timer stays on the list, and a second one whose time has
come waits for a later pass: a pass is complete exactly if nothing is due behind the first due
timer. Between the search and the call others may delete the timer.
-/

namespace RiscvBm.Timers

open Transition Function

/-! ## §1  The timers -/

abbrev Word := BitVec 64

/-- `struct timer_list`; `function` is `none` when it is NULL. -/
structure Timer (F : Type) where
  expires : Word
  function : Option F
  data : Word

/-- `timer_after_eq(a, b)`: `(long)(a - b) >= 0` -/
def timerAfterEq (a b : Word) : Bool := decide (0 ≤ (a - b).toInt)

/-- A function that is called, with the timer it was found in. -/
structure Call (F : Type) where
  timer : ℕ
  func : F
  data : Word
deriving DecidableEq

structure St (F : Type) where
  jiffies : Word
  /-- the `struct timer_list` at an address -/
  timers : ℕ → Timer F
  /-- the list of `timer_list_head` -/
  entries : List ℕ
  /-- what `run_timers` has found, when it is between the two locks -/
  pending : Option (Call F)
  /-- ghost: `del_timer` has returned, and the timer was not set up again -/
  deleted : ℕ → Bool
  /-- ghost: some function was called for such a timer -/
  late : Bool

variable {F : Type}

def St.callback (s : St F) (t : ℕ) : Option (Call F) :=
  (s.timers t).function.map fun func => ⟨t, func, (s.timers t).data⟩

/-- The loop of `run_timers`: `timer`, `func` and `data` when it ends. If it ends at the list
head, `func` is still NULL. -/
def search (s : St F) : Option (Call F) :=
  (s.entries.find? fun t => timerAfterEq s.jiffies (s.timers t).expires).bind s.callback

/-- What a pass of `run_timers` calls. -/
def runTimers (s : St F) : List (Call F) := (search s).toList

inductive Act (F : Type) where
  | tick
  | add (t : ℕ) (timer : Timer F)         -- the timer is set up and given to `add_timer`
  | del (t : ℕ)
  | mod (t : ℕ) (expires : Word)
  | search                                -- `run_timers` up to the release of the list
  | call                                  -- and from there

/-- A timer is not added twice. `del_timer` on one that it has deleted before writes through
NULL. -/
def step (s : St F) : Act F → Option (St F)
  | .tick => some { s with jiffies := s.jiffies + 1 }
  | .add t timer =>
    if t ∈ s.entries then none
    else
      let s := { s with timers := update s.timers t timer, deleted := update s.deleted t false }
      some (if timerAfterEq s.jiffies timer.expires then s
        else { s with entries := s.entries ++ [t] })
  | .del t =>
    if s.deleted t then none
    else some { s with entries := s.entries.erase t, deleted := update s.deleted t true }
  | .mod t expires => some { s with timers := update s.timers t { s.timers t with expires } }
  | .search => if s.pending.isSome then none else some { s with pending := search s }
  | .call => s.pending.map fun c => { s with pending := none, late := s.late || s.deleted c.timer }

def init (jiffies : Word) (timers : ℕ → Timer F) : St F :=
  ⟨jiffies, timers, [], none, fun _ => false, false⟩

/-! ## §2  One pass -/

/-- The clock shows `now` and each timer on the list expires at `due`, as numbers that do not
wrap around. -/
structure Timely (s : St F) (now : ℤ) (due : ℕ → ℤ) : Prop where
  jiffies : s.jiffies = BitVec.ofInt 64 now
  expires : ∀ t ∈ s.entries, (s.timers t).expires = BitVec.ofInt 64 (due t)
  near : ∀ t ∈ s.entries, -0x8000000000000000 ≤ now - due t ∧ now - due t < 0x8000000000000000

/-- The timers on the list whose time has come, in order. -/
def St.reached (s : St F) (now : ℤ) (due : ℕ → ℤ) : List ℕ :=
  s.entries.filter fun t => due t ≤ now

variable {s s' : St F} {now : ℤ} {due : ℕ → ℤ} {a : Act F}

theorem Timely.timerAfterEq_eq (h : Timely s now due) {t : ℕ} (ht : t ∈ s.entries) :
    timerAfterEq s.jiffies (s.timers t).expires = decide (due t ≤ now) := by
  have hnear := h.near t ht
  rw [timerAfterEq, h.jiffies, h.expires t ht, BitVec.toInt_sub, BitVec.toInt_ofInt,
    BitVec.toInt_ofInt, Int.sub_bmod_bmod, Int.bmod_sub_bmod,
    Int.bmod_eq_of_le (by omega) (by omega)]
  exact decide_eq_decide.mpr Int.sub_nonneg

/-- A pass calls the function of the first timer that is due. -/
theorem Timely.runTimers_eq (h : Timely s now due) :
    runTimers s = ((s.reached now due).head?.bind s.callback).toList := by
  have hfilter := List.filter_congr fun t ht => h.timerAfterEq_eq (t := t) ht
  rw [runTimers, search, ← List.head?_filter, hfilter]
  rfl

/-- A pass calls the function of every timer that is due, once, and no other. -/
def PassExact (s : St F) (now : ℤ) (due : ℕ → ℤ) : Prop :=
  (runTimers s).Perm ((s.reached now due).filterMap s.callback)

theorem Timely.passExact_iff (h : Timely s now due) :
    PassExact s now due ↔ ∀ t ∈ (s.reached now due).tail, (s.timers t).function = none := by
  have hnone : ∀ t, s.callback t = none ↔ (s.timers t).function = none := by
    intro t
    rw [St.callback, Option.map_eq_none_iff]
  unfold PassExact
  rw [h.runTimers_eq]
  cases s.reached now due with
  | nil => exact ⟨fun _ t ht => absurd ht List.not_mem_nil, fun _ => List.Perm.refl _⟩
  | cons t rest =>
    have hsplit : (t :: rest).filterMap s.callback =
        (s.callback t).toList ++ rest.filterMap s.callback := by
      rw [List.filterMap_cons]
      cases s.callback t <;> rfl
    rw [hsplit]
    show (s.callback t).toList.Perm _ ↔ ∀ t ∈ rest, _
    constructor
    · intro hperm t' ht'
      have hlen := hperm.length_eq
      rw [List.length_append] at hlen
      have hnil := List.length_eq_zero_iff.mp (Nat.left_eq_add.mp hlen)
      exact (hnone t').mp (List.filterMap_eq_nil_iff.mp hnil t' ht')
    · intro hrest
      rw [List.filterMap_eq_nil_iff.mpr fun t' ht' => (hnone t').mpr (hrest t' ht'),
        List.append_nil]

/-! ## §3  Deletions -/

/-- No function is called for a timer after `del_timer` has returned. -/
def NoLateCall (s : St F) : Prop := s.late = false

/-- The timer that is deleted is not the one that `run_timers` is about to call. -/
def apart (s : St F) : Act F → Bool
  | .del t => s.pending.all fun c => decide (c.timer ≠ t)
  | _ => true

structure Inv (s : St F) : Prop where
  nodup : s.entries.Nodup
  entries : ∀ t ∈ s.entries, s.deleted t = false
  pending : ∀ c, s.pending = some c → s.deleted c.timer = false
  prompt : s.late = false

theorem search_mem {c : Call F} (h : search s = some c) : c.timer ∈ s.entries := by
  obtain ⟨t, hfind, hcall⟩ := Option.bind_eq_some_iff.mp h
  obtain ⟨func, -, rfl⟩ := Option.map_eq_some_iff.mp hcall
  exact List.mem_of_find?_eq_some hfind

theorem inv_step (h : Inv s) (ha : apart s a = true) (hstep : step s a = some s') : Inv s' := by
  cases a with
  | tick =>
    cases hstep
    exact { h with }
  | mod t expires =>
    cases hstep
    exact { h with }
  | add t timer =>
    simp only [step] at hstep
    split at hstep
    · cases hstep
    rename_i hnot
    have hdel : ∀ {t'}, s.deleted t' = false → update s.deleted t false t' = false := by
      intro t' ht'
      by_cases heq : t' = t
      · rw [heq, update_self]
      · rw [update_of_ne heq, ht']
    cases hstep
    split
    · exact { h with
        entries := fun t' ht' => hdel (h.entries t' ht')
        pending := fun c hc => hdel (h.pending c hc) }
    · refine ⟨?_, fun t' ht' => ?_, fun c hc => hdel (h.pending c hc), h.prompt⟩
      · exact h.nodup.append (List.nodup_singleton t) (List.disjoint_singleton.mpr hnot)
      · rcases List.mem_append.mp ht' with ht' | ht'
        · exact hdel (h.entries t' ht')
        · rw [List.mem_singleton.mp ht']
          exact update_self ..
  | del t =>
    simp only [step] at hstep
    split at hstep
    · cases hstep
    cases hstep
    refine ⟨h.nodup.erase t, fun t' ht' => ?_, fun c hc => ?_, h.prompt⟩
    · obtain ⟨hne, hmem⟩ := h.nodup.mem_erase_iff.mp ht'
      exact (update_of_ne hne ..).trans (h.entries t' hmem)
    · have hne : c.timer ≠ t := by
        rw [apart, hc] at ha
        exact of_decide_eq_true ha
      exact (update_of_ne hne ..).trans (h.pending c hc)
  | search =>
    simp only [step] at hstep
    split at hstep
    · cases hstep
    cases hstep
    exact { h with pending := fun c hc => h.entries _ (search_mem hc) }
  | call =>
    obtain ⟨c, hc, rfl⟩ := Option.map_eq_some_iff.mp hstep
    refine ⟨h.nodup, h.entries, fun c' hc' => (by cases hc'), ?_⟩
    show (s.late || s.deleted c.timer) = false
    rw [h.prompt, h.pending c hc]
    rfl

/-- **A pass is exact exactly if no function is due behind the first timer that is**, and no
function is called for a deleted timer as long as the timer that `run_timers` has found is not
deleted before the call. -/
theorem timers_law (s : St F) (now : ℤ) (due : ℕ → ℤ) (h : Timely s now due) (jiffies : Word)
    (timers : ℕ → Timer F) (as : List (Act F))
    (has : Steps step (fun s a => apart s a = true) (init jiffies timers) as) :
    (PassExact s now due ↔ ∀ t ∈ (s.reached now due).tail, (s.timers t).function = none) ∧
      Along step NoLateCall (init jiffies timers) as := by
  refine ⟨h.passExact_iff, along_of_steps (fun _ h => h.prompt) (fun _ _ _ => inv_step) ?_ has⟩
  exact ⟨List.nodup_nil, fun t ht => absurd ht List.not_mem_nil, fun c hc => (by cases hc), rfl⟩

/-- A timer with a function. -/
def timer (expires : Word) : Timer Unit := ⟨expires, some (), 0⟩

/-- Two timers that expire at 3 and 9, on the list at the time `now`. -/
def twoTimers (now : ℤ) : St Unit :=
  { init (BitVec.ofInt 64 now) (fun t => timer (BitVec.ofNat 64 (6 * t + 3))) with
    entries := [0, 1] }

theorem twoTimers_timely {now : ℤ} (h0 : 0 ≤ now) (h1 : now ≤ 10) :
    Timely (twoTimers now) now fun t => 6 * t + 3 where
  jiffies := rfl
  expires := fun t _ => (BitVec.ofInt_natCast 64 (6 * t + 3)).symm
  near := by
    intro t ht
    rcases List.mem_pair.mp ht with rfl | rfl <;> omega

/-- A timer is called when its time has come, and then deleted. -/
theorem timers_law_two :
    PassExact (twoTimers 5) 5 (fun t => 6 * t + 3) ∧
      Along step NoLateCall (init 0 fun _ => timer 0)
        [.add 0 (timer 1), .tick, .search, .call, .del 0] := by
  obtain ⟨hpass, hlate⟩ := timers_law (twoTimers 5) 5 _ (twoTimers_timely (by decide) (by decide)) 0
    (fun _ => timer 0) [.add 0 (timer 1), .tick, .search, .call, .del 0]
    (steps_of_check (fun _ _ h => h) (by decide))
  exact ⟨hpass.mpr (by decide), hlate⟩

/-- With two timers due one is left out, and a timer is called after its deletion. -/
theorem not_timers_law : ¬ PassExact (twoTimers 10) 10 (fun t => 6 * t + 3) ∧
    ¬ Along step NoLateCall (init 0 fun _ => timer 0)
      [.add 0 (timer 1), .tick, .search, .del 0, .call] := by
  refine ⟨fun h => absurd h.length_eq (by decide), fun h => ?_⟩
  have hrun : (runFrom step (init 0 fun _ => timer 0)
      [.add 0 (timer 1), .tick, .search, .del 0, .call]).map St.late = some true := by decide
  obtain ⟨s, hs, hlate⟩ := Option.map_eq_some_iff.mp hrun
  exact absurd (hlate.symm.trans (h.last hs)) (by decide)

end RiscvBm.Timers

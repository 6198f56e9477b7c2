import Mathlib.Algebra.Order.Ring.Nat
import Mathlib.Data.Fintype.Card
import RiscvBm.Lib.Transition

/-!
# The ticket spinlock (`kernel/spinlock.c`)

`lock` takes a ticket by incrementing `next` with `lr.w`/`sc.w` and spins until `owner` shows
it; `unlock` increments `owner`. Both counters have 32 bits and wrap around. Each instruction
that touches the lock is one step of a hart: an `sc.w` succeeds only when no other hart
has stored to `next` since the `lr.w`, and may fail at any time. The panic of `lock` after two
seconds ends the run, so it is no step.

The proof counts without wrapping: the harts that have a ticket form a queue whose head is the
one that is served, and a hart compares values whose true distance is less than the number
of harts.
-/

namespace RiscvBm.SpinLock

open Transition Function

/-! ## §1  The lock and the harts -/

abbrev Word := BitVec 32

/-- Where a hart is inside `acquire` and `release`. -/
inductive Pc where
  | idle
  | lr                        -- label `1:` of `lock`
  | lw (next : Word)          -- `lr.w` has read `next`
  | sc (next owner : Word)    -- `lw` has read `owner`
  | spin (next owner : Word)  -- `while (lockval.next != lockval.owner)`
  | got                       -- `lock` has returned: `lk->cpu = smp_processor_id()`
  | held                      -- `acquire` has returned
  | unlock                    -- `lk->cpu = -1` is done: the load of `++(lock->owner)`
  | store (owner : Word)      -- its store
deriving DecidableEq, Repr

structure St (H : Type) where
  owner : Word
  next : Word
  cpu : Option H
  pc : H → Pc
  /-- the hart's reservation of `next` is valid -/
  reserved : H → Bool
  /-- ghost: the harts that have incremented `next`, in that order -/
  incremented : List H
  /-- ghost: the harts that have obtained the lock, in that order -/
  obtained : List H

/-- `initlock` -/
def initlock (H : Type) : St H where
  owner := 1
  next := 0
  cpu := none
  pc := fun _ => .idle
  reserved := fun _ => false
  incremented := []
  obtained := []

variable {H : Type}

section System

variable [DecidableEq H]

def goto (s : St H) (h : H) (c : Pc) : St H := { s with pc := update s.pc h c }

inductive Act (H : Type) where
  | run (h : H)     -- the next instruction of the hart on this lock
  | fail (h : H)    -- its `sc.w` fails
deriving DecidableEq, Repr

def step (s : St H) : Act H → Option (St H)
  | .fail h =>
    match s.pc h with
    | .sc _ _ => some { goto s h .lr with reserved := update s.reserved h false }
    | _ => none
  | .run h =>
    match s.pc h with
    | .idle => some (goto s h .lr)
    | .lr => some { goto s h (.lw s.next) with reserved := update s.reserved h true }
    | .lw n => some (goto s h (.sc n s.owner))
    | .sc n o =>
      if s.reserved h then
        some { goto s h (.spin (n + 1) o) with
          next := n + 1
          reserved := fun _ => false
          incremented := s.incremented ++ [h] }
      else none
    | .spin n o =>
      if n = o then some { goto s h .got with obtained := s.obtained ++ [h] }
      else some (goto s h (.spin n s.owner))
    | .got => some { goto s h .held with cpu := some h }
    | .held => some { goto s h .unlock with cpu := none }
    | .unlock => some (goto s h (.store s.owner))
    | .store o => some { goto s h .idle with owner := o + 1 }

end System

/-! ## §2  What is to hold -/

/-- From the end of the spinning to the store that passes the lock on. -/
def Pc.holds : Pc → Bool
  | .got | .held | .unlock | .store _ => true
  | _ => false

/-- At most one hart holds the lock. -/
def Exclusive (s : St H) : Prop :=
  ∀ h h', (s.pc h).holds = true → (s.pc h').holds = true → h = h'

/-- The lock was obtained in the order of the increments of `next`. -/
def InOrder (s : St H) : Prop := s.obtained <+: s.incremented

/-! ## §3  The queue -/

/-- Has a ticket that was not passed on yet. -/
def Pc.queued : Pc → Bool
  | .spin _ _ => true
  | c => c.holds

/-- `o` was read from `owner` when `k` of now `d` harts had passed the lock on, and the ticket
`t` was less than the number of harts ahead. -/
def Seen (H : Type) [Fintype H] (d t : ℕ) (o : Word) : Prop :=
  ∃ k ≤ d, o = BitVec.ofNat 32 (k + 1) ∧ t ≤ k + Fintype.card H

/-- What is known of a hart, when the lock was passed on `d` times and `q` is the queue. -/
def Known [Fintype H] (s : St H) (d : ℕ) (q : List H) (h : H) : Pc → Prop
  | .lw n => s.reserved h = true → n = s.next
  | .sc n o => s.reserved h = true → n = s.next ∧ Seen H d (d + q.length + 1) o
  | .spin n o => ∃ i, q[i]? = some h ∧ n = BitVec.ofNat 32 (d + 1 + i) ∧ Seen H d (d + 1 + i) o
  | .store o => o = s.owner
  | _ => True

/-- The hart in `held`, if any, has the lock, and those in `wait` have the next tickets. -/
structure Queue [Fintype H] (s : St H) (d : ℕ) (held wait : List H) : Prop where
  order : s.incremented = s.obtained ++ wait
  single : held.length ≤ 1
  nodup : (held ++ wait).Nodup
  holds : ∀ h, h ∈ held ↔ (s.pc h).holds = true
  queued : ∀ h, h ∈ held ++ wait ↔ (s.pc h).queued = true
  owner : s.owner = BitVec.ofNat 32 (d + 1)
  next : s.next = BitVec.ofNat 32 (d + (held ++ wait).length)
  known : ∀ h, Known s d (held ++ wait) h (s.pc h)

/-! ## §4  One step -/

section Steps

/-- A step that does not change the answer for the hart that takes it changes no answer. -/
theorem update_test [DecidableEq H] {β : Type} {pc : H → Pc} {h : H} {c : Pc} (f : Pc → β)
    (hf : f c = f (pc h)) (h' : H) : f (update pc h c h') = f (pc h') :=
  (forall_update_iff pc fun x c => f c = f (pc x)).mpr ⟨hf, fun _ _ => rfl⟩ h'

variable [Fintype H]

variable {s s' : St H} {d : ℕ} {held wait q : List H} {h : H} {c c' : Pc} {n o : Word} {t : ℕ}

theorem Seen.mono {d' : ℕ} (hs : Seen H d t o) (hle : d ≤ d') : Seen H d' t o := by
  obtain ⟨k, hk, ho, ht⟩ := hs
  exact ⟨k, Nat.le_trans hk hle, ho, ht⟩

/-- A hart whose ticket is the number it sees is the one that is served. -/
theorem Seen.eq_served (hcard : Fintype.card H < 2 ^ 32) {i : ℕ} (hs : Seen H d (d + 1 + i) o)
    (heq : BitVec.ofNat 32 (d + 1 + i) = o) : i = 0 := by
  obtain ⟨k, hk, rfl, ht⟩ := hs
  have hmod := congrArg BitVec.toNat heq
  rw [BitVec.toNat_ofNat, BitVec.toNat_ofNat] at hmod
  -- both numbers are less than 2 ^ 32 apart
  omega

theorem Queue.length_lt (hq : Queue s d held wait) (hh : (s.pc h).queued = false) :
    (held ++ wait).length + 1 ≤ Fintype.card H := by
  have hmem : h ∉ held ++ wait := by
    rw [hq.queued, hh]
    exact Bool.false_ne_true
  have hnodup : (h :: (held ++ wait)).Nodup := List.nodup_cons.mpr ⟨hmem, hq.nodup⟩
  exact hnodup.length_le_card

theorem Queue.length_le (hq : Queue s d held wait) : (held ++ wait).length ≤ Fintype.card H :=
  hq.nodup.length_le_card

/-- What is known of a hart does not depend on the rest. -/
theorem Known.congr (hk : Known s d q h c) (hnext : s'.next = s.next)
    (howner : s'.owner = s.owner) (hres : s'.reserved h = s.reserved h) : Known s' d q h c := by
  cases c with
  | lw n | sc n o =>
    intro hr
    rw [hres] at hr
    rw [hnext]
    exact hk hr
  | store o => exact hk.trans howner.symm
  | idle | lr | spin n o | got | held | unlock => exact hk

def Inv (s : St H) : Prop := ∃ d held wait, Queue s d held wait

theorem inv_initlock : Inv (initlock H) := by
  have hnone : ∀ h : H, h ∈ ([] : List H) ↔ false = true :=
    fun _ => iff_of_false List.not_mem_nil Bool.false_ne_true
  exact ⟨0, [], [], rfl, Nat.zero_le _, List.nodup_nil, hnone, hnone, rfl, rfl, fun _ => trivial⟩

theorem exclusive_of_inv (hinv : Inv s) : Exclusive s := by
  obtain ⟨d, held, wait, hq⟩ := hinv
  intro h h' hh hh'
  rw [← hq.holds] at hh hh'
  match held, hq.single with
  | [a], _ => exact (List.mem_singleton.mp hh).trans (List.mem_singleton.mp hh').symm

theorem inOrder_of_inv (hinv : Inv s) : InOrder s := by
  obtain ⟨d, held, wait, hq⟩ := hinv
  rw [InOrder, hq.order]
  exact List.prefix_append _ _

variable [DecidableEq H]

/-- A step of one hart that gives no ticket and passes none on. -/
theorem Queue.move {cpu : Option H} {reserved : H → Bool} (hq : Queue s d held wait)
    (hc : s.pc h = c) (hqueued : c'.queued = c.queued) (hholds : c'.holds = c.holds)
    (hres : ∀ h', h' ≠ h → reserved h' = s.reserved h')
    (hknown : Known { goto s h c' with reserved, cpu } d (held ++ wait) h c') :
    Queue { goto s h c' with reserved, cpu } d held wait := by
  subst hc
  refine ⟨hq.order, hq.single, hq.nodup, fun h' => ?_, fun h' => ?_, hq.owner, hq.next, ?_⟩
  · rw [hq.holds]
    exact (congrArg (· = true) (update_test Pc.holds hholds h')).to_iff.symm
  · rw [hq.queued]
    exact (congrArg (· = true) (update_test Pc.queued hqueued h')).to_iff.symm
  · exact (forall_update_iff s.pc fun h' c => Known _ d (held ++ wait) h' c).mpr
      ⟨hknown, fun h' hh' => (hq.known h').congr rfl rfl (hres h' hh')⟩

/-- The `sc.w` of a hart succeeds: it joins the queue at the end. -/
theorem Queue.join (hq : Queue s d held wait) (hc : s.pc h = .sc n o) (hr : s.reserved h = true) :
    Queue { goto s h (.spin (n + 1) o) with
      next := n + 1
      reserved := fun _ => false
      incremented := s.incremented ++ [h] } d held (wait ++ [h]) := by
  have hknown := hq.known h
  rw [hc] at hknown
  obtain ⟨rfl, hseen⟩ := hknown hr
  have hnot : h ∉ held ++ wait := by
    rw [hq.queued, hc]
    exact Bool.false_ne_true
  have hassoc : held ++ (wait ++ [h]) = held ++ wait ++ [h] := (List.append_assoc ..).symm
  have hlen : (held ++ wait ++ [h]).length = (held ++ wait).length + 1 := List.length_append
  constructor
  · show s.incremented ++ [h] = s.obtained ++ (wait ++ [h])
    rw [hq.order, List.append_assoc]
  · exact hq.single
  · rw [hassoc]
    exact hq.nodup.append (List.nodup_singleton h) (by simpa using hnot)
  · refine (forall_update_iff s.pc fun h' c => h' ∈ held ↔ c.holds = true).mpr
      ⟨iff_of_false ?_ Bool.false_ne_true, fun h' _ => hq.holds h'⟩
    exact fun hmem => hnot (List.mem_append_left _ hmem)
  · rw [hassoc]
    refine (forall_update_iff s.pc fun h' c => h' ∈ _ ↔ c.queued = true).mpr
      ⟨by simp [Pc.queued], fun h' hh' => ?_⟩
    rw [← hq.queued]
    simp [hh']
  · exact hq.owner
  · show s.next + 1 = _
    rw [hq.next, hassoc, hlen, ← Nat.add_assoc]
    exact (BitVec.ofNat_add _ _).symm
  · rw [hassoc]
    refine (forall_update_iff s.pc fun h' c => Known _ d _ h' c).mpr
      ⟨⟨(held ++ wait).length, by simp, ?_, ?_⟩, fun h' _ => ?_⟩
    · rw [hq.next, Nat.add_right_comm]
      exact (BitVec.ofNat_add _ _).symm
    · rw [Nat.add_right_comm]
      exact hseen
    · have hk := hq.known h'
      cases hc' : s.pc h' with
      | lw n | sc n o => exact fun hres => by cases hres
      | spin n o =>
        rw [hc'] at hk
        obtain ⟨i, hi, hn, hs⟩ := hk
        refine ⟨i, ?_, hn, hs⟩
        rw [List.getElem?_append_left (List.getElem?_eq_some_iff.mp hi).1, hi]
      | store o =>
        rw [hc'] at hk
        exact hk
      | idle | lr | got | held | unlock => trivial

/-- A hart sees its ticket: it is the first one in the queue, and nobody holds the lock. -/
theorem Queue.obtain (hcard : Fintype.card H < 2 ^ 32) (hq : Queue s d held wait)
    (hc : s.pc h = .spin n n) :
    Inv { goto s h .got with obtained := s.obtained ++ [h] } := by
  have hknown := hq.known h
  rw [hc] at hknown
  obtain ⟨i, hi, hn, hseen⟩ := hknown
  have hzero := hseen.eq_served hcard hn.symm
  subst hzero
  have hnot : h ∉ held := by
    rw [hq.holds, hc]
    exact Bool.false_ne_true
  match held, wait with
  | a :: held, _ => exact absurd (Option.some.inj hi ▸ List.mem_cons_self) hnot
  | [], a :: wait =>
    obtain rfl : a = h := Option.some.inj hi
    refine ⟨d, [a], wait, ?_, Nat.le_refl _, hq.nodup, ?_, fun h' => ?_, hq.owner, hq.next, ?_⟩
    · show s.incremented = s.obtained ++ [a] ++ wait
      rw [hq.order, List.append_assoc]
      rfl
    · refine (forall_update_iff s.pc fun h' c => h' ∈ [a] ↔ c.holds = true).mpr
        ⟨by simp [Pc.holds], fun h' hh' => ?_⟩
      rw [← hq.holds]
      simpa using hh'
    · show h' ∈ a :: wait ↔ (update s.pc a .got h').queued = true
      rw [update_test Pc.queued (by rw [hc]; rfl)]
      exact hq.queued h'
    · exact (forall_update_iff s.pc fun h' c => Known _ d (a :: wait) h' c).mpr
        ⟨trivial, fun h' _ => (hq.known h').congr rfl rfl rfl⟩

/-- The holder passes the lock on. -/
theorem Queue.pass (hq : Queue s d held wait) (hc : s.pc h = .store o) :
    Queue { goto s h .idle with owner := o + 1 } (d + 1) [] wait := by
  have hknown := hq.known h
  rw [hc] at hknown
  obtain rfl : o = s.owner := hknown
  have hmem : h ∈ held := by
    rw [hq.holds, hc]
    rfl
  obtain ⟨a, rfl⟩ := List.length_eq_one_iff.mp (hq.single.antisymm (List.length_pos_of_mem hmem))
  obtain rfl := List.mem_singleton.mp hmem
  obtain ⟨hnot, hnodup⟩ := List.nodup_cons.mp hq.nodup
  refine ⟨hq.order, Nat.zero_le _, hnodup, ?_, ?_, ?_, ?_, ?_⟩
  · refine (forall_update_iff s.pc fun h' c => h' ∈ [] ↔ c.holds = true).mpr
      ⟨by simp [Pc.holds], fun h' hh' => ?_⟩
    rw [← hq.holds]
    simpa using hh'
  · refine (forall_update_iff s.pc fun h' c => h' ∈ wait ↔ c.queued = true).mpr
      ⟨by simpa [Pc.queued, Pc.holds] using hnot, fun h' hh' => ?_⟩
    rw [← hq.queued]
    simp [hh']
  · show s.owner + 1 = _
    rw [hq.owner]
    exact (BitVec.ofNat_add _ _).symm
  · show s.next = _
    rw [hq.next, Nat.add_right_comm]
    rfl
  · refine (forall_update_iff s.pc fun h' c => Known _ (d + 1) wait h' c).mpr
      ⟨trivial, fun h' hh' => ?_⟩
    have hk := hq.known h'
    cases hc' : s.pc h' with
    | lw n =>
      rw [hc'] at hk
      exact hk
    | sc n o =>
      rw [hc'] at hk
      intro hr
      obtain ⟨hn, hseen⟩ := hk hr
      refine ⟨hn, ?_⟩
      rw [Nat.add_right_comm d]
      exact hseen.mono (Nat.le_succ d)
    | spin n o =>
      rw [hc'] at hk
      obtain ⟨i, hi, hn, hseen⟩ := hk
      cases i with
      | zero => exact absurd (Option.some.inj hi).symm hh'
      | succ i =>
        rw [← Nat.add_assoc, Nat.add_right_comm] at hn hseen
        exact ⟨i, hi, hn, hseen.mono (Nat.le_succ d)⟩
    | store o =>
      have hother := (hq.holds h').mpr (by rw [hc']; rfl)
      exact absurd (List.mem_singleton.mp hother) hh'
    | idle | lr | got | held | unlock => trivial

theorem inv_step (hcard : Fintype.card H < 2 ^ 32) {a : Act H} (hinv : Inv s)
    (hstep : step s a = some s') : Inv s' := by
  obtain ⟨d, held, wait, hq⟩ := hinv
  cases a with
  | fail h =>
    simp only [step] at hstep
    split at hstep
    · rename_i hc
      cases hstep
      exact ⟨d, held, wait, hq.move hc rfl rfl (fun h' hh' => update_of_ne hh' ..) trivial⟩
    · cases hstep
  | run h =>
    have hknown := hq.known h
    simp only [step] at hstep
    cases hc : s.pc h with
    | idle =>
      rw [hc] at hstep
      cases hstep
      exact ⟨d, held, wait, hq.move hc rfl rfl (fun _ _ => rfl) trivial⟩
    | lr =>
      rw [hc] at hstep
      cases hstep
      exact ⟨d, held, wait, hq.move hc rfl rfl (fun h' hh' => update_of_ne hh' ..) fun _ => rfl⟩
    | lw n =>
      rw [hc] at hstep hknown
      cases hstep
      refine ⟨d, held, wait, hq.move hc rfl rfl (fun _ _ => rfl) fun hr => ?_⟩
      have hlen := hq.length_lt (h := h) (by rw [hc]; rfl)
      exact ⟨hknown hr, d, Nat.le_refl _, hq.owner, by omega⟩
    | sc n o =>
      rw [hc] at hstep
      dsimp only at hstep
      split at hstep
      · rename_i hr
        cases hstep
        exact ⟨d, held, wait ++ [h], hq.join hc hr⟩
      · cases hstep
    | spin n o =>
      rw [hc] at hstep hknown
      dsimp only at hstep
      split at hstep
      · rename_i heq
        subst heq
        cases hstep
        exact hq.obtain hcard hc
      · cases hstep
        obtain ⟨i, hi, hn, -⟩ := hknown
        obtain ⟨hlt, -⟩ := List.getElem?_eq_some_iff.mp hi
        have hlen := hq.length_le
        exact ⟨d, held, wait, hq.move hc rfl rfl (fun _ _ => rfl)
          ⟨i, hi, hn, d, Nat.le_refl _, hq.owner, by omega⟩⟩
    | got | held =>
      rw [hc] at hstep
      cases hstep
      exact ⟨d, held, wait, hq.move hc rfl rfl (fun _ _ => rfl) trivial⟩
    | unlock =>
      rw [hc] at hstep
      cases hstep
      exact ⟨d, held, wait, hq.move hc rfl rfl (fun _ _ => rfl) rfl⟩
    | store o =>
      rw [hc] at hstep
      cases hstep
      exact ⟨d + 1, [], wait, hq.pass hc⟩

end Steps

/-! ## §5  Runs -/

/-- In every run the lock is held by at most one hart, and obtained in the order of the tickets,
also when `owner` and `next` wrap around. -/
theorem ticketLock_correct [DecidableEq H] [Fintype H] (hcard : Fintype.card H < 2 ^ 32)
    {s : St H} (hreach : Reach step (initlock H) s) : Exclusive s ∧ InOrder s := by
  have hinv : Inv s :=
    reach_invariant inv_initlock (fun _ _ _ hs hstep => inv_step hcard hs hstep) hreach
  exact ⟨exclusive_of_inv hinv, inOrder_of_inv hinv⟩

/-- Two harts: the second takes its ticket while the first holds the lock, and obtains it after
the first has passed it on. -/
theorem ticketLock_correct_twoHarts : ∃ s : St (Fin 2),
    runFrom step (initlock (Fin 2))
      ((List.replicate 6 (.run 0)) ++ (List.replicate 4 (.run 1)) ++ (List.replicate 4 (.run 0)) ++
        (List.replicate 3 (.run 1))) = some s ∧ s.obtained = [0, 1] ∧ Exclusive s ∧ InOrder s := by
  have hrun : (runFrom step (initlock (Fin 2))
      ((List.replicate 6 (.run 0)) ++ (List.replicate 4 (.run 1)) ++ (List.replicate 4 (.run 0)) ++
        (List.replicate 3 (.run 1)))).map St.obtained = some [0, 1] := by
    decide
  obtain ⟨s, hs, hobt⟩ := Option.map_eq_some_iff.mp hrun
  exact ⟨s, hs, hobt, ticketLock_correct (by decide) ⟨_, hs⟩⟩

end RiscvBm.SpinLock

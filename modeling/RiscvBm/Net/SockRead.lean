import RiscvBm.Lib.Codec
import RiscvBm.Lib.LinkedQueue
import RiscvBm.Lib.Transition

/-!
# Readers of a socket

`sockread` tests the queue without `si->lock`, waits if it is empty, and then takes the head
under the lock without testing again. `sockrecvudp` appends a datagram and wakes all who wait
at the socket. The steps are the sections under the lock, the tests, the wake-ups and the ends
of waits; any number of calls take them in any order.

As long as no more readers are let through to the dequeue than there are datagrams, each gets
its own, in order (`delivers_run`). Nothing in the code sees to that: two readers that are both
let through by one datagram end with a null pointer (`not_delivers_twoReaders`).
-/

namespace RiscvBm.SockRead

open Wire LinkedQueue Transition Function

/-! ## §1  The socket and its readers -/

/-- A call `sockread(si, addr, n)`; `ok` says whether `space_data_copy_out` succeeds. -/
structure Call where
  n : ℕ
  ok : Bool
deriving DecidableEq, Repr

structure St where
  /-- `si->rxq`, with the `next` pointers of the buffers -/
  rxq : Queue ℕ
  /-- what the buffers contain -/
  data : ℕ → List Byte
  /-- calls that have found the queue empty and are about to enter the wait queue -/
  empty : List Call
  /-- calls in the wait queue -/
  waiting : List Call
  /-- calls taken out of it by a wake-up, not yet running -/
  woken : List Call
  /-- calls about to dequeue -/
  ready : List Call
  /-- deliveries that have appended and not yet called `ip_app_wq_wakeup_process` -/
  wakes : ℕ
  /-- a null pointer was dereferenced -/
  fault : Bool
  /-- history: the datagrams delivered to the socket -/
  arrived : List (ℕ × List Byte)
  /-- history: the datagrams dequeued -/
  taken : List ℕ
  /-- history: datagram, `n` and bytes of the calls that did not return -1 -/
  returned : List (ℕ × ℕ × List Byte)

/-- `mbufq_init`: the tail is whatever it was. -/
def init (tail : Option ℕ) (next : ℕ → Option ℕ) : St where
  rxq := ⟨none, tail, next⟩
  data := fun _ => []
  empty := []
  waiting := []
  woken := []
  ready := []
  wakes := 0
  fault := false
  arrived := []
  taken := []
  returned := []

inductive Act where
  | recv (d : ℕ) (payload : List Byte)   -- the section of `sockrecvudp`
  | wakeup                               -- `ip_app_wq_wakeup_process(si)`
  | call (c : Call)                      -- `mbufq_empty(&si->rxq)`
  | wait (k : ℕ)                         -- `ip_app_add_wq_entry`
  | timeout (k : ℕ)
  | resume (k : ℕ) (late : Bool)         -- a woken call runs; `late`: the time is up all the same
  | pop (k : ℕ)                          -- the section of `sockread`
deriving DecidableEq, Repr

/-- The section of `sockread` and what follows it. -/
def dequeue (s : St) (c : Call) : St :=
  match popHead s.rxq with
  | (none, _) => { s with fault := true }
  | (some d, q) =>
    { s with
      rxq := q
      taken := s.taken ++ [d]
      returned := if c.ok then s.returned ++ [(d, c.n, (s.data d).take c.n)] else s.returned }

/-- One step; `none` where the action is not enabled. A buffer that arrives is a new one. -/
def step (s : St) (a : Act) : Option St :=
  if s.fault then none
  else
    match a with
    | .recv d payload =>
      if d ∈ s.arrived.map Prod.fst then none
      else some { s with
        rxq := pushTail s.rxq d
        data := update s.data d payload
        wakes := s.wakes + 1
        arrived := s.arrived ++ [(d, payload)] }
    | .wakeup =>
      if s.wakes = 0 then none
      else some { s with
        woken := s.woken ++ s.waiting, waiting := [], wakes := s.wakes - 1 }
    | .call c =>
      if s.rxq.head = none then some { s with empty := s.empty ++ [c] }
      else some { s with ready := s.ready ++ [c] }
    | .wait k =>
      s.empty[k]?.map fun c =>
        { s with empty := s.empty.eraseIdx k, waiting := s.waiting ++ [c] }
    | .timeout k => s.waiting[k]?.map fun _ => { s with waiting := s.waiting.eraseIdx k }
    | .resume k late =>
      s.woken[k]?.map fun c =>
        { s with
          woken := s.woken.eraseIdx k
          ready := if late then s.ready else s.ready ++ [c] }
    | .pop k =>
      s.ready[k]?.map fun c => dequeue { s with ready := s.ready.eraseIdx k } c

/-! ## §2  What readers are promised -/

/-- No reader takes the head of an empty queue, and the datagrams returned are different ones
in the order of their arrival, each cut to the reader's length. -/
structure Delivers (s : St) : Prop where
  noFault : s.fault = false
  distinct : (s.arrived.map Prod.fst).Nodup
  order : (s.returned.map Prod.fst).Sublist (s.arrived.map Prod.fst)
  payload : ∀ d n bytes, (d, n, bytes) ∈ s.returned →
    ∃ p, (d, p) ∈ s.arrived ∧ bytes = p.take n

def queued (s : St) : ℕ := s.arrived.length - s.taken.length

/-- A reader is let through to the dequeue, by the test or by a wake-up, only while there are
more datagrams than readers let through. -/
def Room (s : St) : Act → Prop
  | .call _ => s.rxq.head ≠ none → s.ready.length + s.woken.length < queued s
  | .wakeup => s.ready.length + s.woken.length + s.waiting.length ≤ queued s
  | _ => True

instance (s : St) (a : Act) : Decidable (Room s a) := by
  cases a <;> unfold Room <;> infer_instance

/-! ## §3  The queue in all runs -/

/-- The queue holds what has arrived and was not dequeued. -/
structure Inv (s : St) (l : List ℕ) : Prop where
  holds : Holds s.rxq l
  arrived : s.arrived.map Prod.fst = s.taken ++ l
  distinct : (s.arrived.map Prod.fst).Nodup
  data : ∀ d p, (d, p) ∈ s.arrived → s.data d = p
  order : (s.returned.map Prod.fst).Sublist s.taken
  payload : ∀ d n bytes, (d, n, bytes) ∈ s.returned →
    ∃ p, (d, p) ∈ s.arrived ∧ bytes = p.take n

variable {s s' : St} {l : List ℕ} {a : Act}

theorem Inv.queued_eq (h : Inv s l) : queued s = l.length := by
  have hlen := congrArg List.length h.arrived
  rw [List.length_map, List.length_append] at hlen
  unfold queued
  omega

theorem Inv.delivers (h : Inv s l) (hf : s.fault = false) : Delivers s where
  noFault := hf
  distinct := h.distinct
  order := by
    rw [h.arrived]
    exact h.order.trans (List.sublist_append_left _ _)
  payload := h.payload

/-- Readers that only move between the lists leave the queue alone. -/
theorem Inv.of_eq (h : Inv s l) (hq : s'.rxq = s.rxq) (hd : s'.data = s.data)
    (ha : s'.arrived = s.arrived) (ht : s'.taken = s.taken) (hr : s'.returned = s.returned) :
    Inv s' l := by
  obtain ⟨h₁, h₂, h₃, h₄, h₅, h₆⟩ := h
  constructor
  · rw [hq]
    exact h₁
  · rw [ha, ht]
    exact h₂
  · rw [ha]
    exact h₃
  · rw [ha, hd]
    exact h₄
  · rw [hr, ht]
    exact h₅
  · rw [hr, ha]
    exact h₆

theorem Inv.recv {d : ℕ} {payload : List Byte} (h : Inv s l) (hd : d ∉ s.arrived.map Prod.fst) :
    Inv { s with
      rxq := pushTail s.rxq d
      data := update s.data d payload
      wakes := s.wakes + 1
      arrived := s.arrived ++ [(d, payload)] } (l ++ [d]) := by
  have hdl : d ∉ l := by
    intro hm
    apply hd
    rw [h.arrived]
    exact List.mem_append_right _ hm
  constructor
  · exact h.holds.pushTail hdl
  · rw [List.map_append, h.arrived, List.append_assoc]
    rfl
  · rw [List.map_append]
    refine List.nodup_append.mpr ⟨h.distinct, by simp, ?_⟩
    rintro x hx y hy rfl
    rw [List.mem_singleton.mp hy] at hx
    exact hd hx
  · cases h
    grind [update_apply]
  · exact h.order
  · intro e n bytes hm
    obtain ⟨p, hp, hb⟩ := h.payload e n bytes hm
    exact ⟨p, List.mem_append_left _ hp, hb⟩

theorem Inv.dequeue {d : ℕ} {c : Call} (h : Inv s (d :: l)) :
    Inv (dequeue s c) l ∧ (dequeue s c).fault = s.fault ∧
      (dequeue s c).ready = s.ready ∧ (dequeue s c).woken = s.woken := by
  obtain ⟨hpop, hholds⟩ := h.holds.popHead
  have heq : popHead s.rxq = (some d, (popHead s.rxq).2) := Prod.ext hpop rfl
  unfold SockRead.dequeue
  rw [heq]
  have hmem : d ∈ s.arrived.map Prod.fst := by
    rw [h.arrived]
    exact List.mem_append_right _ List.mem_cons_self
  obtain ⟨⟨d', p⟩, hp, rfl⟩ := List.mem_map.mp hmem
  refine ⟨⟨hholds, ?_, h.distinct, h.data, ?_, ?_⟩, rfl, rfl, rfl⟩
  · rw [h.arrived, List.append_assoc]
    rfl
  · dsimp only
    split
    · rw [List.map_append]
      exact h.order.append (List.Sublist.refl _)
    · exact h.order.trans (List.sublist_append_left _ _)
  · intro e n bytes hm
    dsimp only at hm
    split at hm
    · rcases List.mem_append.mp hm with hm | hm
      · exact h.payload e n bytes hm
      · cases List.mem_singleton.mp hm
        exact ⟨p, hp, by rw [h.data _ _ hp]⟩
    · exact h.payload e n bytes hm

/-! ## §4  Runs with room -/

/-- The readers let through do not outnumber the datagrams. -/
structure Served (s : St) : Prop where
  noFault : s.fault = false
  inv : ∃ l, Inv s l ∧ s.ready.length + s.woken.length ≤ l.length

theorem length_eraseIdx_of_get {α : Type*} {xs : List α} {k : ℕ} {x : α} (h : xs[k]? = some x) :
    (xs.eraseIdx k).length + 1 = xs.length := by
  obtain ⟨hk, -⟩ := List.getElem?_eq_some_iff.mp h
  rw [List.length_eraseIdx_of_lt hk]
  omega

theorem served_step (s : St) (a : Act) (s' : St) (h : Served s) (hroom : Room s a)
    (hs : step s a = some s') : Served s' := by
  obtain ⟨hf, l, hinv, hle⟩ := h
  have hq := hinv.queued_eq
  unfold step at hs
  rw [if_neg (by rw [hf]; simp)] at hs
  cases a with
  | recv d payload =>
    dsimp only at hs
    split_ifs at hs with hd
    cases hs
    refine ⟨hf, l ++ [d], hinv.recv hd, ?_⟩
    rw [List.length_append]
    exact Nat.le_trans hle (Nat.le_add_right _ _)
  | wakeup =>
    dsimp only at hs
    split_ifs at hs
    cases hs
    refine ⟨hf, l, hinv.of_eq rfl rfl rfl rfl rfl, ?_⟩
    have hroom : _ ≤ queued s := hroom
    dsimp only
    rw [List.length_append]
    omega
  | call c =>
    dsimp only at hs
    split_ifs at hs with hhead
    · cases hs
      exact ⟨hf, l, hinv.of_eq rfl rfl rfl rfl rfl, hle⟩
    · cases hs
      refine ⟨hf, l, hinv.of_eq rfl rfl rfl rfl rfl, ?_⟩
      have hlt : _ < queued s := hroom hhead
      dsimp only
      rw [List.length_append, List.length_singleton]
      omega
  | wait k =>
    obtain ⟨c, -, rfl⟩ := Option.map_eq_some_iff.mp hs
    exact ⟨hf, l, hinv.of_eq rfl rfl rfl rfl rfl, hle⟩
  | timeout k =>
    obtain ⟨c, -, rfl⟩ := Option.map_eq_some_iff.mp hs
    exact ⟨hf, l, hinv.of_eq rfl rfl rfl rfl rfl, hle⟩
  | resume k late =>
    obtain ⟨c, hc, rfl⟩ := Option.map_eq_some_iff.mp hs
    have hlen := length_eraseIdx_of_get hc
    refine ⟨hf, l, hinv.of_eq rfl rfl rfl rfl rfl, ?_⟩
    dsimp only
    split
    · omega
    · rw [List.length_append, List.length_singleton]
      omega
  | pop k =>
    obtain ⟨c, hc, rfl⟩ := Option.map_eq_some_iff.mp hs
    have hlen := length_eraseIdx_of_get hc
    cases l with
    | nil =>
      rw [List.length_nil] at hle
      omega
    | cons d l =>
      have hinv' : Inv { s with ready := s.ready.eraseIdx k } (d :: l) :=
        hinv.of_eq rfl rfl rfl rfl rfl
      obtain ⟨hinv₁, hfault, hready, hwoken⟩ := hinv'.dequeue (c := c)
      refine ⟨hfault.trans hf, l, hinv₁, ?_⟩
      rw [hready, hwoken]
      rw [List.length_cons] at hle
      dsimp only
      omega

theorem inv_init (tail : Option ℕ) (next : ℕ → Option ℕ) : Inv (init tail next) [] where
  holds := holds_nil tail next
  arrived := rfl
  distinct := List.nodup_nil
  data := by rintro d p ⟨⟩
  order := List.Sublist.refl _
  payload := by rintro d n bytes ⟨⟩

/-- In every run whose steps let no more readers through than there are datagrams, the
promise holds in every state. -/
theorem delivers_run (tail : Option ℕ) (next : ℕ → Option ℕ) (as : List Act)
    (h : Steps step Room (init tail next) as) : Along step Delivers (init tail next) as := by
  have hP : ∀ s, Served s → Delivers s := by
    rintro s ⟨hf, l, hinv, -⟩
    exact hinv.delivers hf
  exact along_of_steps hP served_step ⟨rfl, [], inv_init tail next, Nat.le_refl _⟩ h

/-- A reader that waits, and one that finds a datagram. -/
theorem delivers_run_waits :
    Along step Delivers (init none fun _ => none)
      [.call ⟨4, true⟩, .wait 0, .recv 0 [1, 2], .wakeup, .resume 0 false, .pop 0,
        .recv 1 [3, 4, 5], .call ⟨2, true⟩, .pop 0] :=
  delivers_run none (fun _ => none) _
    (steps_of_check (c := fun s a => decide (Room s a)) (fun _ _ h => of_decide_eq_true h)
      (by decide))

/-- Two readers find the queue not empty, and there is one datagram. -/
theorem not_delivers_twoReaders :
    ¬ Along step Delivers (init none fun _ => none)
      [.recv 0 [1, 2], .call ⟨4, true⟩, .call ⟨4, true⟩, .pop 0, .pop 0] := by
  intro h
  have hrun : (runFrom step (init none fun _ => none)
      [.recv 0 [1, 2], .call ⟨4, true⟩, .call ⟨4, true⟩, .pop 0, .pop 0]).any
      (fun s => s.fault) = true := by
    decide
  obtain ⟨s, hs, hfault⟩ := (Option.any_eq_true _ _).mp hrun
  have hno := (h.last hs).noFault
  rw [hno] at hfault
  cases hfault

end RiscvBm.SockRead

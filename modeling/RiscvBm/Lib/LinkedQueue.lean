import Mathlib.Data.List.Basic

/-!
# Singly linked queues

A queue of nodes with a pointer to the first and one to the last. Taking the last node out
leaves the tail pointer as it is; it is not looked at while the head is null. `Holds q l`
says that `q` contains the nodes `l`, in order.
-/

namespace RiscvBm.LinkedQueue

open Function

variable {ν : Type*}

structure Queue (ν : Type*) where
  head : Option ν
  tail : Option ν
  next : ν → Option ν

/-- Append the node `x`. With a null tail behind a non-null head nothing is linked; `Holds`
excludes that. -/
def pushTail [DecidableEq ν] (q : Queue ν) (x : ν) : Queue ν :=
  let next := update q.next x none
  match q.head with
  | none => ⟨some x, some x, next⟩
  | some _ =>
    match q.tail with
    | none => ⟨q.head, some x, next⟩
    | some t => ⟨q.head, some x, update next t (some x)⟩

/-- Take the first node. -/
def popHead (q : Queue ν) : Option ν × Queue ν :=
  match q.head with
  | none => (none, q)
  | some x => (some x, { q with head := q.next x })

/-- Following `next` from `h` visits `l` and ends. -/
def Chain (next : ν → Option ν) : Option ν → List ν → Prop
  | h, [] => h = none
  | h, x :: l => h = some x ∧ Chain next (next x) l

structure Holds (q : Queue ν) (l : List ν) : Prop where
  chain : Chain q.next q.head l
  nodup : l.Nodup
  tail : ∀ x, l.getLast? = some x → q.tail = some x

variable {q : Queue ν} {l : List ν} {x t : ν} {h : Option ν} {next : ν → Option ν}

/-- Linking `x` behind the last node. -/
theorem Chain.snoc [DecidableEq ν] (hc : Chain next h (l ++ [t])) (ht : t ∉ l) (hx : x ∉ l ++ [t]) :
    Chain (update (update next x none) t (some x)) h (l ++ [t] ++ [x]) := by
  have hxt : x ≠ t := by
    rintro rfl
    exact hx (List.mem_append_right l (List.mem_singleton.mpr rfl))
  induction l generalizing h with
  | nil =>
    refine ⟨hc.1, ?_⟩
    rw [update_self]
    exact ⟨rfl, by rw [update_of_ne hxt, update_self]; rfl⟩
  | cons y l ih =>
    have hy : y ≠ t := fun heq => ht (heq ▸ List.mem_cons_self)
    have hyx : y ≠ x := fun heq => hx (heq ▸ List.mem_cons_self)
    refine ⟨hc.1, ?_⟩
    rw [update_of_ne hy, update_of_ne hyx]
    exact ih hc.2 (fun hm => ht (List.mem_cons_of_mem y hm))
      fun hm => hx (List.mem_cons_of_mem y hm)

theorem holds_nil (t : Option ν) (next : ν → Option ν) : Holds ⟨none, t, next⟩ [] where
  chain := rfl
  nodup := List.nodup_nil
  tail := by rintro x ⟨⟩

theorem Holds.head_eq_none_iff (hq : Holds q l) : q.head = none ↔ l = [] := by
  have hc := hq.chain
  cases l with
  | nil => exact iff_of_true hc rfl
  | cons y l =>
    rw [hc.1]
    simp

theorem Holds.pushTail [DecidableEq ν] (hq : Holds q l) (hx : x ∉ l) :
    Holds (pushTail q x) (l ++ [x]) := by
  have hnodup : (l ++ [x]).Nodup := by
    refine List.nodup_append.mpr ⟨hq.nodup, by simp, ?_⟩
    rintro y hy z hz rfl
    rw [List.mem_singleton.mp hz] at hy
    exact hx hy
  have hc := hq.chain
  unfold LinkedQueue.pushTail
  rcases List.eq_nil_or_concat l with rfl | ⟨l', t, rfl⟩
  · have hh : q.head = none := hc
    rw [hh]
    refine ⟨⟨rfl, update_self _ _ _⟩, hnodup, ?_⟩
    rintro y ⟨⟩
    rfl
  · rw [List.concat_eq_append] at *
    have htail : q.tail = some t := hq.tail t (by simp)
    have hhead : q.head ≠ none := by
      rw [Ne, hq.head_eq_none_iff]
      simp
    obtain ⟨y, hy⟩ := Option.ne_none_iff_exists'.mp hhead
    rw [htail]
    rw [hy] at hc ⊢
    have ht : t ∉ l' := by
      intro hm
      exact (List.nodup_append.mp hq.nodup).2.2 t hm t (List.mem_singleton.mpr rfl) rfl
    refine ⟨hc.snoc ht hx, hnodup, ?_⟩
    intro z hz
    rw [List.getLast?_concat] at hz
    exact hz

theorem Holds.popHead (hq : Holds q (x :: l)) :
    (popHead q).1 = some x ∧ Holds (popHead q).2 l := by
  have hc := hq.chain
  unfold LinkedQueue.popHead
  rw [hc.1]
  refine ⟨rfl, hc.2, (List.nodup_cons.mp hq.nodup).2, ?_⟩
  intro y hy
  apply hq.tail
  rw [List.getLast?_cons, hy]
  rfl

end RiscvBm.LinkedQueue

import RiscvBm.Lib.Chain
import RiscvBm.Vm.Sound
import RiscvBm.Vm.Vma

/-!
# The list of areas and its links (`kernel/mmap.c`)

`Vm.Vma` has the areas of a process as a list. In the source they are structures in memory with
a `vm_next` and a `vm_prev` pointer, and `mm->mmap` points to the first one. This module has
`find_vma`, `insert_vm_struct`, `remove_vma` and `remove_vma_region` over those pointers.

`Shows s l` says that the structures of `s` are linked as the list `l`. Each function is
related to its counterpart on lists, so what is known there holds for the pointers too.
A loop over the links takes the number of rounds that it may make, as nothing else bounds it.
-/

namespace RiscvBm.Vm

open Wp Function

/-! ## §1  Areas in order -/

/-- The areas are ranges, in order and apart. -/
structure Sorted (vs : List Vma) : Prop where
  le : ∀ v ∈ vs, v.vmStart ≤ v.vmEnd
  apart : vs.Pairwise fun v w => v.vmEnd ≤ w.vmStart

/-- An address lies in both areas. -/
def Meets (v w : Vma) : Prop := ∃ a, v.vmStart ≤ a ∧ a < v.vmEnd ∧ w.vmStart ≤ a ∧ a < w.vmEnd

/-- The two areas cannot both stand in a list in order. -/
def Overlap (v w : Vma) : Prop := v.vmStart < w.vmEnd ∧ w.vmStart < v.vmEnd

instance (v w : Vma) : Decidable (Overlap v w) := inferInstanceAs (Decidable (_ ∧ _))

section Lists

variable {addr : ℕ} {prev : Option Vma} {l : List Vma} {v w : Vma}

theorem Meets.overlap (h : Meets v w) : Overlap v w := by
  obtain ⟨a, h₁, h₂, h₃, h₄⟩ := h
  exact ⟨Nat.lt_of_le_of_lt h₁ h₄, Nat.lt_of_le_of_lt h₃ h₂⟩

/-- **The search is for the first area that ends above the address.** What lies before the
current area ends at or below it, so one of the three tests fires at the first such area. -/
theorem findVmaFrom_eq (hle : ∀ v ∈ l, v.vmStart ≤ v.vmEnd) (hprev : ∀ p ∈ prev, p.vmEnd ≤ addr) :
    findVmaFrom addr prev l =
      (l.findIdx? fun v => addr < v.vmEnd).bind fun i => l[i]?.map fun v => (i, v) := by
  induction l generalizing prev with
  | nil => rfl
  | cons v l ih =>
    have hv := hle v List.mem_cons_self
    rw [findVmaFrom, List.findIdx?_cons]
    by_cases habove : addr < v.vmEnd
    · rw [if_pos (decide_eq_true habove)]
      show _ = some (0, v)
      by_cases hstart : v.vmStart ≤ addr
      · rw [if_pos ⟨hstart, habove⟩]
      · rw [if_neg fun h => hstart h.1]
        cases prev with
        | none => rw [if_pos ⟨rfl, Nat.lt_of_not_le hstart⟩]
        | some p =>
          rw [if_neg (by simp), if_pos ⟨⟨p, rfl, hprev p rfl⟩, habove⟩]
    · grind

theorem findVma_eq (hle : ∀ v ∈ l, v.vmStart ≤ v.vmEnd) :
    findVma l addr =
      (l.findIdx? fun v => addr < v.vmEnd).bind fun i => l[i]?.map fun v => (i, v) :=
  findVmaFrom_eq hle fun _ hp => by cases hp

/-- No area before the current one has its end above the start of `w`, or `w` does not end
before the current one. -/
def Passed (w : Vma) (prev : Option Vma) (l : List Vma) : Prop :=
  prev = none ∨ ∀ v ∈ l.head?, v.vmStart < w.vmEnd

/-- One round of the loop: the `continue` of the first case is never taken, as the area before
has taken `w` already. -/
theorem insertVma_cons (hprev : Passed w prev (v :: l)) :
    insertVma w prev (v :: l) = some (w :: v :: l) ∧ w.vmEnd ≤ v.vmStart ∨
      insertVma w prev (v :: l) = some (v :: w :: l) ∧ v.vmStart < w.vmEnd ∧
        (∀ n ∈ l.head?, w.vmEnd ≤ n.vmStart) ∨
      insertVma w prev (v :: l) = (insertVma w (some v) l).map (v :: ·) ∧ v.vmStart < w.vmEnd ∧
        l ≠ [] ∧ Passed w (some v) l := by
  rw [insertVma]
  by_cases hbefore : w.vmEnd ≤ v.vmStart
  · rcases hprev with rfl | hprev
    · rw [if_pos hbefore, if_neg (by simp)]
      exact Or.inl ⟨rfl, hbefore⟩
    · exact absurd (hprev v rfl) (Nat.not_lt.mpr hbefore)
  · rw [if_neg hbefore]
    have hlt := Nat.lt_of_not_le hbefore
    by_cases hnext : ∃ n ∈ l.head?, w.vmEnd > n.vmStart
    · rw [if_pos hnext]
      obtain ⟨n, hn, hgt⟩ := hnext
      refine Or.inr (Or.inr ⟨rfl, hlt, ?_, Or.inr ?_⟩)
      · rintro rfl
        cases hn
      · intro u hu
        cases Option.mem_unique hu hn
        exact hgt
    · rw [if_neg hnext]
      refine Or.inr (Or.inl ⟨rfl, hlt, ?_⟩)
      intro n hn
      exact Nat.le_of_not_lt fun hgt => hnext ⟨n, hn, hgt⟩

/-- An area is always put somewhere: behind areas that start before its end, and in front of one
that does not. -/
theorem insertVma_spec (hl : l ≠ []) (hprev : Passed w prev l) :
    ∃ l₁ l₂, l = l₁ ++ l₂ ∧ insertVma w prev l = some (l₁ ++ w :: l₂) ∧
      (∀ v ∈ l₁, v.vmStart < w.vmEnd) ∧ ∀ v ∈ l₂.head?, w.vmEnd ≤ v.vmStart := by
  induction l generalizing prev with
  | nil => exact absurd rfl hl
  | cons v l ih =>
    rcases insertVma_cons hprev with ⟨heq, hle⟩ | ⟨heq, hlt, hnext⟩ | ⟨heq, hlt, hne, hpassed⟩
    · refine ⟨[], v :: l, rfl, heq, fun _ hu => (List.not_mem_nil hu).elim, ?_⟩
      rintro u ⟨⟩
      exact hle
    · exact ⟨[v], l, rfl, heq, by simpa using hlt, hnext⟩
    · obtain ⟨l₁, l₂, rfl, hins, hbefore, hafter⟩ := ih hne hpassed
      refine ⟨v :: l₁, l₂, rfl, ?_, List.forall_mem_cons.mpr ⟨hlt, hbefore⟩, hafter⟩
      rw [heq, hins]
      rfl

/-- What starts behind the first area starts behind them all. -/
theorem Sorted.le_start {a : ℕ} (h : Sorted l) (hhead : ∀ v ∈ l.head?, a ≤ v.vmStart) :
    ∀ v ∈ l, a ≤ v.vmStart := by
  cases l with
  | nil => exact fun _ hv => (List.not_mem_nil hv).elim
  | cons u l =>
    have hu := hhead u rfl
    intro v hv
    rcases List.mem_cons.mp hv with rfl | hv
    · exact hu
    · have hle := h.le u List.mem_cons_self
      have huv := (List.pairwise_cons.mp h.apart).1 v hv
      omega

theorem mem_insertVmStruct (hv : v ∈ insertVmStruct l w) : v = w ∨ v ∈ l := by
  unfold insertVmStruct at hv
  split at hv
  · exact Or.inl (List.mem_singleton.mp hv)
  · next hne =>
      obtain ⟨l₁, l₂, rfl, hins, -⟩ := @insertVma_spec none l w hne (Or.inl rfl)
      rw [hins, Option.getD_some] at hv
      simpa [or_left_comm] using hv

/-- Where nothing overlaps, the area is put in order. -/
theorem sorted_insertVma {l' : List Vma} (hl : Sorted l) (hw : w.vmStart ≤ w.vmEnd)
    (hno : ∀ v ∈ l, ¬ Overlap v w) (hne : l ≠ []) (hins : insertVma w none l = some l') :
    Sorted l' := by
  obtain ⟨l₁, l₂, rfl, heq, hbefore, hafter⟩ := @insertVma_spec none l w hne (Or.inl rfl)
  cases heq.symm.trans hins
  obtain ⟨hle₁, hle₂⟩ := List.forall_mem_append.mp hl.le
  obtain ⟨h₁, h₂, h₁₂⟩ := List.pairwise_append.mp hl.apart
  have hright := Sorted.le_start ⟨hle₂, h₂⟩ hafter
  refine ⟨List.forall_mem_append.mpr ⟨hle₁, List.forall_mem_cons.mpr ⟨hw, hle₂⟩⟩,
    List.pairwise_append.mpr ⟨h₁, List.pairwise_cons.mpr ⟨hright, h₂⟩, fun v hv u hu => ?_⟩⟩
  rcases List.mem_cons.mp hu with rfl | hu
  · -- an area that starts before the end of `w` ends before its start
    exact Nat.le_of_not_lt fun hlt => hno v (List.mem_append_left _ hv) ⟨hbefore v hv, hlt⟩
  · exact h₁₂ v hv u hu

end Lists

/-! ## §2  The structures -/

/-- `struct vm_area_struct`, with its links. -/
structure VmArea extends Vma where
  vmNext : Option ℕ
  vmPrev : Option ℕ
deriving DecidableEq, Repr

/-- The structures of one address space. -/
structure Structs where
  area : ℕ → VmArea
  /-- `mm->mmap` -/
  mmap : Option ℕ
  /-- what `vm_area_free` was called with, the last one first -/
  freed : List ℕ

namespace Structs

def vma (s : Structs) (p : ℕ) : Vma := (s.area p).toVma

def links (s : Structs) : Chain.Links ℕ := ⟨fun p => (s.area p).vmNext, fun p => (s.area p).vmPrev⟩

/-- The list at `mm->mmap` is linked correctly, and its areas are those of `l`. -/
def Shows (s : Structs) (l : List ℕ) : Prop := Chain.IsList s.links s.mmap l

def setNext (s : Structs) (p : ℕ) (n : Option ℕ) : Structs :=
  { s with area := update s.area p { s.area p with vmNext := n } }

def setPrev (s : Structs) (p : ℕ) (n : Option ℕ) : Structs :=
  { s with area := update s.area p { s.area p with vmPrev := n } }

/-! ### `find_vma` -/

/-- The loop of `find_vma`; `none` if the rounds do not suffice. -/
def findVmaLoop (s : Structs) (addr : ℕ) : ℕ → Option ℕ → Option (Option ℕ)
  | _, none => some none
  | 0, some _ => none
  | rounds + 1, some p =>
    let v := s.area p
    if v.vmStart ≤ addr ∧ v.vmEnd > addr then some (some p)
    else if v.vmPrev = none ∧ addr < v.vmStart then some (some p)
    else if (∃ q ∈ v.vmPrev, (s.area q).vmEnd ≤ addr) ∧ v.vmEnd > addr then some (some p)
    else findVmaLoop s addr rounds v.vmNext

def findVma (s : Structs) (rounds addr : ℕ) : Option (Option ℕ) :=
  findVmaLoop s addr rounds s.mmap

def findVmaIntersection (s : Structs) (rounds startAddr endAddr : ℕ) : Option (Option ℕ) := do
  match ← findVma s rounds startAddr with
  | none => some none
  | some p => if endAddr ≤ (s.area p).vmStart then some none else some (some p)

/-! ### `insert_vm_struct` -/

/-- The first case: `prev | vma | v`. -/
def insertBefore (s : Structs) (vma v : ℕ) : Structs :=
  let prev := (s.area v).vmPrev
  let s := ((s.setNext vma (some v)).setPrev vma prev).setPrev v (some vma)
  match prev with
  | some p => s.setNext p (some vma)
  | none => { s with mmap := some vma }

/-- The second case: `v | vma | next`. -/
def insertAfter (s : Structs) (vma v : ℕ) : Structs :=
  let next := (s.area v).vmNext
  let s := ((s.setNext v (some vma)).setPrev vma (some v)).setNext vma next
  match next with
  | some n => s.setPrev n (some vma)
  | none => s

def enomem : ℤ := 12

/-- The loop of `insert_vm_struct`, with the return value. -/
def insertLoop (s : Structs) (vma : ℕ) : ℕ → Option ℕ → Option (ℤ × Structs)
  | _, none => some (-enomem, s)
  | 0, some _ => none
  | rounds + 1, some p =>
    let w := s.area vma
    let v := s.area p
    if w.vmEnd ≤ v.vmStart then
      if ∃ q ∈ v.vmPrev, (s.area q).vmEnd > w.vmStart then insertLoop s vma rounds v.vmNext
      else some (0, s.insertBefore vma p)
    else if ∃ q ∈ v.vmNext, w.vmEnd > (s.area q).vmStart then insertLoop s vma rounds v.vmNext
    else some (0, s.insertAfter vma p)

def insertVmStruct (s : Structs) (rounds vma : ℕ) : Option (ℤ × Structs) :=
  match s.mmap with
  | none => some (0, ({ s with mmap := some vma }.setNext vma none).setPrev vma none)
  | some p => insertLoop s vma rounds (some p)

end Structs

/-! ## §3  Searching -/

section Find

variable {s : Structs} {done rest l : List ℕ} {rounds addr p : ℕ}

theorem Structs.Shows.links_at (h : s.Shows (done ++ p :: rest)) :
    (s.area p).vmPrev = done.getLast? ∧ (s.area p).vmNext = rest.head? :=
  h.split done p rest rfl

/-- The search along the links is the one along the list. -/
theorem Structs.Shows.findVmaLoop (h : s.Shows (done ++ rest)) (hrounds : rest.length ≤ rounds) :
    s.findVmaLoop addr rounds rest.head? =
      some ((findVmaFrom addr (done.getLast?.map s.vma) (rest.map s.vma)).bind
        fun r => rest[r.1]?) := by
  induction rest generalizing done rounds with
  | nil =>
    unfold Structs.findVmaLoop
    cases rounds <;> rfl
  | cons p rest ih =>
    obtain ⟨hprev, hnext⟩ := h.links_at
    cases rounds with
    | zero => exact absurd hrounds (Nat.not_succ_le_zero _)
    | succ rounds =>
      have hrest : s.Shows ((done ++ [p]) ++ rest) := by simpa using h
      have hstep := ih hrest (Nat.le_of_succ_le_succ hrounds)
      have hnone : done.getLast? = none ↔ done.getLast?.map s.vma = none := by simp
      have hexists : (∃ q ∈ done.getLast?, (s.area q).vmEnd ≤ addr) ↔
          ∃ v ∈ done.getLast?.map s.vma, v.vmEnd ≤ addr := by
        simp [Structs.vma]
      have hlast : (done ++ [p]).getLast?.map s.vma = some (s.vma p) := by simp
      have hv : s.vma p = (s.area p).toVma := rfl
      rw [hlast, hv] at hstep
      rw [List.map_cons, findVmaFrom, List.head?_cons, Structs.findVmaLoop]
      simp only [hprev, hnext, hnone, hexists, hv]
      split_ifs
      · rfl
      · rfl
      · rfl
      · rw [hstep]
        cases findVmaFrom addr (some (s.area p).toVma) (rest.map s.vma) with
        | none => rfl
        | some r => simp

/-- What `find_vma` answers on areas that are ranges. -/
theorem Structs.Shows.findVma (h : s.Shows l) (hle : ∀ p ∈ l, (s.vma p).vmStart ≤ (s.vma p).vmEnd)
    (hrounds : l.length ≤ rounds) :
    s.findVma rounds addr = some (l.find? fun p => addr < (s.vma p).vmEnd) := by
  have hloop := @Structs.Shows.findVmaLoop s [] l rounds addr h hrounds
  rw [Structs.findVma, h.head, hloop, List.getLast?_nil, Option.map_none]
  have heq := @findVma_eq addr (l.map s.vma) (by simpa using hle)
  rw [Vm.findVma] at heq
  rw [heq, List.findIdx?_map, List.find?_eq_bind_findIdx?_getElem?]
  congr 1
  show (Option.bind (l.findIdx? fun p => addr < (s.vma p).vmEnd) _).bind _ = _
  cases hi : l.findIdx? fun p => addr < (s.vma p).vmEnd with
  | none => rfl
  | some i =>
    have hlt := (List.findIdx?_eq_some_iff_getElem.mp hi).1
    simp [hlt]

/-- **`find_vma` meets its contract**, and `find_vma_intersection` with it. -/
theorem findVma_contract (h : s.Shows l) (hsorted : Sorted (l.map s.vma))
    (hne : ∀ p ∈ l, (s.vma p).vmStart < (s.vma p).vmEnd) (hrounds : l.length ≤ rounds) :
    s.findVma rounds addr = some (l.find? fun p => addr < (s.vma p).vmEnd) ∧
      (∀ p ∈ l, (s.vma p).vmStart ≤ addr → addr < (s.vma p).vmEnd →
        s.findVma rounds addr = some (some p)) ∧
      (s.findVma rounds addr = some none ↔ ∀ p ∈ l, (s.vma p).vmEnd ≤ addr) ∧
      ∀ last, addr < last →
        (∀ p, s.findVmaIntersection rounds addr last = some (some p) ↔
          s.findVma rounds addr = some (some p) ∧ Meets (s.vma p) ⟨addr, last, 0⟩) ∧
        ∃ r, s.findVmaIntersection rounds addr last = some r := by
  have hfind := @Structs.Shows.findVma s l rounds addr h
    (fun p hp => Nat.le_of_lt (hne p hp)) hrounds
  refine ⟨hfind, ?_, ?_, ?_⟩
  · intro p hp hstart hend
    rw [hfind, Option.some.injEq]
    obtain ⟨l₁, l₂, rfl⟩ := List.append_of_mem hp
    have hbefore : ∀ q ∈ l₁, ¬ (decide (addr < (s.vma q).vmEnd) = true) := by
      intro q hq hlt
      rw [List.map_append, List.map_cons] at hsorted
      have hqp := (List.pairwise_append.mp hsorted.apart).2.2 (s.vma q)
        (List.mem_map_of_mem hq) (s.vma p) List.mem_cons_self
      have hlt : addr < (s.vma q).vmEnd := of_decide_eq_true hlt
      omega
    rw [List.find?_append, List.find?_eq_none.mpr hbefore, Option.none_or]
    simp [hend]
  · rw [hfind, Option.some.injEq, List.find?_eq_none]
    simp
  · intro last hlt
    unfold Structs.findVmaIntersection
    rw [hfind]
    cases hfound : l.find? fun p => addr < (s.vma p).vmEnd with
    | none => exact ⟨fun p => by simp, none, rfl⟩
    | some q =>
      have hend : addr < (s.vma q).vmEnd := by simpa using List.find?_some hfound
      have hq := hne q (List.mem_of_find?_eq_some hfound)
      have hmeets : Meets (s.vma q) ⟨addr, last, 0⟩ ↔ ¬ last ≤ (s.area q).vmStart := by
        constructor
        · rintro ⟨a, h₁, -, -, h₄⟩
          exact Nat.not_le.mpr (Nat.lt_of_le_of_lt h₁ h₄)
        · intro hgt
          refine ⟨max addr (s.vma q).vmStart, ?_⟩
          have hstart : (s.vma q).vmStart < last := Nat.lt_of_not_le hgt
          simp only [Nat.max_def]
          split <;> omega
      show (∀ p, (if last ≤ (s.area q).vmStart then some none else some (some q)) = _ ↔ _) ∧
        ∃ r, (if last ≤ (s.area q).vmStart then some none else some (some q)) = some r
      by_cases hle : last ≤ (s.area q).vmStart
      · simp only [if_pos hle]
        refine ⟨fun p => ?_, none, rfl⟩
        constructor
        · intro heq
          cases heq
        · rintro ⟨heq, hmeet⟩
          cases heq
          exact absurd hle (hmeets.mp hmeet)
      · simp only [if_neg hle]
        refine ⟨fun p => ?_, some q, rfl⟩
        constructor
        · intro heq
          cases heq
          exact ⟨rfl, hmeets.mpr hle⟩
        · exact fun heq => heq.1

/-- Two areas with a gap between them, and a third one that is not linked yet. -/
def twoStructs (w : Vma) : Structs where
  area p :=
    if p = 1 then ⟨⟨0x1000, 0x3000, 0⟩, some 2, none⟩
    else if p = 2 then ⟨⟨0x5000, 0x6000, 0⟩, none, some 1⟩
    else ⟨w, none, none⟩
  mmap := some 1
  freed := []

theorem shows_twoStructs (w : Vma) : (twoStructs w).Shows [1, 2] := by
  have hlinks : Chain.Threaded (twoStructs w).links none [1, 2] := ⟨rfl, rfl, rfl, rfl, trivial⟩
  exact Chain.isList_of_threaded (by decide) hlinks

theorem sorted_twoStructs (w : Vma) : Sorted ([1, 2].map (twoStructs w).vma) := by
  have heq : [1, 2].map (twoStructs w).vma = [⟨0x1000, 0x3000, 0⟩, ⟨0x5000, 0x6000, 0⟩] := rfl
  rw [heq]
  exact ⟨by decide, by decide⟩

/-- An address in the gap leads to the area above it. -/
theorem findVma_contract_gap :
    (twoStructs ⟨0, 1, 0⟩).findVma 2 0x4000 = some (some 2) ∧
      (twoStructs ⟨0, 1, 0⟩).findVmaIntersection 2 0x4000 0x5000 = some none := by
  obtain ⟨hfind, -, -, hmeets⟩ := @findVma_contract (twoStructs ⟨0, 1, 0⟩) [1, 2] 2 0x4000
    (shows_twoStructs _) (sorted_twoStructs _) (by decide) (by decide)
  obtain ⟨hiff, r, hr⟩ := hmeets 0x5000 (by decide)
  refine ⟨hfind, ?_⟩
  cases r with
  | none => exact hr
  | some p =>
    obtain ⟨hp, a, h₁, -, -, h₄⟩ := (hiff p).mp hr
    cases hfind.symm.trans hp
    exact absurd h₄ (Nat.not_lt.mpr h₁)

end Find

/-! ## §4  Insertion -/

section Insert

variable {s s' : Structs} {done rest l : List ℕ} {rounds vma v p q : ℕ} {n : Option ℕ}

/-- A field that the assignment to one structure does not touch. -/
theorem Structs.field_update {β : Type} (π : VmArea → β) {f : ℕ → VmArea} {a : VmArea}
    (ha : π a = π (f p)) : π (update f p a q) = π (f q) := by
  by_cases hqp : q = p
  · rw [hqp, update_self, ha]
  · rw [update_of_ne hqp]

@[simp] theorem Structs.vma_setNext : (s.setNext p n).vma q = s.vma q :=
  Structs.field_update VmArea.toVma rfl

@[simp] theorem Structs.vma_setPrev : (s.setPrev p n).vma q = s.vma q :=
  Structs.field_update VmArea.toVma rfl

@[simp, grind =] theorem Structs.next_setNext :
    (s.setNext p n).links.next q = if q = p then n else s.links.next q := by
  unfold Structs.setNext Structs.links
  by_cases hqp : q = p
  · simp [hqp]
  · simp [hqp]

@[simp, grind =] theorem Structs.prev_setNext : (s.setNext p n).links.prev q = s.links.prev q :=
  Structs.field_update VmArea.vmPrev rfl

@[simp, grind =] theorem Structs.next_setPrev : (s.setPrev p n).links.next q = s.links.next q :=
  Structs.field_update VmArea.vmNext rfl

@[simp, grind =] theorem Structs.prev_setPrev :
    (s.setPrev p n).links.prev q = if q = p then n else s.links.prev q := by
  unfold Structs.setPrev Structs.links
  by_cases hqp : q = p
  · simp [hqp]
  · simp [hqp]

@[simp, grind =] theorem Structs.links_setMmap :
    ({ s with mmap := n } : Structs).links = s.links := rfl

@[simp] theorem Structs.vma_setMmap : ({ s with mmap := n } : Structs).vma q = s.vma q := rfl

@[simp, grind =] theorem Structs.links_setFreed {ps : List ℕ} :
    ({ s with freed := ps } : Structs).links = s.links := rfl

@[simp] theorem Structs.vma_setFreed {ps : List ℕ} :
    ({ s with freed := ps } : Structs).vma q = s.vma q := rfl

/-- The assignments of the first case. -/
theorem Structs.inserted_insertBefore (hv : vma ≠ v) (hprev : (s.area v).vmPrev ≠ some vma) :
    Chain.Inserted s.links (s.area v).vmPrev (some v) vma (s.insertBefore vma v).links := by
  unfold Structs.insertBefore
  cases hp : (s.area v).vmPrev with
  | none => constructor <;> intros <;> grind
  | some p => constructor <;> intros <;> grind

theorem Structs.inserted_insertAfter (hv : vma ≠ v) (hnext : (s.area v).vmNext ≠ some vma) :
    Chain.Inserted s.links (some v) (s.area v).vmNext vma (s.insertAfter vma v).links := by
  unfold Structs.insertAfter
  cases hn : (s.area v).vmNext with
  | none => constructor <;> intros <;> grind
  | some p => constructor <;> intros <;> grind

theorem Structs.mmap_insertBefore :
    (s.insertBefore vma v).mmap = if (s.area v).vmPrev = none then some vma else s.mmap := by
  unfold Structs.insertBefore
  cases (s.area v).vmPrev <;> rfl

theorem Structs.mmap_insertAfter : (s.insertAfter vma v).mmap = s.mmap := by
  unfold Structs.insertAfter
  cases (s.area v).vmNext <;> rfl

theorem Structs.vma_insertBefore : (s.insertBefore vma v).vma = s.vma := by
  funext q
  unfold Structs.insertBefore
  cases (s.area v).vmPrev <;> simp

theorem Structs.vma_insertAfter : (s.insertAfter vma v).vma = s.vma := by
  funext q
  unfold Structs.insertAfter
  cases (s.area v).vmNext <;> simp

/-- The structure `vma` has been put between `l₁` and `l₂`; the areas are as before. -/
structure Puts (s : Structs) (vma : ℕ) (l₁ l₂ : List ℕ) (s' : Structs) : Prop where
  shows : s'.Shows (l₁ ++ vma :: l₂)
  vma_eq : s'.vma = s.vma

theorem Structs.Shows.insertBefore (h : s.Shows (done ++ v :: rest))
    (hvma : vma ∉ done ++ v :: rest) : Puts s vma done (v :: rest) (s.insertBefore vma v) := by
  obtain ⟨hprev, -⟩ := h.links_at
  have hne : vma ≠ v := by
    rintro rfl
    exact hvma (by simp)
  have hlast : done.getLast? ≠ some vma := by
    intro hlast
    exact hvma (List.mem_append_left _ (List.mem_of_getLast? hlast))
  refine ⟨Chain.IsList.insert h hvma ?_ ?_, Structs.vma_insertBefore⟩
  · rw [← hprev]
    exact Structs.inserted_insertBefore hne (hprev ▸ hlast)
  · rw [Structs.mmap_insertBefore, hprev]
    simp only [List.getLast?_eq_none_iff]

theorem Structs.Shows.insertAfter (h : s.Shows (done ++ v :: rest))
    (hvma : vma ∉ done ++ v :: rest) : Puts s vma (done ++ [v]) rest (s.insertAfter vma v) := by
  obtain ⟨-, hnext⟩ := h.links_at
  have hne : vma ≠ v := by
    rintro rfl
    exact hvma (by simp)
  have hhead : rest.head? ≠ some vma := by
    intro hhead
    exact hvma (List.mem_append_right _ (List.mem_cons_of_mem v (List.mem_of_head? hhead)))
  have hassoc : done ++ v :: rest = (done ++ [v]) ++ rest := by simp
  rw [hassoc] at h hvma
  refine ⟨Chain.IsList.insert h hvma ?_ ?_, Structs.vma_insertAfter⟩
  · rw [← hnext, List.getLast?_concat]
    exact Structs.inserted_insertAfter hne (hnext ▸ hhead)
  · rw [Structs.mmap_insertAfter, if_neg (by simp)]

/-- The insertion into the areas of `rest` behind `done` gives `ins`, and the loop gives `run`. -/
def LoopInserts (s : Structs) (vma : ℕ) (done rest : List ℕ) (ins : Option (List Vma))
    (run : Option (ℤ × Structs)) : Prop :=
  ins = none ∧ run = some (-Structs.enomem, s) ∨
    ∃ s' l₁ l₂, rest = l₁ ++ l₂ ∧ ins = some ((l₁ ++ vma :: l₂).map s.vma) ∧ run = some (0, s') ∧
      Puts s vma (done ++ l₁) l₂ s'

theorem LoopInserts.cons {ins : Option (List Vma)} {run : Option (ℤ × Structs)}
    (h : LoopInserts s vma (done ++ [p]) rest ins run) :
    LoopInserts s vma done (p :: rest) (ins.map (s.vma p :: ·)) run := by
  rcases h with ⟨rfl, hrun⟩ | ⟨s', l₁, l₂, rfl, rfl, hrun, hputs⟩
  · exact Or.inl ⟨rfl, hrun⟩
  · exact Or.inr ⟨s', p :: l₁, l₂, rfl, rfl, hrun, by simpa using hputs⟩

/-- The insertion along the links is the one into the list. -/
theorem Structs.Shows.insertLoop (h : s.Shows (done ++ rest)) (hvma : vma ∉ done ++ rest)
    (hrounds : rest.length ≤ rounds) :
    LoopInserts s vma done rest
      (insertVma (s.vma vma) (done.getLast?.map s.vma) (rest.map s.vma))
      (s.insertLoop vma rounds rest.head?) := by
  induction rest generalizing done rounds with
  | nil =>
    refine Or.inl ⟨rfl, ?_⟩
    cases rounds <;> rfl
  | cons p rest ih =>
    cases rounds with
    | zero => exact absurd hrounds (Nat.not_succ_le_zero _)
    | succ rounds =>
      obtain ⟨hprev, hnext⟩ := h.links_at
      have hassoc : done ++ p :: rest = (done ++ [p]) ++ rest := by simp
      have hcontinue := (ih (hassoc ▸ h) (hassoc ▸ hvma) (Nat.le_of_succ_le_succ hrounds)).cons
      have hv : ∀ q, s.vma q = (s.area q).toVma := fun _ => rfl
      have hlast : (done ++ [p]).getLast?.map s.vma = some (s.vma p) := by simp
      rw [hlast] at hcontinue
      have hexists : (∃ q ∈ done.getLast?, (s.area q).vmEnd > (s.area vma).vmStart) ↔
          ∃ u ∈ done.getLast?.map s.vma, u.vmEnd > (s.vma vma).vmStart := by
        simp [hv]
      have hexists' : (∃ q ∈ rest.head?, (s.area vma).vmEnd > (s.area q).vmStart) ↔
          ∃ u ∈ (rest.map s.vma).head?, (s.vma vma).vmEnd > u.vmStart := by
        simp [hv, List.head?_map]
      rw [List.map_cons, insertVma, List.head?_cons, Structs.insertLoop]
      simp only [hprev, hnext, hexists, hexists']
      by_cases hbefore : (s.vma vma).vmEnd ≤ (s.vma p).vmStart
      · have hbefore' : (s.area vma).vmEnd ≤ (s.area p).vmStart := hbefore
        simp only [if_pos hbefore, if_pos hbefore']
        split
        · exact hcontinue
        · exact Or.inr ⟨s.insertBefore vma p, [], p :: rest, rfl, rfl, rfl, by
            simpa using h.insertBefore hvma⟩
      · have hbefore' : ¬ (s.area vma).vmEnd ≤ (s.area p).vmStart := hbefore
        simp only [if_neg hbefore, if_neg hbefore']
        split
        · exact hcontinue
        · exact Or.inr ⟨s.insertAfter vma p, [p], rest, rfl, rfl, rfl, h.insertAfter hvma⟩

/-- `insert_vm_struct` puts the structure somewhere in any list: it knows no failure. -/
theorem Structs.Shows.insertVmStruct (h : s.Shows l) (hvma : vma ∉ l)
    (hrounds : l.length ≤ rounds) :
    ∃ s' l₁ l₂, l = l₁ ++ l₂ ∧ s.insertVmStruct rounds vma = some (0, s') ∧ Puts s vma l₁ l₂ s' ∧
      (l ≠ [] → insertVma (s.vma vma) none (l.map s.vma) = some ((l₁ ++ vma :: l₂).map s.vma)) := by
  cases l with
  | nil =>
    have hmmap : s.mmap = none := h.head
    refine ⟨_, [], [], rfl, by rw [Structs.insertVmStruct, hmmap], ⟨?_, ?_⟩,
      fun hne => absurd rfl hne⟩
    · apply Chain.isList_of_threaded (List.nodup_singleton vma)
      exact ⟨by simp, by simp, trivial⟩
    · funext q
      simp
  | cons p l =>
    have hmmap : s.mmap = some p := h.head
    rw [Structs.insertVmStruct, hmmap]
    rcases @Structs.Shows.insertLoop s [] (p :: l) rounds vma h hvma hrounds with
      ⟨hnone, -⟩ | ⟨s', l₁, l₂, hl, hins, hrun, hputs⟩
    · obtain ⟨l₁, l₂, -, hsome, -⟩ := @insertVma_spec none _ (s.vma vma)
        (List.cons_ne_nil (s.vma p) (l.map s.vma)) (Or.inl rfl)
      cases hsome.symm.trans hnone
    · exact ⟨s', l₁, l₂, hl, hrun, hputs, fun _ => hins⟩

/-- What `insert_vm_struct` should do: put the area in order, or refuse it and change nothing. -/
structure Inserts (s : Structs) (l : List ℕ) (vma rounds : ℕ) : Prop where
  apart : (∀ p ∈ l, ¬ Meets (s.vma p) (s.vma vma)) → ∃ s' l₁ l₂, l = l₁ ++ l₂ ∧
    s.insertVmStruct rounds vma = some (0, s') ∧ Puts s vma l₁ l₂ s' ∧
      Sorted ((l₁ ++ vma :: l₂).map s.vma)
  meets : (∃ p ∈ l, Meets (s.vma p) (s.vma vma)) →
    ∃ e < 0, s.insertVmStruct rounds vma = some (e, s)

/-- **`insert_vm_struct` is right exactly when nothing overlaps.** It compares the new area with
the start of its neighbours only, and always inserts it. -/
theorem inserts_iff_noOverlap (h : s.Shows l) (hsorted : Sorted (l.map s.vma)) (hvma : vma ∉ l)
    (hne : (s.vma vma).vmStart < (s.vma vma).vmEnd) (hrounds : l.length ≤ rounds) :
    Inserts s l vma rounds ↔ ∀ p ∈ l, ¬ Overlap (s.vma p) (s.vma vma) := by
  obtain ⟨s', l₁, l₂, hl, hrun, hputs, hins⟩ := h.insertVmStruct hvma hrounds
  constructor
  · intro hinserts p hp hover
    by_cases hmeets : ∃ p ∈ l, Meets (s.vma p) (s.vma vma)
    · -- it should have refused
      obtain ⟨e, he, hrun'⟩ := hinserts.meets hmeets
      cases hrun.symm.trans hrun'
      exact absurd he (by decide)
    · -- an empty area inside the new one: there is no order for the two
      have hapart : ∀ p ∈ l, ¬ Meets (s.vma p) (s.vma vma) :=
        fun p hp hmeet => hmeets ⟨p, hp, hmeet⟩
      obtain ⟨s'', l₁', l₂', hl', -, -, hsorted'⟩ := hinserts.apart hapart
      rw [List.map_append, List.map_cons] at hsorted'
      obtain ⟨-, hright, hleft⟩ := List.pairwise_append.mp hsorted'.apart
      rw [hl'] at hp
      rcases List.mem_append.mp hp with hp | hp
      · have hle := hleft (s.vma p) (List.mem_map_of_mem hp) (s.vma vma) List.mem_cons_self
        exact absurd hover.2 (Nat.not_lt.mpr hle)
      · have hle := (List.pairwise_cons.mp hright).1 (s.vma p) (List.mem_map_of_mem hp)
        exact absurd hover.1 (Nat.not_lt.mpr hle)
  · intro hno
    constructor
    · intro _
      refine ⟨s', l₁, l₂, hl, hrun, hputs, ?_⟩
      by_cases hnil : l = []
      · obtain ⟨rfl, rfl⟩ := List.append_eq_nil_iff.mp (hl.symm.trans hnil)
        exact ⟨by simpa using Nat.le_of_lt hne, List.pairwise_singleton ..⟩
      · have hno' : ∀ v ∈ l.map s.vma, ¬ Overlap v (s.vma vma) := by simpa using hno
        exact sorted_insertVma hsorted (Nat.le_of_lt hne) hno' (by simpa using hnil) (hins hnil)
    · rintro ⟨p, hp, hmeets⟩
      exact absurd hmeets.overlap (hno p hp)

/-- There is room between the two areas. -/
theorem inserts_gap : Inserts (twoStructs ⟨0x3000, 0x5000, 0⟩) [1, 2] 3 2 :=
  (inserts_iff_noOverlap (shows_twoStructs _) (sorted_twoStructs _) (by decide) (by decide)
    (by decide)).mpr (by decide)

/-- An area that begins inside the first one is put behind it. -/
theorem not_inserts_overlap :
    ¬ Inserts (twoStructs ⟨0x2000, 0x4000, 0⟩) [1, 2] 3 2 ∧
      ((twoStructs ⟨0x2000, 0x4000, 0⟩).insertVmStruct 2 3).map Prod.fst = some 0 := by
  have hzero : ((twoStructs ⟨0x2000, 0x4000, 0⟩).insertVmStruct 2 3).map Prod.fst = some 0 := by
    decide
  refine ⟨?_, hzero⟩
  intro h
  have hmeets : Meets ((twoStructs ⟨0x2000, 0x4000, 0⟩).vma 1)
      ((twoStructs ⟨0x2000, 0x4000, 0⟩).vma 3) :=
    ⟨0x2000, by decide⟩
  obtain ⟨e, he, hrun⟩ := h.meets ⟨1, by decide, hmeets⟩
  rw [hrun] at hzero
  cases hzero
  exact absurd he (by decide)

end Insert

/-! ## §5  Removal -/

/-- `remove_vma`: the area behind the removed one is written to even if there is none. -/
def Structs.removeVma (vma : ℕ) : Prog Structs Panic (Option ℕ) := do
  let s ← get
  let next := (s.area vma).vmNext
  match (s.area vma).vmPrev with
  | none => do
    modify fun s => { s with mmap := next }
    match next with
    | some n => modify fun s => s.setPrev n none
    | none => pure ()
  | some p => do
    modify fun s => s.setNext p next
    let s ← get
    match (s.area vma).vmNext with
    | some n => modify fun s => s.setPrev n (some p)
    | none => throw .nullPointer
  modify fun s => { s with freed := vma :: s.freed }
  pure next

/-- An address space: the structures and the memory. -/
structure Space where
  areas : Structs
  mem : Mem

def Space.areasPart : Part Space Structs := ⟨Space.areas, fun o s => { o with areas := s }⟩
def Space.memPart : Part Space Mem := ⟨Space.mem, fun o m => { o with mem := m }⟩

section RemoveRegion

variable (alloc : Mem → ℕ) (r : ℕ)

/-- The body of the loop of `remove_vma_region`, with `unmap_region`. -/
def removeInside (start last tmp : ℕ) : Prog Space Panic Unit := do
  let o ← get
  let v := o.areas.vma tmp
  if v.vmStart ≥ start ∧ v.vmEnd ≤ last then do
    zoom Space.memPart (unmapValidpages alloc r v.vmStart ((v.vmEnd - v.vmStart) / pgsize))
    let _ ← zoom Space.areasPart (Structs.removeVma tmp)
    pure ()
  else pure ()

/-- The loop of `remove_vma_region`; `false` if the rounds do not suffice. -/
def removeLoop (head : Option ℕ) (start last : ℕ) : ℕ → Option ℕ → Prog Space Panic Bool
  | _, none => pure true
  | 0, some _ => pure false
  | rounds + 1, some tmp => do
    removeInside alloc r start last tmp
    if some tmp = head then pure true
    else do
      let o ← get
      removeLoop head start last rounds (o.areas.area tmp).vmNext

def removeVmaRegion (rounds : ℕ) (head : Option ℕ) (start last : ℕ) : Prog Space Panic Bool :=
  removeLoop alloc r head start last rounds head

/-- What `remove_vma_region` does, on the list of the areas: its loop ends after the first round. -/
def removeHead (start last : ℕ) : List Vma → VmM (List Vma)
  | [] => pure []
  | v :: l =>
    if v.vmStart ≥ start ∧ v.vmEnd ≤ last then do
      unmapValidpages alloc r v.vmStart ((v.vmEnd - v.vmStart) / pgsize)
      pure l
    else pure (v :: l)

end RemoveRegion

section Remove

variable {s s' : Structs} {done rest l : List ℕ} {v : ℕ}

theorem Structs.Shows.removeVma (h : s.Shows (done ++ v :: rest)) :
    wp (Structs.removeVma v)
      (fun n s' => n = rest.head? ∧ s'.Shows (done ++ rest) ∧ s'.vma = s.vma ∧
        s'.freed = v :: s.freed ∧ (done = [] ∨ rest ≠ []))
      (fun e => e = .nullPointer ∧ done ≠ [] ∧ rest = []) s := by
  obtain ⟨hprev, hnext⟩ := h.links_at
  unfold Structs.removeVma
  apply wp_get
  simp only [hprev, hnext]
  cases hlast : done.getLast? with
  | none =>
    have hdone : done = [] := List.getLast?_eq_none_iff.mp hlast
    apply wp_modify_bind
    cases hhead : rest.head? with
    | none =>
      apply wp_modify_bind
      refine wp_pure ⟨rfl, Chain.IsList.remove h ?_ ?_, rfl, rfl, Or.inl hdone⟩
      · rw [hlast, hhead]
        exact Chain.removed_of_eq (fun _ => rfl) fun _ => rfl
      · rw [hdone, hhead]
        rfl
    | some n =>
      apply wp_modify_bind
      apply wp_modify_bind
      refine wp_pure ⟨rfl, Chain.IsList.remove h ?_ ?_, by funext; simp, rfl, Or.inl hdone⟩
      · rw [hlast, hhead]
        apply Chain.removed_of_eq <;> intro a <;> simp [eq_comm]
      · rw [hdone, hhead]
        rfl
  | some p =>
    have hdone : done ≠ [] := by
      rintro rfl
      cases hlast
    apply wp_modify_bind
    apply wp_get
    have hsame : ((s.setNext p rest.head?).area v).vmNext = rest.head? := by
      show (s.setNext p rest.head?).links.next v = _
      rw [Structs.next_setNext]
      split
      · rfl
      · exact hnext
    rw [hsame]
    cases hhead : rest.head? with
    | none => exact wp_bind (wp_throw ⟨rfl, hdone, List.head?_eq_none_iff.mp hhead⟩) fun _ _ h => h
    | some n =>
      apply wp_modify_bind
      apply wp_modify_bind
      have hrest : rest ≠ [] := by
        rintro rfl
        cases hhead
      refine wp_pure ⟨rfl, Chain.IsList.remove h ?_ ?_, by funext; simp, rfl, Or.inr hrest⟩
      · rw [hlast, hhead]
        apply Chain.removed_of_eq <;> intro a <;> simp [eq_comm]
      · rw [if_neg hdone]
        rfl

end Remove

/-! ## §6  `remove_vma_region` -/

/-- The area lies in `[start, last)`. -/
def Inside (start last : ℕ) (v : Vma) : Prop := start ≤ v.vmStart ∧ v.vmEnd ≤ last

instance (start last : ℕ) (v : Vma) : Decidable (Inside start last v) :=
  inferInstanceAs (Decidable (_ ∧ _))

/-- What removing the areas of `[start, last)` should end in. -/
structure Removed (o : Space) (l : List ℕ) (r start last : ℕ) (o' : Space) : Prop where
  shows : o'.areas.Shows (l.filter fun p => ¬ Inside start last (o.areas.vma p))
  others : ∀ p ∈ l, ¬ Inside start last (o.areas.vma p) → o'.areas.vma p = o.areas.vma p
  freed : ∃ ps, o'.areas.freed = ps ++ o.areas.freed ∧
    ps.Perm (l.filter fun p => Inside start last (o.areas.vma p))
  unmapped : ∀ p ∈ l, Inside start last (o.areas.vma p) → ∀ va, (o.areas.vma p).vmStart ≤ va →
    va < (o.areas.vma p).vmEnd → isLeaf (translate o'.mem r va) = false
  kept : ∀ q va, o.mem.IsRoot q → InUser va → va < 2 ^ 39 →
    (q = r → ∀ p ∈ l, Inside start last (o.areas.vma p) →
      va < (o.areas.vma p).vmStart ∨ (o.areas.vma p).vmEnd ≤ va) →
        translate o'.mem q va = translate o.mem q va
  data : ∀ f, o.mem.place f = none → o'.mem.word f = o.mem.word f

/-- The region of the whole call. -/
def RegionRemoved (alloc : Mem → ℕ) (o : Space) (l : List ℕ) (r start last rounds : ℕ) : Prop :=
  ∃ o', removeVmaRegion alloc r rounds o.areas.mmap start last o = .ok (true, o') ∧
    Removed o l r start last o'

/-- The first area is the only one in the region, and it consists of whole pages; a last page
that is not whole is not mapped. -/
structure OnlyHead (o : Space) (l : List ℕ) (r start last : ℕ) : Prop where
  tail : ∀ p ∈ l.tail, ¬ Inside start last (o.areas.vma p)
  aligned : ∀ p ∈ l.head?, Inside start last (o.areas.vma p) → (o.areas.vma p).vmStart % pgsize = 0
  whole : ∀ p ∈ l.head?, Inside start last (o.areas.vma p) →
    (o.areas.vma p).vmEnd % pgsize = 0 ∨ isLeaf (translate o.mem r (o.areas.vma p).vmEnd) = false

section Region

variable {alloc : Mem → ℕ} {K : Kernel} {o : Space} {l : List ℕ} {p r start last rounds : ℕ}
  {v : Vma}

/-- The loop ends after its first round. -/
theorem removeVmaRegion_cons (hmmap : o.areas.mmap = some p) (hrounds : 0 < rounds) :
    removeVmaRegion alloc r rounds o.areas.mmap start last o =
      (removeInside alloc r start last p >>= fun _ => pure true) o := by
  obtain ⟨n, rfl⟩ := Nat.exists_eq_succ_of_ne_zero (Nat.ne_of_gt hrounds)
  rw [removeVmaRegion, hmmap, removeLoop]
  simp only [if_pos]

theorem wp_unmapValidpages_aligned {m : Mem} {va npages : ℕ} :
    wp (unmapValidpages alloc r va npages) (fun _ _ => va % pgsize = 0) (fun _ => True) m := by
  unfold unmapValidpages
  apply wp_ite
  · exact fun _ => wp_throw trivial
  · intro hal
    exact wp_post wp_trivial fun _ _ _ => not_not.mp hal

/-- The first area is unmapped and leaves the list. -/
theorem wp_removeInside_run (h : o.areas.Shows (p :: l)) (hv : o.areas.vma p = v) :
    wp (removeInside alloc r start last p)
      (fun _ o' =>
        (Inside start last v ∧ unmapValidpages alloc r v.vmStart ((v.vmEnd - v.vmStart) / pgsize)
            o.mem = .ok ((), o'.mem) ∧
          o'.areas.Shows l ∧ o'.areas.vma = o.areas.vma ∧ o'.areas.freed = p :: o.areas.freed) ∨
        ¬ Inside start last v ∧ o' = o)
      (fun e => Inside start last v ∧
        unmapValidpages alloc r v.vmStart ((v.vmEnd - v.vmStart) / pgsize) o.mem = .error e) o := by
  unfold removeInside
  apply wp_get
  dsimp only
  rw [hv]
  apply wp_ite
  swap
  · exact fun hout => wp_pure (Or.inr ⟨hout, rfl⟩)
  intro hin
  apply wp_zoom_bind (wp_error wp_run fun _ herror => ⟨hin, herror⟩)
  intro _ m' hrun
  apply wp_zoom_bind (P := fun _ s' => s'.Shows l ∧ s'.vma = o.areas.vma ∧
    s'.freed = p :: o.areas.freed)
  · apply wp_mono (@Structs.Shows.removeVma o.areas [] l p h)
    · rintro n s' ⟨-, hshows, hvma, hfreed, -⟩
      exact ⟨hshows, hvma, hfreed⟩
    · rintro e ⟨-, hne, -⟩
      exact absurd rfl hne
  · intro n s' hpost
    exact wp_pure (Or.inl ⟨hin, hrun, hpost⟩)

/-- The structures and the list go the same way. -/
theorem removeVmaRegion_refines (h : o.areas.Shows l) (hrounds : l.length ≤ rounds) :
    wp (removeVmaRegion alloc r rounds o.areas.mmap start last)
      (fun _ o' => ∃ l', o'.areas.Shows l' ∧
        removeHead alloc r start last (l.map o.areas.vma) o.mem =
          .ok (l'.map o'.areas.vma, o'.mem))
      (fun e => removeHead alloc r start last (l.map o.areas.vma) o.mem = .error e) o := by
  cases l with
  | nil =>
    have hmmap : o.areas.mmap = none := h.head
    rw [hmmap]
    cases rounds <;> exact wp_pure ⟨[], h, rfl⟩
  | cons p l =>
    apply wp_of_eq (removeVmaRegion_cons h.head (Nat.lt_of_lt_of_le (Nat.succ_pos _) hrounds))
    refine wp_bind (wp_mono (wp_removeInside_run h rfl) ?_ ?_) fun _ _ hpost => wp_pure hpost
    · rintro _ o' (⟨hin, hrun, hshows, hvma, -⟩ | ⟨hout, rfl⟩)
      · refine ⟨l, hshows, ?_⟩
        rw [hvma]
        exact (congrFun (if_pos hin) _).trans (bind_run hrun)
      · exact ⟨p :: l, h, congrFun (if_neg hout) _⟩
    · rintro e ⟨hin, herror⟩
      exact (congrFun (if_pos hin) _).trans (bind_error herror)

/-- What the first round does with the first area. -/
structure HeadRemoved (o : Space) (p : ℕ) (v : Vma) (l : List ℕ) (r start last : ℕ)
    (o' : Space) : Prop where
  inside : Inside start last v
  aligned : v.vmStart % pgsize = 0
  shows : o'.areas.Shows l
  vma : o'.areas.vma = o.areas.vma
  freed : o'.areas.freed = p :: o.areas.freed
  unmaps : Unmaps r (pagesFrom v.vmStart ((v.vmEnd - v.vmStart) / pgsize)) o.mem o'.mem

theorem wp_removeInside (h : o.areas.Shows (p :: l)) (hv : o.areas.vma p = v)
    (hm : Sound K o.mem) (hr : o.mem.IsRoot r) (hlo : userCodeVmStart ≤ v.vmStart)
    (hle : v.vmStart ≤ v.vmEnd) (hhi : v.vmEnd ≤ maxva) :
    wp (removeInside alloc r start last p)
      (fun _ o' => HeadRemoved o p v l r start last o' ∨ ¬ Inside start last v ∧ o' = o)
      (fun _ => Inside start last v ∧ v.vmStart % pgsize ≠ 0) o := by
  have hunmap := wp_and
    (c := unmapValidpages alloc r v.vmStart ((v.vmEnd - v.vmStart) / pgsize))
    (wp_unmapValidpages hm hr hlo) wp_unmapValidpages_aligned
  apply wp_mono (wp_removeInside_run h hv)
  · rintro _ o' (⟨hin, hrun, hshows, hvma, hfreed⟩ | hout)
    · obtain ⟨⟨-, hun⟩, hal⟩ := post_of_ok hunmap hrun
      exact Or.inl ⟨hin, hal, hshows, hvma, hfreed, hun⟩
    · exact Or.inr hout
  · rintro e ⟨hin, herror⟩
    rcases (error_of_wp hunmap herror).1 with ⟨-, hal⟩ | ⟨-, hmax⟩
    · exact ⟨hin, hal⟩
    · -- the area ends below the limit of `walk`
      have hmul := Nat.div_mul_le_self (v.vmEnd - v.vmStart) pgsize
      omega

/-- An address of an area that starts on a page: it is in a page that is cleared, or in the
last page, which is not whole. -/
theorem mem_pagesFrom_or {va : ℕ} (hal : v.vmStart % pgsize = 0) (hlo : v.vmStart ≤ va)
    (hhi : va < v.vmEnd) :
    va / pgsize ∈ pagesFrom v.vmStart ((v.vmEnd - v.vmStart) / pgsize) ∨
      v.vmEnd % pgsize ≠ 0 ∧ va / pgsize = v.vmEnd / pgsize := by
  simp only [pagesFrom, Set.mem_ofPred_eq]
  unfold pgsize at *
  omega

theorem not_mem_pagesFrom {va : ℕ} (hal : v.vmStart % pgsize = 0)
    (hout : va < v.vmStart ∨ v.vmEnd ≤ va) :
    va / pgsize ∉ pagesFrom v.vmStart ((v.vmEnd - v.vmStart) / pgsize) := by
  simp only [pagesFrom, Set.mem_ofPred_eq]
  unfold pgsize at *
  omega

theorem filter_outside {vma : ℕ → Vma} (hout : ∀ p ∈ l, ¬ Inside start last (vma p)) :
    (l.filter fun p => ¬ Inside start last (vma p)) = l ∧
      (l.filter fun p => Inside start last (vma p)) = [] :=
  ⟨List.filter_eq_self.mpr fun p hp => decide_eq_true (hout p hp),
    List.filter_eq_nil_iff.mpr fun p hp hin => hout p hp (of_decide_eq_true hin)⟩

/-- Nothing lies in the region. -/
theorem removed_of_none (h : o.areas.Shows l)
    (hout : ∀ p ∈ l, ¬ Inside start last (o.areas.vma p)) : Removed o l r start last o := by
  obtain ⟨hall, hnone⟩ := filter_outside hout
  refine ⟨by rwa [hall], fun _ _ _ => rfl, ⟨[], rfl, by rw [hnone]⟩, ?_, fun _ _ _ _ _ _ => rfl,
    fun _ _ => rfl⟩
  intro p hp hin
  exact absurd hin (hout p hp)

/-- Only the first area lies in the region. -/
theorem HeadRemoved.removed {o' : Space} (hd : HeadRemoved o p v l r start last o')
    (hv : o.areas.vma p = v) (hr : o.mem.IsRoot r)
    (hlo : userCodeVmStart ≤ v.vmStart) (hhi : v.vmEnd ≤ maxva)
    (honly : OnlyHead o (p :: l) r start last) : Removed o (p :: l) r start last o' := by
  subst hv
  obtain ⟨hrest, hnone⟩ := filter_outside (l := l) honly.tail
  have honlyp : ∀ q ∈ p :: l, Inside start last (o.areas.vma q) → q = p := by
    intro q hq hin
    rcases List.mem_cons.mp hq with rfl | hq
    · rfl
    · exact absurd hin (honly.tail q hq)
  have hmax := maxva_lt
  refine ⟨?_, fun q _ _ => by rw [hd.vma], ⟨[p], hd.freed, ?_⟩, ?_, ?_,
    fun f hf => hd.unmaps.data hf⟩
  · rw [List.filter_cons_of_neg (by simpa using hd.inside), hrest]
    exact hd.shows
  · rw [List.filter_cons_of_pos (by simpa using hd.inside), hnone]
  · intro q hq hin va hva hlt
    obtain rfl := honlyp q hq hin
    have hrange : va < maxva := Nat.lt_of_lt_of_le hlt hhi
    have huser := inUser_of_range (Nat.le_trans hlo hva) hrange
    have hlt39 := Nat.lt_trans hrange hmax
    cases hleaf : isLeaf (translate o.mem r va) with
    | false =>
      rw [hd.unmaps.same hr huser hlt39 fun _ _ => hleaf]
      exact hleaf
    | true =>
      rcases mem_pagesFrom_or hd.aligned hva hlt with hmem | ⟨hpart, hpage⟩
      · rw [hd.unmaps.cleared hr huser hlt39 hmem hleaf]
        rfl
      · -- the page that is not whole was not mapped
        have hno := (honly.whole q rfl hin).resolve_left hpart
        rw [translate_congr (Nat.lt_of_le_of_lt hhi hmax) hlt39 hpage.symm, hleaf] at hno
        cases hno
  · intro q va hq huser hlt39 hout
    apply hd.unmaps.same hq huser hlt39
    intro hqr hmem
    have hmem' := not_mem_pagesFrom hd.aligned (hout hqr p List.mem_cons_self hd.inside)
    exact absurd hmem hmem'

/-- A page that is not whole stays mapped. -/
theorem HeadRemoved.whole {o' : Space} (hd : HeadRemoved o p v l r start last o')
    (hr : o.mem.IsRoot r) (hlo : userCodeVmStart ≤ v.vmStart)
    (hle : v.vmStart ≤ v.vmEnd) (hhi : v.vmEnd ≤ maxva)
    (hun : ∀ va, v.vmStart ≤ va → va < v.vmEnd → isLeaf (translate o'.mem r va) = false) :
    v.vmEnd % pgsize = 0 ∨ isLeaf (translate o.mem r v.vmEnd) = false := by
  by_cases hpart : v.vmEnd % pgsize = 0
  · exact Or.inl hpart
  right
  have hlt : v.vmStart < v.vmEnd := by
    rcases Nat.lt_or_eq_of_le hle with hlt | heq
    · exact hlt
    · exact absurd (heq ▸ hd.aligned) hpart
  -- the last address is in that page
  have hmax := maxva_lt
  have hlast := hun (v.vmEnd - 1) (by omega) (by omega)
  have hpage : (v.vmEnd - 1) / pgsize = v.vmEnd / pgsize := by
    unfold pgsize at *
    omega
  have hnot : (v.vmEnd - 1) / pgsize ∉ pagesFrom v.vmStart ((v.vmEnd - v.vmStart) / pgsize) := by
    rw [hpage]
    exact not_mem_pagesFrom hd.aligned (Or.inr (Nat.le_refl _))
  rw [hd.unmaps.same hr (inUser_of_range (by omega) (by omega)) (by omega)
    fun _ hmem => absurd hmem hnot, translate_congr (by omega) (by omega) hpage] at hlast
  exact hlast

/-- **`remove_vma_region` is right exactly when the first area is the only one in the region.**
The test `tmp == head` ends the loop in its first round. -/
theorem regionRemoved_iff_onlyHead (h : o.areas.Shows l) (hsorted : Sorted (l.map o.areas.vma))
    (hrange : ∀ p ∈ l, userCodeVmStart ≤ (o.areas.vma p).vmStart ∧ (o.areas.vma p).vmEnd ≤ maxva)
    (hm : Sound K o.mem) (hr : o.mem.place r = some (r, [])) (hrounds : l.length ≤ rounds) :
    RegionRemoved alloc o l r start last rounds ↔ OnlyHead o l r start last := by
  cases l with
  | nil =>
    have hmmap : o.areas.mmap = none := h.head
    constructor
    · intro _
      constructor <;> simp
    · intro _
      refine ⟨o, ?_, removed_of_none h (by simp)⟩
      rw [removeVmaRegion, hmmap]
      cases rounds <;> rfl
  | cons p l =>
    obtain ⟨hlo, hhi⟩ := hrange p List.mem_cons_self
    have hle := hsorted.le _ (List.mem_map_of_mem (List.mem_cons_self (a := p) (l := l)))
    have hspec := @wp_removeInside alloc K o l p r start last _ h rfl hm hr hlo hle hhi
    have hrun := @removeVmaRegion_cons alloc o p r start last rounds h.head
      (Nat.lt_of_lt_of_le (Nat.succ_pos _) hrounds)
    have hp : p ∉ l := (List.nodup_cons.mp h.nodup).1
    constructor
    · rintro ⟨o', hok, hrem⟩
      have hcall : wp (removeInside alloc r start last p >>= fun _ => pure true)
          (fun _ o' => HeadRemoved o p _ l r start last o' ∨
            ¬ Inside start last (o.areas.vma p) ∧ o' = o) _ o :=
        wp_bind hspec fun _ _ hpost => wp_pure hpost
      have hpost := post_of_ok hcall (hrun.symm.trans hok)
      obtain ⟨ps, hfreed, hperm⟩ := hrem.freed
      have hmem : ∀ q ∈ l, Inside start last (o.areas.vma q) → q ∈ ps := by
        intro q hq hin
        rw [hperm.mem_iff, List.mem_filter]
        exact ⟨List.mem_cons_of_mem p hq, decide_eq_true hin⟩
      have hps : ∀ q ∈ ps, q = p := by
        rcases hpost with hd | ⟨-, rfl⟩
        · rw [hd.freed] at hfreed
          rw [← List.append_cancel_right (show [p] ++ _ = _ from hfreed)]
          exact fun _ => List.mem_singleton.mp
        · have hlen := congrArg List.length hfreed
          rw [List.length_append] at hlen
          rw [List.length_eq_zero_iff.mp (show ps.length = 0 by omega)]
          simp
      refine ⟨fun q hq hin => hp (hps q (hmem q hq hin) ▸ hq), ?_, ?_⟩
      · rintro q ⟨⟩ hin
        rcases hpost with hd | ⟨hout, -⟩
        · exact hd.aligned
        · exact absurd hin hout
      · rintro q ⟨⟩ hin
        rcases hpost with hd | ⟨hout, -⟩
        · exact hd.whole hr hlo hle hhi (hrem.unmapped p List.mem_cons_self hin)
        · exact absurd hin hout
    · intro honly
      have htotal := wp_error hspec fun _ herr => herr.2 (honly.aligned p rfl herr.1)
      obtain ⟨_, o', hok, hpost⟩ := exists_of_wp htotal
      refine ⟨o', ?_, ?_⟩
      · rw [hrun, bind_run hok]
        rfl
      · rcases hpost with hd | ⟨hout, rfl⟩
        · exact hd.removed rfl hr hlo hhi honly
        · apply removed_of_none h
          intro q hq
          rcases List.mem_cons.mp hq with rfl | hq
          · exact hout
          · exact honly.tail q hq

/-- A process with a page of code, a page of heap and a page of stack, none of them mapped. -/
def smallSpace : Space where
  areas :=
    { area := fun p =>
        if p = 1 then ⟨⟨userCodeVmStart, userCodeVmStart + pgsize, vmExec ||| vmRead⟩, some 2, none⟩
        else if p = 2 then ⟨⟨userMemStart, userMemStart + pgsize, vmDataFlagsNonExec⟩,
          some 3, some 1⟩
        else ⟨⟨stackTop - pgsize, stackTop, vmStackFlags⟩, none, some 2⟩
      mmap := some 1
      freed := [] }
  mem := emptyBoot.mem.newTable 2

theorem shows_smallSpace : smallSpace.areas.Shows [1, 2, 3] := by
  have hlinks : Chain.Threaded smallSpace.areas.links none [1, 2, 3] := by decide
  exact Chain.isList_of_threaded (by decide) hlinks

theorem sound_smallSpace : Sound emptyBoot.kernel smallSpace.mem :=
  (sound_boot emptyBoot).newTable (by decide)

/-- The call of `exec` for the code. -/
theorem regionRemoved_code :
    RegionRemoved above smallSpace [1, 2, 3] 2 userCodeVmStart userMemStart 3 := by
  refine (regionRemoved_iff_onlyHead shows_smallSpace ⟨by decide, by decide⟩ (by decide)
    sound_smallSpace rfl (by decide)).mpr ⟨by decide, ?_, ?_⟩
  · rintro p ⟨⟩ _
    decide
  · rintro p ⟨⟩ _
    exact Or.inl (by decide)

/-- The call of `exec` for the heap, which is not the first area. -/
theorem not_regionRemoved_heap :
    ¬ RegionRemoved above smallSpace [1, 2, 3] 2 userMemStart userMemEnd 3 := by
  rintro ⟨o', hrun, hrem⟩
  have hsame : removeVmaRegion above 2 3 smallSpace.areas.mmap userMemStart userMemEnd smallSpace =
      .ok (true, smallSpace) := rfl
  cases hsame.symm.trans hrun
  obtain ⟨ps, hfreed, hperm⟩ := hrem.freed
  have hps : ps = [] := (List.append_nil ps).symm.trans hfreed.symm
  have hlen := hperm.length_eq
  rw [hps] at hlen
  exact absurd hlen (by decide)

end Region

end RiscvBm.Vm

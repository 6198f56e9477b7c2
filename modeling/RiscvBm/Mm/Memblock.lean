import Mathlib.Data.Fintype.Sum
import Mathlib.Tactic.DeriveFintype
import RiscvBm.Lib.Chain
import RiscvBm.Lib.Transition
import RiscvBm.Param

/-!
# The regions of memory at boot (`kernel/memblock.c`)

Before there is a page allocator the kernel keeps the ranges of memory in a list of regions, each
free or reserved. The regions are entities of the array `memblock_regions`; `memblock.head` is an
entity of its own whose `next` is the first region.

- §1 has the entities, the pool that hands them out and the two functions on the list;
- §2 is about the pool: the entity that is marked is always the first of the array;
- §3 is about `memblock_add_region`: the second call is never right.

A loop over the links takes the number of rounds that it may make; `none` is a call that follows a
null pointer or does not end.
-/

namespace RiscvBm.Memblock

open Chain Function Transition

/-! ## §1  Entities and the list -/

/-- `MEMBLOCK_FREE` and `MEMBLOCK_RESERVE`. -/
inductive Flag where
  | free
  | reserve
deriving DecidableEq

structure Region where
  base : ℕ
  size : ℕ
  flags : Flag
  allocated : Bool
deriving DecidableEq

/-- `&memblock.head`, or `&memblock_regions[i]` with `i < MAX_MEMBLOCK_REGIONS`. -/
inductive Ptr where
  | head
  | entity (i : Fin 64)
deriving DecidableEq, Fintype

structure Mem where
  region : Ptr → Region
  links : Links Ptr
  numRegions : ℕ
  totalSize : ℕ

/-- `memblock` and `memblock_regions` as the kernel starts. -/
def boot : Mem := ⟨fun _ => ⟨0, 0, .free, false⟩, ⟨fun _ => none, fun _ => none⟩, 0, 0⟩

/-- `PGROUNDUP`, of a size that is there: the sum does not overflow. -/
def pageRoundUp (a : ℕ) : ℕ := pgRoundDown (a + pgsize - 1)

def einval : ℤ := 22

def Region.stop (r : Region) : ℕ := r.base + r.size

def Mem.setRegion (s : Mem) (p : Ptr) (r : Region) : Mem := { s with region := update s.region p r }

def Mem.mark (s : Mem) (i : Fin 64) : Mem :=
  s.setRegion (.entity i) { s.region (.entity i) with allocated := true }

/-- The four assignments to links; a null `last` is followed. -/
def memblockInsertNew (last : Option Ptr) (new mrg : Ptr) (s : Mem) : Option Mem :=
  last.map fun last =>
    { s with links :=
      { next := update (update s.links.next last (some new)) new (some mrg)
        prev := update (update s.links.prev new (some last)) mrg (some new) } }

/-- A function that hands out entities. -/
abbrev Get := Mem → Option (Fin 64 × Mem)

/-- The search is for entity `i`, but `memblock_regions->allocated` is the flag of entity 0. -/
def memblockGetRegionEntity : Get := fun s =>
  ((List.finRange 64).find? fun i => !(s.region (.entity i)).allocated).map fun i => (i, s.mark 0)

def memblockFreeRegionEntity (mrg : Ptr) (s : Mem) : Mem :=
  { s with
    region := update s.region mrg { s.region mrg with allocated := false }
    links := ⟨update s.links.next mrg none, update s.links.prev mrg none⟩ }

def Mem.fill (s : Mem) (p : Ptr) (base size : ℕ) (flags : Flag) : Mem :=
  { s with
    region := update s.region p { s.region p with base := base, size := size, flags := flags }
    links := ⟨update s.links.next p none, update s.links.prev p none⟩ }

def memblockInitEntity (get : Get) (base size : ℕ) (flags : Flag) (s : Mem) : Option (Ptr × Mem) :=
  (get s).map fun (i, s) => (.entity i, s.fill (.entity i) base size flags)

/-- Where the scan of `memblock_add_region` leaves the loop, with `mrg` there. -/
inductive Exit where
  | found (mrg : Ptr)
  | foundTail (mrg : Ptr)
  | overlap (mrg : Ptr)

def addScan (s : Mem) (base stop : ℕ) : ℕ → Option Ptr → Option Exit
  | _, none => none
  | 0, some _ => none
  | n + 1, some mrg =>
    if (s.region mrg).stop < base then
      if s.links.next mrg = none then some (.foundTail mrg)
      else addScan s base stop n (s.links.next mrg)
    else if base < (s.region mrg).stop ∧ (s.region mrg).stop < stop then some (.overlap mrg)
    else if ∃ m ∈ s.links.next mrg, (s.region m).base < stop then some (.overlap mrg)
    else some (.found mrg)

/-- The label `found_tail`. -/
def foundTail (new mrg : Ptr) (s : Mem) : Mem :=
  { s with links := ⟨update s.links.next mrg (some new), update s.links.prev new (some mrg)⟩ }

/-- The label `found` and what follows it: there is no way around `found_tail`. -/
def found (new mrg : Ptr) (s : Mem) : Option Mem :=
  (memblockInsertNew (s.links.prev mrg) new mrg s).map (foundTail new mrg)

def memblockAddRegion (base size : ℕ) (s : Mem) : Option (ℤ × Mem) :=
  match memblockInitEntity memblockGetRegionEntity (pgRoundDown base) (pageRoundUp size)
      .free s with
  | none => some (-einval, s)
  | some (new, s) =>
    if s.links.next .head = none then
      some (0,
        { s with
          links := ⟨update s.links.next .head (some new), update s.links.prev new (some .head)⟩
          totalSize := pageRoundUp size
          numRegions := s.numRegions + 1 })
    else
      match addScan s (pgRoundDown base) (base + size) 64 (s.links.next .head) with
      | none => none
      | some (.foundTail mrg) => some (0, foundTail new mrg s)
      | some (.found mrg) => (found new mrg s).map (0, ·)
      -- the entity is given back, and put into the list all the same
      | some (.overlap mrg) => (found new mrg (memblockFreeRegionEntity new s)).map (0, ·)

/-- A range of whole pages. -/
structure Pages (base size : ℕ) : Prop where
  dvd_base : 4096 ∣ base
  dvd_size : 4096 ∣ size
  pos : 0 < size

instance decidablePages (base size : ℕ) : Decidable (Pages base size) :=
  decidable_of_iff (4096 ∣ base ∧ 4096 ∣ size ∧ 0 < size)
    ⟨fun h => ⟨h.1, h.2.1, h.2.2⟩, fun h => ⟨h.1, h.2, h.3⟩⟩

theorem Pages.down {base size : ℕ} (h : Pages base size) : pgRoundDown base = base :=
  Nat.div_mul_cancel h.dvd_base

theorem Pages.up {base size : ℕ} (h : Pages base size) : pageRoundUp size = size := by
  obtain ⟨k, rfl⟩ := h.dvd_size
  unfold pageRoundUp pgRoundDown pgsize
  omega

/-! ## §2  The pool -/

/-- The pool in use: the entities handed out and not given back, and what was in use each time
that a call was refused. -/
structure Pool where
  mem : Mem
  live : List (Fin 64)
  refused : List (List (Fin 64))

inductive PoolCall where
  | get
  | free (i : Fin 64)

/-- One call; only an entity in use is given back. -/
def poolStep (s : Pool) : PoolCall → Option Pool
  | .get =>
    match memblockGetRegionEntity s.mem with
    | some (i, mem) => some { s with mem, live := i :: s.live }
    | none => some { s with refused := s.live :: s.refused }
  | .free i =>
    if i ∈ s.live then
      some { s with mem := memblockFreeRegionEntity (.entity i) s.mem, live := s.live.erase i }
    else none

/-- No entity was handed out while it was in use, and a call was refused only with all of them in
use. -/
def Pool.Sound (s : Pool) : Prop := s.live.Nodup ∧ ∀ l ∈ s.refused, ∀ i, i ∈ l

/-- The call does not find both of the first two entities in use. -/
def Pool.Spare (s : Pool) : PoolCall → Prop
  | .get => 0 ∉ s.live ∨ 1 ∉ s.live
  | .free _ => True

/-- Only the flag of entity 0 is ever set, so no entity behind the second is handed out. -/
structure Pool.Inv (s : Pool) : Prop where
  nodup : s.live.Nodup
  refused : s.refused = []
  first : (s.mem.region (.entity 0)).allocated = true ↔ 0 ∈ s.live
  others : ∀ i ≠ 0, (s.mem.region (.entity i)).allocated = false
  live : ∀ i ∈ s.live, i = 0 ∨ i = 1

theorem memblockGetRegionEntity_eq {s : Mem} (h : (s.region (.entity 1)).allocated = false) :
    memblockGetRegionEntity s =
      some (if (s.region (.entity 0)).allocated = true then 1 else 0, s.mark 0) := by
  have hrange : List.finRange 64 = 0 :: 1 :: (List.finRange 64).drop 2 := by decide
  rw [memblockGetRegionEntity, hrange]
  cases hzero : (s.region (.entity 0)).allocated <;> simp [h, hzero]

theorem allocated_mark (s : Mem) (i j : Fin 64) :
    ((s.mark i).region (.entity j)).allocated =
      if j = i then true else (s.region (.entity j)).allocated := by
  by_cases hj : j = i
  · subst hj
    simp [Mem.mark, Mem.setRegion]
  · simp [Mem.mark, Mem.setRegion, hj, update_of_ne]

theorem Pool.Inv.get {s s' : Pool} (hs : s.Inv) (hstep : poolStep s .get = some s') :
    s'.refused = [] ∧ s'.mem = s.mem.mark 0 ∧
      s'.live = (if 0 ∈ s.live then 1 else 0) :: s.live := by
  rw [poolStep, memblockGetRegionEntity_eq (hs.others 1 (by decide))] at hstep
  cases hstep
  refine ⟨hs.refused, rfl, ?_⟩
  simp only [hs.first]

theorem Pool.Inv.step {s s' : Pool} {c : PoolCall} (hs : s.Inv) (hspare : s.Spare c)
    (hstep : poolStep s c = some s') : s'.Inv := by
  cases c with
  | get =>
    obtain ⟨hrefused, hmem, hlive⟩ := hs.get hstep
    refine ⟨?_, hrefused, ?_, ?_, ?_⟩
    · rw [hlive]
      refine List.nodup_cons.mpr ⟨?_, hs.nodup⟩
      split
      · exact (hspare.resolve_left fun h => h ‹_›)
      · assumption
    · rw [hmem, allocated_mark, hlive]
      by_cases hzero : 0 ∈ s.live <;> simp [hzero]
    · intro i hi
      rw [hmem, allocated_mark, if_neg hi]
      exact hs.others i hi
    · intro i hi
      rw [hlive] at hi
      rcases List.mem_cons.mp hi with rfl | hi
      · split
        · exact Or.inr rfl
        · exact Or.inl rfl
      · exact hs.live i hi
  | free i =>
    rw [poolStep] at hstep
    split at hstep
    · cases hstep
      have hflag : ∀ j, ((memblockFreeRegionEntity (.entity i) s.mem).region
          (.entity j)).allocated =
          if j = i then false else (s.mem.region (.entity j)).allocated := by
        intro j
        by_cases hj : j = i
        · subst hj
          simp [memblockFreeRegionEntity]
        · simp [memblockFreeRegionEntity, hj, update_of_ne]
      refine ⟨hs.nodup.erase i, hs.refused, ?_, ?_,
        fun j hj => hs.live j (List.mem_of_mem_erase hj)⟩
      · rw [hflag, hs.nodup.mem_erase_iff, ← hs.first]
        by_cases hi : 0 = i <;> simp [hi]
      · intro j hj
        rw [hflag, hs.others j hj, ite_self]
    · cases hstep

/-- **The pool is sound along a run exactly while one of the first two entities is left.** With
entity 0 in use every call returns entity 1, whose flag is never set. -/
theorem pool_sound_iff (cs : List PoolCall) :
    Along poolStep Pool.Sound ⟨boot, [], []⟩ cs ↔ Steps poolStep Pool.Spare ⟨boot, [], []⟩ cs := by
  have hsound : ∀ s : Pool, s.Inv → s.Sound := fun s hs => ⟨hs.nodup, by simp [hs.refused]⟩
  apply along_iff_steps hsound
  · exact fun s c s' hs hspare hstep => hs.step hspare hstep
  · intro s c s' hs hnot hstep hgood
    cases c with
    | free i => exact hnot trivial
    | get =>
      obtain ⟨hzero, hone⟩ : 0 ∈ s.live ∧ 1 ∈ s.live := by
        simpa [Pool.Spare, not_or] using hnot
      obtain ⟨-, -, hlive⟩ := hs.get hstep
      rw [if_pos hzero] at hlive
      have hnodup := hgood.1
      rw [hlive] at hnodup
      exact (List.nodup_cons.mp hnodup).1 hone
  · exact ⟨List.nodup_nil, rfl, by simp [boot], fun _ _ => rfl, by simp⟩

/-- The third call returns the entity of the second one. -/
theorem not_pool_sound_three :
    ¬ Along poolStep Pool.Sound ⟨boot, [], []⟩ [.get, .get, .get] := by
  intro h
  have hlast : (⟨((boot.mark 0).mark 0).mark 0, [1, 1, 0], []⟩ : Pool).Sound := h.last rfl
  exact absurd hlast.1 (by decide)

/-! ## §3  Registration -/

/-- Regions in order and apart. -/
structure Sorted (rs : List Region) : Prop where
  pos : ∀ r ∈ rs, 0 < r.size
  apart : rs.Pairwise fun r q => r.stop ≤ q.base

/-- The entities of `l` are linked behind the head, one way and the other, and their regions are in
order. -/
structure Shows (s : Mem) (l : List Ptr) : Prop where
  links : IsList s.links (some .head) (.head :: l)
  sorted : Sorted (l.map s.region)

/-- The calls so far, the latest first: the range and whether it was accepted. `mem` is missing
when a call did not return. -/
structure Registry where
  mem : Option Mem
  calls : List (ℕ × ℕ × Bool)

def accepted (calls : List (ℕ × ℕ × Bool)) : List (ℕ × ℕ) :=
  calls.filterMap fun c => if c.2.2 then some (c.1, c.2.1) else none

/-- Each range was accepted exactly when it met none accepted before. -/
def Judged : List (ℕ × ℕ × Bool) → Prop
  | [] => True
  | (base, size, ok) :: calls =>
    (ok = true ↔ ∀ r ∈ accepted calls, base + size ≤ r.1 ∨ r.1 + r.2 ≤ base) ∧ Judged calls

/-- One call of `memblock_add_region`, for at most `MAX_MEMBLOCK_REGIONS` ranges of whole pages. -/
def addStep (s : Registry) (range : ℕ × ℕ) : Option Registry :=
  s.mem.bind fun mem =>
    if Pages range.1 range.2 ∧ s.calls.length < 64 then
      some
        { mem := (memblockAddRegion range.1 range.2 mem).map (·.2)
          calls := (range.1, range.2,
            (memblockAddRegion range.1 range.2 mem).any (·.1 = 0)) :: s.calls }
    else none

/-- The list has the ranges accepted and no others, and the two counters fit it. -/
structure Lists (mem : Mem) (calls : List (ℕ × ℕ × Bool)) (l : List Ptr) : Prop where
  shows : Shows mem l
  ranges : ((l.map mem.region).map fun r => (r.base, r.size)).Perm (accepted calls)
  numRegions : mem.numRegions = l.length
  totalSize : mem.totalSize = (l.map mem.region).foldr (fun r n => r.size + n) 0

def Registry.Right (s : Registry) : Prop :=
  Judged s.calls ∧ ∃ mem l, s.mem = some mem ∧ Lists mem s.calls l

/-- No region has been registered. -/
def Registry.Empty (s : Registry) (_ : ℕ × ℕ) : Prop := ∀ mem ∈ s.mem, mem.links.next .head = none

/-- The state after the first call. -/
structure Registry.One (s : Registry) (mem : Mem) : Prop where
  right : s.Right
  mem_eq : s.mem = some mem
  head : mem.links.next .head ≠ none
  second : (mem.region (.entity 1)).allocated = false
  numRegions : mem.numRegions = 1
  calls : (accepted s.calls).length = 1

theorem memblockInitEntity_second {mem : Mem} {base size : ℕ}
    (h : (mem.region (.entity 1)).allocated = false) :
    ∃ new mem', memblockInitEntity memblockGetRegionEntity base size .free mem = some (new, mem') ∧
      mem'.numRegions = mem.numRegions ∧ mem'.links.next .head = mem.links.next .head := by
  rw [memblockInitEntity, memblockGetRegionEntity_eq h]
  refine ⟨_, _, rfl, rfl, ?_⟩
  simp [Mem.fill, Mem.mark, Mem.setRegion]

theorem found_numRegions {new mrg : Ptr} {mem mem' : Mem} (h : found new mrg mem = some mem') :
    mem'.numRegions = mem.numRegions := by
  simp only [found, memblockInsertNew, Option.map_map, Option.map_eq_some_iff] at h
  obtain ⟨_, -, rfl⟩ := h
  rfl

/-- Behind the first call a range is always accepted, and never counted. -/
theorem memblockAddRegion_again {mem : Mem} {base size : ℕ} {r : ℤ × Mem}
    (hsecond : (mem.region (.entity 1)).allocated = false) (hhead : mem.links.next .head ≠ none)
    (h : memblockAddRegion base size mem = some r) :
    r.1 = 0 ∧ r.2.numRegions = mem.numRegions := by
  obtain ⟨new, mem', hinit, hnum, hnext⟩ :=
    @memblockInitEntity_second mem (pgRoundDown base) (pageRoundUp size) hsecond
  rw [memblockAddRegion, hinit] at h
  dsimp only at h
  rw [if_neg (hnext ▸ hhead)] at h
  split at h
  · cases h
  · cases h
    exact ⟨rfl, hnum⟩
  · obtain ⟨m, hm, rfl⟩ := Option.map_eq_some_iff.mp h
    exact ⟨rfl, (found_numRegions hm).trans hnum⟩
  · obtain ⟨m, hm, rfl⟩ := Option.map_eq_some_iff.mp h
    exact ⟨rfl, (found_numRegions hm).trans hnum⟩

theorem memblockAddRegion_boot {base size : ℕ} (hpages : Pages base size) :
    ∃ mem, memblockAddRegion base size boot = some (0, mem) ∧
      Threaded mem.links none [.head, .entity 0] ∧
      mem.region (.entity 0) = ⟨base, size, .free, true⟩ ∧
      (mem.region (.entity 1)).allocated = false ∧ mem.numRegions = 1 ∧ mem.totalSize = size := by
  rw [memblockAddRegion, hpages.down, hpages.up]
  exact ⟨_, rfl, ⟨rfl, rfl, rfl, rfl, trivial⟩, rfl, rfl, rfl, rfl⟩

theorem one_of_boot {s' : Registry} {range : ℕ × ℕ}
    (hstep : addStep ⟨some boot, []⟩ range = some s') : ∃ mem, s'.One mem := by
  obtain ⟨base, size⟩ := range
  simp only [addStep, Option.bind_some] at hstep
  split at hstep
  · rename_i hpages
    cases hstep
    obtain ⟨mem, hadd, hlinks, hregion, hsecond, hnum, htotal⟩ := memblockAddRegion_boot hpages.1
    simp only [hadd, Option.any_some, Option.map_some]
    have hsorted : Sorted [mem.region (.entity 0)] := by
      refine ⟨?_, List.pairwise_singleton _ _⟩
      simpa [hregion] using hpages.1.pos
    have hlists : Lists mem [(base, size, true)] [.entity 0] := by
      refine ⟨⟨isList_of_threaded (by decide) hlinks, hsorted⟩, ?_, hnum, ?_⟩
      · simp [hregion, accepted]
      · simp [hregion, htotal]
    refine ⟨mem, ⟨⟨?_, mem, [.entity 0], rfl, hlists⟩, rfl, ?_, hsecond, hnum, rfl⟩⟩
    · exact ⟨by simp [accepted], trivial⟩
    · rw [hlinks.2.1]
      exact Option.some_ne_none _
  · cases hstep

/-- Then two ranges are accepted, and `num_regions` is 1. -/
theorem Registry.One.not_right {s s' : Registry} {mem : Mem} {range : ℕ × ℕ} (hone : s.One mem)
    (hstep : addStep s range = some s') : ¬ s'.Right := by
  rintro ⟨-, mem', l, hmem', hlists⟩
  simp only [addStep, hone.mem_eq, Option.bind_some] at hstep
  split at hstep
  · cases hstep
    obtain ⟨r, hadd, rfl⟩ := Option.map_eq_some_iff.mp hmem'
    obtain ⟨hzero, hnum⟩ := memblockAddRegion_again hone.second hone.head hadd
    have hlen := hlists.ranges.length_eq
    rw [hadd] at hlen
    simp only [List.length_map, ← hlists.numRegions, hnum, hone.numRegions, accepted,
      Option.any_some, hzero, decide_true, List.filterMap_cons, if_true, List.length_cons] at hlen
    exact absurd (hlen.trans (congrArg (· + 1) hone.calls)) (by decide)
  · cases hstep

/-- **The list of regions is right along a run exactly while it is empty before each call**, that
is, for one call. The first call is right; each later one is accepted whatever its range is, and
leaves `num_regions` as it was. -/
theorem registry_right_iff (ranges : List (ℕ × ℕ)) :
    Along addStep Registry.Right ⟨some boot, []⟩ ranges ↔
      Steps addStep Registry.Empty ⟨some boot, []⟩ ranges := by
  have hright : ∀ s : Registry, (s = ⟨some boot, []⟩ ∨ ∃ mem, s.One mem) → s.Right := by
    rintro s (rfl | ⟨mem, hone⟩)
    · have hlinks : IsList boot.links (some .head) [.head] :=
        isList_of_threaded (List.nodup_singleton _) ⟨rfl, rfl, trivial⟩
      have hsorted : Sorted [] := ⟨by simp, List.Pairwise.nil⟩
      exact ⟨trivial, boot, [], rfl, ⟨⟨hlinks, hsorted⟩, List.Perm.refl _, rfl, rfl⟩⟩
    · exact hone.right
  apply along_iff_steps hright
  · rintro s range s' (rfl | ⟨mem, hone⟩) hempty hstep
    · exact Or.inr (one_of_boot hstep)
    · exact absurd (hempty mem hone.mem_eq) hone.head
  · rintro s range s' (rfl | ⟨mem, hone⟩) hnot hstep
    · refine absurd (fun mem hmem => ?_) hnot
      cases hmem
      rfl
    · exact hone.not_right hstep
  · exact Or.inl rfl

/-- Two ranges that touch: the two entities are linked in a circle. -/
theorem not_registry_right_touching :
    ¬ Along addStep Registry.Right ⟨some boot, []⟩ [(4096, 4096), (8192, 4096)] := by
  rintro ⟨-, h⟩
  obtain ⟨s₁, hfirst⟩ : ∃ s₁, addStep ⟨some boot, []⟩ (4096, 4096) = some s₁ := ⟨_, rfl⟩
  obtain ⟨s₂, hsecond⟩ : ∃ s₂, addStep s₁ (8192, 4096) = some s₂ := by
    cases hfirst
    exact ⟨_, rfl⟩
  obtain ⟨mem, hone⟩ := one_of_boot hfirst
  exact hone.not_right hsecond ((h s₁ hfirst).2 s₂ hsecond)

end RiscvBm.Memblock

import RiscvBm.Lib.Transition
import RiscvBm.Mm.BitOps
import RiscvBm.Param

/-!
# Process ids (`get_free_pid`, `free_pid` in `kernel/proc.c`)

A bitmap of one page says which ids are taken. `pid_lock` is held during both functions, so a
run is a sequence of calls. `Pids` has the list of the ids that were handed out and not freed
since; the bits of the table are exactly those.
-/

namespace RiscvBm.Pid

open BitOps Transition

/-! ## §1  The calls -/

/-- The result with the table; `none` is a read outside of it. -/
def getFreePid (pidTable : List (BitVec 64)) : Option (ℤ × List (BitVec 64)) :=
  (findNextZeroBit pidTable (maxPid + 1) 0).map fun pid : ℤ =>
    if pid > maxPid then (-1, pidTable) else (pid, setBit pid.toNat pidTable)

def freePid (pidTable : List (BitVec 64)) (pid : ℤ) : List (BitVec 64) :=
  clearBit pid.toNat pidTable

structure Pids where
  pidTable : List (BitVec 64)
  /-- The ids in use, the last one first. -/
  live : List ℤ

inductive Call where
  | get
  | free (pid : ℤ)

/-- Only ids in use are freed. -/
def step (s : Pids) : Call → Option Pids
  | .get => (getFreePid s.pidTable).map fun r =>
      ⟨r.2, if r.1 = -1 then s.live else r.1 :: s.live⟩
  | .free pid => if pid ∈ s.live then some ⟨freePid s.pidTable pid, s.live.erase pid⟩ else none

/-- `memset(pid_table, 0x0, PGSIZE)` -/
def init : Pids := ⟨List.replicate 512 0, []⟩

/-! ## §2  The table and the ids in use -/

structure Inv (s : Pids) : Prop where
  length : s.pidTable.length = 512
  nodup : s.live.Nodup
  bound : ∀ pid ∈ s.live, 0 ≤ pid ∧ pid ≤ maxPid
  bits : ∀ i ≤ maxPid, bitAt s.pidTable i = true ↔ (i : ℤ) ∈ s.live

variable {s s' : Pids}

theorem Inv.getFreePid (h : Inv s) :
    (getFreePid s.pidTable = some (-1, s.pidTable) ∧ ∀ i ≤ maxPid, (i : ℤ) ∈ s.live) ∨
    ∃ r ≤ maxPid, getFreePid s.pidTable = some ((r : ℤ), setBit r s.pidTable) ∧
      (r : ℤ) ∉ s.live ∧ ∀ i < r, (i : ℤ) ∈ s.live := by
  obtain ⟨r, hrun, hnext⟩ := @findNextBitHelper_spec s.pidTable (maxPid + 1) 0 true
    (by decide) (by decide) (by rw [h.length]; decide)
  have hbelow : ∀ i < r, (i : ℤ) ∈ s.live := by
    intro i hi
    have hle := hnext.le
    apply (h.bits i (by omega)).mp
    have hP := hnext.least i (Nat.zero_le i) hi
    simpa using hP
  unfold Pid.getFreePid
  rw [findNextZeroBit, hrun, Option.map_some]
  rcases Nat.lt_or_ge maxPid r with hlt | hle
  · left
    rw [if_pos (by omega)]
    exact ⟨rfl, fun i hi => hbelow i (by omega)⟩
  · right
    rw [if_neg (by omega)]
    refine ⟨r, hle, rfl, ?_, hbelow⟩
    intro hmem
    have hbit := (h.bits r hle).mpr hmem
    rw [(hnext.found (by omega)).2] at hbit
    cases hbit

theorem div_lt_of_le {i : ℕ} (hi : i ≤ maxPid) : i / 64 < 512 := by
  unfold maxPid at hi
  omega

theorem inv_init : Inv init := by
  refine ⟨List.length_replicate, List.nodup_nil, fun _ h => absurd h List.not_mem_nil,
    fun i hi => ?_⟩
  have hword : (List.replicate 512 (0 : BitVec 64)).getD (i / 64) 0 = 0 := by
    rw [List.getD_eq_getElem?_getD, List.getElem?_replicate_of_lt (div_lt_of_le hi)]
    rfl
  have hbit : bitAt init.pidTable i = false := by
    rw [bitAt, init, hword]
    exact BitVec.getLsbD_zero
  rw [hbit]
  exact ⟨fun h => absurd h Bool.false_ne_true, fun h => absurd h List.not_mem_nil⟩

theorem Inv.step {c : Call} (h : Inv s) (hs : step s c = some s') : Inv s' := by
  cases c with
  | get =>
    simp only [Pid.step, Option.map_eq_some_iff] at hs
    obtain ⟨res, hget, rfl⟩ := hs
    rcases h.getFreePid with ⟨hfull, -⟩ | ⟨r, hr, hfound, hfree, -⟩
    · cases hfull.symm.trans hget
      exact h
    · cases hfound.symm.trans hget
      have hne : (r : ℤ) ≠ -1 := by omega
      have hword : r / 64 < s.pidTable.length := h.length ▸ div_lt_of_le hr
      rw [if_neg hne]
      refine ⟨by simp [setBit, opBit, h.length], List.nodup_cons.mpr ⟨hfree, h.nodup⟩, ?_, ?_⟩
      · rw [List.forall_mem_cons]
        exact ⟨by omega, h.bound⟩
      · intro i hi
        rw [setBit, bitAt_opBit (f := (· || ·)) (by simp) (by simp) hword, List.mem_cons,
          ← h.bits i hi, Nat.cast_inj]
        split_ifs with hir <;> simp [hir]
  | free pid =>
    simp only [Pid.step, Option.ite_none_right_eq_some, Option.some.injEq] at hs
    obtain ⟨hmem, rfl⟩ := hs
    have hpid := h.bound pid hmem
    have hword : pid.toNat / 64 < s.pidTable.length := h.length ▸ div_lt_of_le (by omega)
    refine ⟨by simp [freePid, clearBit, opBit, h.length], h.nodup.erase pid,
      fun q hq => h.bound q (List.mem_of_mem_erase hq), fun i hi => ?_⟩
    rw [freePid, clearBit, bitAt_opBit (f := fun x m => x && !m) (by simp +contextual) (by simp)
      hword, h.nodup.mem_erase_iff, ← h.bits i hi]
    split_ifs with hir
    · simp [show (i : ℤ) = pid by omega]
    · simp [show (i : ℤ) ≠ pid by omega]

/-! ## §3  What the calls guarantee -/

/-- **Ids in use are different, and a new one is the smallest that is not in use.** The second
part is about the search in general; it needs no more words of `p` than have a bit below
`size`. -/
theorem getFreePid_smallest :
    (∀ calls s, runFrom step init calls = some s →
      s.live.Nodup ∧ (∀ pid ∈ s.live, 0 ≤ pid ∧ pid ≤ maxPid) ∧
      ∃ pid pidTable', getFreePid s.pidTable = some (pid, pidTable') ∧
        (pid = -1 ↔ ∀ q : ℤ, 0 ≤ q → q ≤ maxPid → q ∈ s.live) ∧
        (pid ≠ -1 → 0 ≤ pid ∧ pid ≤ maxPid ∧ pid ∉ s.live ∧ ∀ q, 0 ≤ q → q < pid → q ∈ s.live)) ∧
    ∀ (p : List (BitVec 64)) (size start : ℕ) (invert : Bool), 1 ≤ size → size < 2 ^ 31 →
      (size - 1) / 64 < p.length →
      ∃ r : ℕ, findNextBitHelper p size start invert = some (r : ℤ) ∧
        IsNext (fun i => bitAt p i = !invert) start size r := by
  constructor
  · intro calls s hrun
    have h : Inv s := run_invariant (fun _ _ _ hs hstep => hs.step hstep) inv_init hrun
    refine ⟨h.nodup, h.bound, ?_⟩
    rcases h.getFreePid with ⟨hfull, hall⟩ | ⟨r, hr, hfound, hfree, hbelow⟩
    · refine ⟨-1, _, hfull, ⟨fun _ q h0 hq => ?_, fun _ => rfl⟩, fun hne => absurd rfl hne⟩
      rw [← Int.toNat_of_nonneg h0]
      exact hall _ (by omega)
    · refine ⟨r, _, hfound, ⟨fun hneg => by omega, fun hall => ?_⟩,
        fun _ => ⟨by omega, by omega, hfree, fun q h0 hq => ?_⟩⟩
      · exact absurd (hall r (by omega) (by omega)) hfree
      · rw [← Int.toNat_of_nonneg h0]
        exact hbelow _ (by omega)
  · intro p size start invert hsize hsmall hp
    exact findNextBitHelper_spec start invert hsize hsmall hp

/-- Two words, of which the second one is used in part; and two ids are handed out. -/
theorem getFreePid_smallest_twoWords :
    (70 - 1) / 64 < [0#64, 5#64].length ∧
    (∃ s, runFrom step init [.get, .get] = some s ∧ s.live = [1, 0] ∧ s.live.Nodup) ∧
    ∃ r : ℕ, findNextBitHelper [0#64, 5#64] 70 3 false = some (r : ℤ) ∧
      IsNext (fun i => bitAt [0#64, 5#64] i = !false) 3 70 r := by
  refine ⟨by decide, ?_, getFreePid_smallest.2 _ 70 3 false (by decide) (by decide) (by decide)⟩
  have hrun : (runFrom step init [.get, .get]).map Pids.live = some [1, 0] := by decide +kernel
  obtain ⟨s, hs, hlive⟩ := Option.map_eq_some_iff.mp hrun
  exact ⟨s, hs, hlive, (getFreePid_smallest.1 _ s hs).1⟩

end RiscvBm.Pid

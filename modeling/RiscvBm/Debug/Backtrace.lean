import Mathlib.Data.Nat.Bitwise

/-!
# Backtraces (`unwind_frame` and `dump_backtrace` of `kernel/trap.c`)

A frame is accepted if its frame pointer is aligned and lies between the stack pointer and the
next multiple of `THREAD_SIZE`. The caller's frame pointer is then read from the stack, which may
hold anything, and the frame pointer becomes the stack pointer. So the pointers never go down and
stay below the same multiple; but they need not go up, and a frame that is saved as its own
caller is dumped for ever.
-/

namespace RiscvBm.Backtrace

/-! ## §1  Frames -/

abbrev Word := BitVec 64

/-- `struct stackframe` -/
structure Stackframe where
  fp : Word
  sp : Word
  pc : Word
deriving DecidableEq

/-- `THREAD_SIZE` -/
def threadSize : Word := (1 <<< 12) * 2

/-- `ALIGN(x, THREAD_SIZE)` -/
def align (x : Word) : Word := (x + (threadSize - 1)) &&& ~~~(threadSize - 1)

/-- `unwind_frame`; `none` is `-EINVAL`, and `mem a` is the `unsigned long` at `a`. -/
def unwindFrame (mem : Word → Word) (frame : Stackframe) : Option Stackframe :=
  if frame.fp < frame.sp ∨ frame.fp > align frame.sp then none
  else if frame.fp &&& 0xf ≠ 0 then none
  else some ⟨mem (frame.fp - 16), frame.fp, mem (frame.fp - 8) - 4⟩

/-- The loop of `dump_backtrace`: what it prints, if it ends in that many rounds. -/
def dumpBacktrace (mem : Word → Word) : ℕ → Stackframe → Option (List Word)
  | 0, _ => none
  | fuel + 1, frame =>
    match unwindFrame mem frame with
    | none => some []
    | some frame' => (dumpBacktrace mem fuel frame').map (frame.pc :: ·)

/-- The frames that the loop comes to. -/
abbrev Visits (mem : Word → Word) : Stackframe → Stackframe → Prop :=
  Relation.ReflTransGen fun g g' => unwindFrame mem g = some g'

/-- The `THREAD_SIZE` bytes below the stack pointer rounded up. -/
def InStack (sp a : Word) : Prop := align sp - 1 - a < threadSize

/-- The loop ends, and reads the 16 bytes below the frame pointers inside of the stack only. -/
structure Unwinds (mem : Word → Word) (f : Stackframe) : Prop where
  ends : ∃ fuel printed, dumpBacktrace mem fuel f = some printed
  inside : ∀ g g', Visits mem f g → unwindFrame mem g = some g' →
    ∀ i : Word, i < 16 → InStack f.sp (g.fp - 16 + i)

variable {mem : Word → Word} {f g g' : Stackframe} {x y : Word}

theorem toNat_align (x : Word) : (align x).toNat = (x.toNat + 8191) % 2 ^ 64 / 8192 * 8192 := by
  have hshift : ∀ y : Word, y &&& ~~~(8191 : Word) = y >>> 13 <<< 13 := by
    intro y
    apply BitVec.eq_of_getLsbD_eq
    intro i hi
    have hbit : (8191 : Word).getLsbD i = decide (i < 13) := by
      rw [show (8191 : Word) = BitVec.ofNat 64 (2 ^ 13 - 1) from rfl, BitVec.getLsbD_ofNat,
        decide_eq_true hi, Bool.true_and, Nat.testBit_two_pow_sub_one]
    rw [BitVec.getLsbD_and, BitVec.getLsbD_not, hbit, BitVec.getLsbD_shiftLeft,
      BitVec.getLsbD_ushiftRight]
    by_cases h : i < 13
    · simp [h]
    · simp [h, hi, Nat.add_sub_cancel' (Nat.not_lt.mp h)]
  show ((x + 8191) &&& ~~~(8191 : Word)).toNat = _
  rw [hshift, BitVec.toNat_shiftLeft, BitVec.toNat_ushiftRight, Nat.shiftRight_eq_div_pow,
    Nat.shiftLeft_eq, BitVec.toNat_add]
  show (x.toNat + 8191) % 2 ^ 64 / 8192 * 8192 % 2 ^ 64 = _
  omega

/-- A frame pointer that is accepted. -/
structure Accepted (g : Stackframe) : Prop where
  low : g.sp ≤ g.fp
  high : g.fp ≤ align g.sp
  aligned : g.fp.toNat % 16 = 0

theorem and_fifteen (x : Word) : x &&& 0xf = 0 ↔ x.toNat % 16 = 0 := by
  rw [← BitVec.toNat_inj, BitVec.toNat_and]
  exact (congrArg (· = 0) (Nat.and_two_pow_sub_one_eq_mod x.toNat 4)).to_iff

theorem unwindFrame_eq_some :
    unwindFrame mem g = some g' ↔
      Accepted g ∧ g' = ⟨mem (g.fp - 16), g.fp, mem (g.fp - 8) - 4⟩ := by
  unfold unwindFrame
  split_ifs with hlim halign
  · exact ⟨fun h => (by cases h), fun h => (hlim.elim (BitVec.not_lt.mpr h.1.low)
      (BitVec.not_lt.mpr h.1.high)).elim⟩
  · exact ⟨fun h => (by cases h), fun h => absurd ((and_fifteen _).mpr h.1.aligned) halign⟩
  · rw [not_or, BitVec.not_lt, BitVec.not_lt] at hlim
    have hacc : Accepted g := ⟨hlim.1, hlim.2, (and_fifteen _).mp (not_not.mp halign)⟩
    exact ⟨fun h => ⟨hacc, (Option.some.inj h).symm⟩, fun h => congrArg some h.2.symm⟩

/-! ## §2  The limits -/

/-- The limit does not move with the stack pointer. -/
theorem Accepted.align_eq (h : Accepted g) : align g.fp = align g.sp := by
  have hlow := BitVec.le_def.mp h.low
  have hhigh := BitVec.le_def.mp h.high
  apply BitVec.eq_of_toNat_eq
  rw [toNat_align] at hhigh ⊢
  rw [toNat_align]
  omega

theorem Visits.align_eq (h : Visits mem f g) : align g.sp = align f.sp := by
  induction h with
  | refl => rfl
  | tail _ hstep ih =>
    obtain ⟨hacc, rfl⟩ := unwindFrame_eq_some.mp hstep
    exact hacc.align_eq.trans ih

theorem Accepted.inStack (h : Accepted g) {i : Word} (hi : i < 16) :
    InStack g.sp (g.fp - 16 + i) := by
  have hlow := BitVec.le_def.mp h.low
  have hhigh := BitVec.le_def.mp h.high
  have haligned := h.aligned
  have hi := BitVec.lt_def.mp hi
  have halign := toNat_align g.sp
  unfold InStack
  rw [halign] at hhigh
  show align g.sp - 1 - (g.fp - 16 + i) < 8192
  bv_omega

/-! ## §3  The loop -/

theorem dumpBacktrace_succ (h : unwindFrame mem g = some g') (fuel : ℕ) :
    dumpBacktrace mem (fuel + 1) g = (dumpBacktrace mem fuel g').map (g.pc :: ·) := by
  rw [dumpBacktrace, h]

theorem ends_of_visits {fuel : ℕ} {printed : List Word}
    (h : dumpBacktrace mem fuel f = some printed) (hv : Visits mem f g) :
    ∃ fuel printed, dumpBacktrace mem fuel g = some printed := by
  induction hv with
  | refl => exact ⟨fuel, printed, h⟩
  | tail _ hstep ih =>
    obtain ⟨fuel, printed, h⟩ := ih
    cases fuel with
    | zero => cases h
    | succ fuel =>
      rw [dumpBacktrace_succ hstep] at h
      obtain ⟨printed', h', -⟩ := Option.map_eq_some_iff.mp h
      exact ⟨fuel, printed', h'⟩

/-- A frame that is its own caller is dumped for ever. -/
theorem dumpBacktrace_self (h : unwindFrame mem g = some g) (fuel : ℕ) :
    dumpBacktrace mem fuel g = none := by
  induction fuel with
  | zero => rfl
  | succ fuel ih => rw [dumpBacktrace_succ h, ih, Option.map_none]

/-- Without such frames the frame pointer goes up to the limit. -/
theorem ends_of_rises
    (hrise : ∀ g g', Visits mem f g → unwindFrame mem g = some g' → g'.fp ≠ g.fp) {n : ℕ}
    (hv : Visits mem f g) (hn : Accepted g → (align f.sp).toNat - g.fp.toNat < n) :
    ∃ fuel printed, dumpBacktrace mem fuel g = some printed := by
  induction n generalizing g with
  | zero =>
    refine ⟨1, [], ?_⟩
    cases hstep : unwindFrame mem g with
    | none => rw [dumpBacktrace, hstep]
    | some g' => exact absurd (hn (unwindFrame_eq_some.mp hstep).1) (Nat.not_lt_zero _)
  | succ n ih =>
    cases hstep : unwindFrame mem g with
    | none => exact ⟨1, [], by rw [dumpBacktrace, hstep]⟩
    | some g' =>
      have hne := hrise g g' hv hstep
      obtain ⟨hacc, hg'⟩ := unwindFrame_eq_some.mp hstep
      have hv' : Visits mem f g' := hv.tail hstep
      obtain ⟨fuel, printed, h⟩ := ih hv' fun hacc' => by
        have hlow := BitVec.le_def.mp hacc'.low
        have hhigh := BitVec.le_def.mp hacc'.high
        have hnext := mt BitVec.eq_of_toNat_eq hne
        rw [hv'.align_eq] at hhigh
        rw [show g'.sp = g.fp by rw [hg']] at hlow
        have := hn hacc
        omega
      exact ⟨fuel + 1, g.pc :: printed, by rw [dumpBacktrace_succ hstep, h, Option.map_some]⟩

/-- **A backtrace ends exactly if it comes to no frame that is saved as its own caller.** It
reads nothing outside of the stack in any case. -/
theorem unwinds_iff (mem : Word → Word) (f : Stackframe) :
    Unwinds mem f ↔
      ∀ g g', Visits mem f g → unwindFrame mem g = some g' → g'.fp ≠ g.fp := by
  constructor
  · rintro ⟨⟨fuel, printed, h⟩, -⟩ g g' hv hstep heq
    obtain ⟨hacc, rfl⟩ := unwindFrame_eq_some.mp hstep
    obtain ⟨fuel', printed', h'⟩ := ends_of_visits h (hv.tail hstep)
    have hfp : mem (g.fp - 16) = g.fp := heq
    rw [hfp] at h'
    have hself : Accepted ⟨g.fp, g.fp, mem (g.fp - 8) - 4⟩ := by
      refine ⟨BitVec.le_refl _, ?_, hacc.aligned⟩
      rw [hacc.align_eq]
      exact hacc.high
    rw [dumpBacktrace_self (unwindFrame_eq_some.mpr ⟨hself, by rw [hfp]⟩)] at h'
    cases h'
  · intro hrise
    refine ⟨ends_of_rises hrise .refl fun _ => Nat.lt_succ_of_le (Nat.sub_le _ _), ?_⟩
    intro g g' hv hstep i hi
    have hin := (unwindFrame_eq_some.mp hstep).1.inStack hi
    rwa [InStack, hv.align_eq] at hin

/-- The frame pointer that is saved in a frame is its own. -/
theorem not_unwinds_self :
    ¬ Unwinds (fun _ => 0x80001010) ⟨0x80001010, 0x80001010, 0x8000100c⟩ := by
  rintro ⟨⟨fuel, printed, h⟩, -⟩
  rw [dumpBacktrace_self (by decide)] at h
  cases h

end RiscvBm.Backtrace

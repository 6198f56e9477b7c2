import Mathlib.Algebra.Order.BigOperators.Group.Finset
import RiscvBm.Fs.Calls
import RiscvBm.Fs.Refs

/-!
# Conservation of inode references

Between system calls the count of every inode should be the number of open files
and current directories that refer to it. `refsOk_iff_noLoss` says for which runs
this is so: those in which no call is one of `Loses`.
-/

namespace RiscvBm.SysFile

open Fs (Ptr Ref Counted)
open Transition Wp Finset

/-! ## §1  The property -/

/-- The open entries of the file table that refer to `k`. -/
def filesOn (s : St) (k : Ptr) : Finset FilePtr :=
  univ.filter fun f => (0 < (s.file f).ref ∧
    ((s.file f).type = .inode ∨ (s.file f).type = .device)) ∧ (s.file f).ip = some k

/-- The processes whose current directory is `k`. -/
def tasksIn (s : St) (k : Ptr) : Finset ℕ :=
  (range s.ntask).filter fun p => (s.task p).alive = true ∧ (s.task p).cwd = some k

structure RefsOk (s : St) : Prop where
  ref : ∀ k, (s.fs.inode k).ref = (filesOn s k).card + (tasksIn s k).card
  uniq : Fs.Uniq s.fs

/-- The step loses no reference. -/
def NoLoss (s : St) (a : Act) : Prop :=
  ∀ r s', run a.pid a.call s = .ok (r, s') → ¬ Loses s a.pid a.call r

/-! ## §2  Counting the references -/

variable {s s' : St} {D : Multiset Ref}

/-- One field that refers to an inode while `p` holds. -/
theorem countP_field (p : Prop) [Decidable p] (o : Option Ptr) (b : Bool) (k : Ptr) :
    (if p then match o with | some j => {(j, b)} | none => 0 else 0 : Multiset Ref).countP
      (fun y => y.1 = k) = if p ∧ o = some k then 1 else 0 := by
  split_ifs with h₁ h₂ h₂
  · rw [h₂.2]
    exact Multiset.countP_cons_of_pos 0 rfl
  · cases o with
    | none => rfl
    | some j =>
      have hj : j ≠ k := fun hj => h₂ ⟨h₁, congrArg some hj⟩
      exact Multiset.countP_cons_of_neg 0 hj
  · exact absurd h₂.1 h₁
  · rfl

theorem countP_refs (s : St) (k : Ptr) :
    (refs s).countP (fun y => y.1 = k) = (filesOn s k).card + (tasksIn s k).card := by
  have hsum : ∀ {ι : Type} (t : Finset ι) (w : ι → Multiset Ref),
      (∑ i ∈ t, w i).countP (fun y => y.1 = k) = ∑ i ∈ t, (w i).countP (fun y => y.1 = k) :=
    fun t w => map_sum (Multiset.countPAddMonoidHom fun y : Ref => y.1 = k) w t
  have hfiles : ∑ f, (s.file f).refs.countP (fun y => y.1 = k) = (filesOn s k).card := by
    rw [filesOn, card_filter]
    exact sum_congr rfl fun f _ => countP_field _ _ _ k
  have htasks : ∑ p ∈ range s.ntask, (s.task p).refs.countP (fun y => y.1 = k) =
      (tasksIn s k).card := by
    rw [tasksIn, card_filter]
    exact sum_congr rfl fun p _ => countP_field _ _ _ k
  rw [refs, Multiset.countP_add, hsum, hsum, hfiles, htasks]

theorem refsOk_iff_lost (h : Sound Counted D ∅ s) : RefsOk s ↔ D = 0 := by
  have hcount : ∀ k, (s.fs.inode k).ref = (filesOn s k).card + (tasksIn s k).card +
      D.countP fun y => y.1 = k := by
    intro k
    rw [h.fs.ref k, Multiset.countP_add, countP_refs]
    push_cast
    rfl
  constructor
  · intro hok
    by_contra hne
    obtain ⟨x, hx⟩ := Multiset.exists_mem_of_ne_zero hne
    have hpos : 0 < D.countP fun y => y.1 = x.1 := Multiset.countP_pos.mpr ⟨x, hx, rfl⟩
    have h₁ := hok.ref x.1
    have h₂ := hcount x.1
    omega
  · rintro rfl
    exact ⟨fun k => by simpa using hcount k, h.fs.uniq⟩

/-! ## §3  Runs -/

/-- What one call does to the lost references. -/
theorem step_lost {a : Act} (h : Sound Counted 0 ∅ s) (hstep : step s a = some s') :
    ∃ D, Sound Counted D ∅ s' ∧ (D = 0 ↔ NoLoss s a) := by
  unfold step at hstep
  split_ifs at hstep with hrun
  split at hstep
  · rename_i r t hres
    cases hstep
    obtain ⟨D, hdone, hiff⟩ := post_of_ok (run_spec Fs.counted_kept h hrun a.call) hres
    refine ⟨D, hdone.sound, hiff.trans ⟨fun hno r' t' hres' => ?_, fun hno => hno r _ hres⟩⟩
    rw [hres] at hres'
    cases hres'
    exact hno
  · cases hstep

theorem counted_init (disk : ℕ → Bio.Data) : Counted 0 ∅ (initFs disk) where
  ref _ := rfl
  uniq j k hj _ _ _ := by simp [initFs, default] at hj
  locked k := by simp [initFs, default]

/-- **When inode references are conserved.** From a booted system, the reference
counts are right in every state a run visits exactly when none of its calls is a
successful `unlink`, a `chdir` to something that is no directory, or the last close
of a device file. -/
theorem refsOk_iff_noLoss (disk : ℕ → Bio.Data) (s₀ : St) (hboot : boot disk = .ok s₀)
    (as : List Act) : Along step RefsOk s₀ as ↔ Steps step NoLoss s₀ as := by
  refine @along_iff_steps _ _ step (fun s => Sound Counted 0 ∅ s) _ _ (fun s hs => ?_) ?_ ?_ as _ ?_
  · exact (refsOk_iff_lost hs).mpr rfl
  · intro s a s' hs hno hstep
    obtain ⟨D, hs', hiff⟩ := step_lost hs hstep
    rwa [hiff.mpr hno] at hs'
  · intro s a s' hs hloss hstep hok
    obtain ⟨D, hs', hiff⟩ := step_lost hs hstep
    exact hloss (hiff.mp ((refsOk_iff_lost hs').mp hok))
  · exact boot_spec Fs.counted_kept (counted_init disk) hboot

/-! ## §4  A small disk -/

/-- A directory block with these entries. -/
def dirBlock (entries : List (List UInt8)) : Bio.Data := fun p =>
  (entries.getD (p.val / Fs.direntSize) []).getD (p.val % Fs.direntSize) 0

/-- The name `a`. -/
def nameA : List UInt8 := [97]

/-- The name `tty`. -/
def nameTty : List UInt8 := [116, 116, 121]

/-- 64 blocks: the log from block 2 on, the inodes in block 32, the bitmap in block 33. The root
directory has block 34. It contains the file `a` and the device `tty`. -/
def smallDisk : ℕ → Bio.Data
  | 1 => Bytes.setWords Bytes.zero 0
      (fun j => [Fs.fsmagic, 64, 30, 8, logsize, 2, 32, 33].getD j 0) 8
  | 32 =>
    let b := Fs.writeDinode Bytes.zero 1
      ⟨Fs.tDir, 0, 0, 1, 64, fun i => if i.val = 0 then 34 else 0⟩
    let b := Fs.writeDinode b 2 ⟨Fs.tFile, 0, 0, 1, 0, fun _ => 0⟩
    Fs.writeDinode b 3 ⟨Fs.tDevice, 1, 0, 1, 0, fun _ => 0⟩
  | 33 => Bytes.setLE Bytes.zero 0 5 (2 ^ 35 - 1)
  | 34 => dirBlock [Fs.dirent Fs.dot 1, Fs.dirent Fs.dotdot 1, Fs.dirent nameA 2,
      Fs.dirent nameTty 3]
  | _ => Bytes.zero

/-- The path `/name`. -/
def rooted (name : List UInt8) : Option (List UInt8) := some (Fs.slash :: name)

instance (s : St) (pid : ℕ) (l : List (Fin nofile)) : Decidable (ClosesDevice s pid l) :=
  inferInstanceAs (Decidable (∃ _, _))

instance (x : File) : Decidable x.LastDevice := inferInstanceAs (Decidable (_ ∧ _))

instance (s : St) (pid : ℕ) (c : Call) (r : ℤ) : Decidable (Loses s pid c r) :=
  match c with
  | .unlink _ => inferInstanceAs (Decidable (r = 0))
  | .chdir _ => inferInstanceAs (Decidable (r = -Fs.enoent))
  | .close fd => inferInstanceAs (Decidable (∃ f, (s.task pid).lookup fd = some f ∧ _))
  | .exit => inferInstanceAs (Decidable (ClosesDevice s pid _))
  | .open _ _ _ | .dup _ | .fork _ | .mkdir _ | .mknod _ _ _ _ | .link _ _ | .write _ _ _ _ =>
    inferInstanceAs (Decidable False)

/-- `NoLoss` as a test. -/
def checkNoLoss (s : St) (a : Act) : Bool :=
  match run a.pid a.call s with
  | .ok (r, _) => ¬ Loses s a.pid a.call r
  | .error _ => true

theorem noLoss_of_check (s : St) (a : Act) (h : checkNoLoss s a = true) : NoLoss s a := by
  intro r s' hrun
  simpa [checkNoLoss, hrun] using h

/-- A run without losses: a file and a device are opened, shared by `fork` and `dup`
and closed, the device not for the last time; the last call fails. -/
def sharedFile : List Act :=
  [⟨0, .open (rooted nameA) [] Fs.oRdwr⟩, ⟨0, .open (rooted nameTty) [] 0⟩, ⟨0, .fork true⟩,
    ⟨1, .exit⟩, ⟨0, .dup 1⟩, ⟨0, .close 1⟩, ⟨0, .close 0⟩, ⟨0, .chdir (rooted [])⟩,
    ⟨0, .unlink (rooted Fs.dot)⟩]

theorem refsOk_sharedFile :
    ∃ s₀, boot smallDisk = .ok s₀ ∧ Along step RefsOk s₀ sharedFile := by
  have hcheck : (boot smallDisk).toOption.any (fun s =>
      checkSteps step checkNoLoss s sharedFile && (runFrom step s sharedFile).isSome) = true := by
    decide +kernel
  obtain ⟨s₀, hboot, hcheck⟩ := ok_of_check hcheck
  refine ⟨s₀, hboot, (refsOk_iff_noLoss smallDisk s₀ hboot sharedFile).mpr ?_⟩
  exact steps_of_check noLoss_of_check (Bool.and_eq_true_iff.mp hcheck).1

/-- The second entry of `itable`. -/
def slot1 : Ptr := ⟨1, by decide⟩

/-- `chdir("/a")` fails because `a` is a file, and leaves a reference to it behind. -/
theorem not_refsOk_chdirFile :
    ∃ s₀, boot smallDisk = .ok s₀ ∧ ¬ Along step RefsOk s₀ [⟨0, .chdir (rooted nameA)⟩] := by
  have hrun : (boot smallDisk).toOption.any (fun s =>
      (runFrom step s [⟨0, .chdir (rooted nameA)⟩]).map (fun s =>
        ((s.fs.inode slot1).ref, (filesOn s slot1).card, (tasksIn s slot1).card)) ==
          some (1, 0, 0)) = true := by
    decide +kernel
  obtain ⟨s₀, hboot, hrun⟩ := ok_of_check hrun
  obtain ⟨s, hs, hcount⟩ := Option.map_eq_some_iff.mp (eq_of_beq hrun)
  simp only [Prod.mk.injEq] at hcount
  refine ⟨s₀, hboot, fun halong => ?_⟩
  have href := (halong.last hs).ref slot1
  rw [hcount.1, hcount.2.1, hcount.2.2] at href
  cases href

end RiscvBm.SysFile

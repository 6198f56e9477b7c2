import RiscvBm.Fs.SysFile
import RiscvBm.Fs.Upper
import RiscvBm.Lib.Sums

/-!
# System calls, for any invariant

The references to inodes are those of open files and of current directories
(`refs`), and those that were lost: `unlink`, `chdir` to something that is no
directory, and the last `close` of a device file drop a pointer without `iput`.
`Sound I D` says that the invariant `I` of the file system holds for them, `D` being
the lost ones and those of the running call. `run_spec` shows for every call that it
is kept, and exactly when something is lost.
-/

namespace RiscvBm.SysFile

open Fs (Ptr Panic Src Ref Kept HasRef CwdOk Created Found)
open Wp Sums Function Finset

/-! ## §1  References -/

def File.refs (x : File) : Multiset Ref :=
  if 0 < x.ref ∧ (x.type = .inode ∨ x.type = .device) then
    match x.ip with
    | some k => {(k, x.writable)}
    | none => 0
  else 0

def Task.refs (t : Task) : Multiset Ref :=
  if t.alive then
    match t.cwd with
    | some k => {(k, false)}
    | none => 0
  else 0

/-- The references of open files and processes. -/
def refs (s : St) : Multiset Ref :=
  ∑ f, (s.file f).refs + ∑ p ∈ range s.ntask, (s.task p).refs

theorem refs_setFile (s : St) (f : FilePtr) (x : File) :
    refs (setFile s f x) + (s.file f).refs = refs s + x.refs := by
  have h := sum_update File.refs s.file (mem_univ f) x
  unfold refs setFile
  rw [add_right_comm, h, add_right_comm]

theorem refs_setTask (s : St) {pid : ℕ} (hpid : pid < s.ntask) (t : Task) :
    refs (setTask s pid t) + (s.task pid).refs = refs s + t.refs := by
  have h := sum_update Task.refs s.task (mem_range.mpr hpid) t
  unfold refs setTask
  rw [add_assoc, h, add_assoc]

variable {f : FilePtr} {x : File} {fs : Fs.St} {ip : Ptr} {b : Bool} {omode : BitVec 32}
  {T : Multiset Ref}

theorem refs_setFile_same (s : St) (h : x.refs = (s.file f).refs) :
    refs (setFile s f x) = refs s := by
  have hset := refs_setFile s f x
  rw [h] at hset
  exact add_right_cancel hset

theorem refs_setTask_same (s : St) {pid : ℕ} (hpid : pid < s.ntask) {t : Task}
    (h : t.refs = (s.task pid).refs) : refs (setTask s pid t) = refs s := by
  have hset := refs_setTask s hpid t
  rw [h] at hset
  exact add_right_cancel hset

theorem refs_setFd (s : St) {pid : ℕ} (hpid : pid < s.ntask) (fd : Fin nofile)
    (f : Option FilePtr) : refs (setFd s pid fd f) = refs s :=
  refs_setTask_same s hpid rfl

theorem refs_fork (s : St) (t : Task) :
    refs { setTask s s.ntask t with ntask := s.ntask + 1 } = refs s + t.refs := by
  have h := sum_update_of_notMem Task.refs s.task (i := s.ntask) (t := range s.ntask) (by simp) t
  unfold refs setTask
  dsimp only
  rw [sum_range_succ, h, update_self, add_assoc]

/-- The process that makes a call holds its current directory. -/
theorem hasRef_cwd {s : St} {pid : ℕ} (hpid : Running s pid) (R : Multiset Ref) :
    CwdOk (refs s + R) (s.task pid).cwd := by
  intro k hk
  have hrefs : (s.task pid).refs = {(k, false)} := by
    rw [Task.refs, if_pos hpid.2, hk]
  have hmem : (k, false) ∈ ∑ p ∈ range s.ntask, (s.task p).refs := by
    rw [← add_sum_erase _ _ (mem_range.mpr hpid.1), hrefs]
    simp
  exact ⟨false, Multiset.mem_add.mpr (Or.inl (Multiset.mem_add.mpr (Or.inr hmem)))⟩

/-! ## §2  The invariant -/

/-- The invariant holds for the references of the processes and the lost ones `D`. -/
structure Sound (I : Multiset Ref → Finset Ptr → Fs.St → Prop) (D : Multiset Ref)
    (L : Finset Ptr) (s : St) : Prop where
  fs : I (refs s + D) L s.fs
  idle : ∀ f, (s.file f).ref ≤ 0 → (s.file f).type = .none
  ip : ∀ f, (s.file f).type = .inode ∨ (s.file f).type = .device → ∃ k, (s.file f).ip = some k

/-- After a call nothing is held, and nothing that was lost is found again. -/
structure Done (I : Multiset Ref → Finset Ptr → Fs.St → Prop) (D D' : Multiset Ref) (s : St) :
    Prop where
  sound : Sound I D' ∅ s
  le : D ≤ D'

variable {I : Multiset Ref → Finset Ptr → Fs.St → Prop} {inumOk : ℕ → Prop} {E : Panic → Prop}
  {D D' : Multiset Ref} {L : Finset Ptr} {s : St} {pid : ℕ}

theorem Sound.done (h : Sound I D ∅ s) : Done I D D s := ⟨h, le_rfl⟩

theorem wp_onFs {α : Type} {c : Fs.Prog α} {P : α → Fs.St → Prop} (h : wp c P E s.fs) :
    wp (onFs c) (fun a s' => ∃ fs, P a fs ∧ s' = { s with fs := fs }) E s :=
  wp_zoom (wp_post h fun _ t ht => ⟨t, ht, rfl⟩)

/-- The file system moved to another state. -/
theorem Sound.setFs {L' : Finset Ptr} (h : Sound I D L s)
    (hfs : I (refs s + D') L' fs) : Sound I D' L' { s with fs := fs } :=
  ⟨hfs, h.idle, h.ip⟩

/-- A file-table entry is changed; `D` and `D'` make up the difference. -/
theorem Sound.setFile (h : Sound I D L s)
    (href : x.refs + D' = (s.file f).refs + D) (hidle : x.ref ≤ 0 → x.type = .none)
    (hip : x.type = .inode ∨ x.type = .device → ∃ k, x.ip = some k) :
    Sound I D' L (setFile s f x) := by
  have hrefs : refs (SysFile.setFile s f x) + D' = refs s + D := by
    have hset := refs_setFile s f x
    apply add_right_cancel (b := (s.file f).refs)
    calc refs (SysFile.setFile s f x) + D' + (s.file f).refs
        = refs (SysFile.setFile s f x) + (s.file f).refs + D' := add_right_comm _ _ _
      _ = refs s + (x.refs + D') := by rw [hset, add_assoc]
      _ = refs s + D + (s.file f).refs := by rw [href, add_comm (s.file f).refs, add_assoc]
  refine ⟨?_, fun g hg => ?_, fun g hg => ?_⟩
  · rw [hrefs]
    exact h.fs
  · by_cases hgf : g = f
    · subst hgf
      simp only [SysFile.setFile, update_self] at hg ⊢
      exact hidle hg
    · simp only [SysFile.setFile, update_of_ne hgf] at hg ⊢
      exact h.idle g hg
  · by_cases hgf : g = f
    · subst hgf
      simp only [SysFile.setFile, update_self] at hg ⊢
      exact hip hg
    · simp only [SysFile.setFile, update_of_ne hgf] at hg ⊢
      exact h.ip g hg

theorem Sound.setFd (h : Sound I D L s) (hpid : pid < s.ntask) (fd : Fin nofile)
    (f : Option FilePtr) : Sound I D L (setFd s pid fd f) := by
  refine ⟨?_, h.idle, h.ip⟩
  rw [refs_setFd s hpid]
  exact h.fs

/-! ## §3  The file table -/

/-- The entry after `fileclose`. -/
def File.closed (x : File) : File :=
  if 0 < x.ref - 1 then { x with ref := x.ref - 1 } else { x with ref := 0, type := .none }

/-- `fileclose` would drop the last reference to a device file. -/
def File.LastDevice (x : File) : Prop := x.type = .device ∧ x.ref = 1

/-- Only the entry `f` of the file table is different. -/
structure OnlyFile (f : FilePtr) (x : File) (s s' : St) : Prop where
  file : s'.file = update s.file f x
  task : s'.task = s.task
  ntask : s'.ntask = s.ntask

theorem File.refs_of_ip {k : Ptr} (hr : 0 < x.ref)
    (ht : x.type = .inode ∨ x.type = .device) (hip : x.ip = some k) :
    x.refs = {(k, x.writable)} := by
  rw [File.refs, if_pos ⟨hr, ht⟩, hip]

variable (h : Kept I inumOk E)
include h

theorem closeLast_spec {ff : File} (hs : Sound I (ff.refs + D) L s)
    (hL : L = ∅ ∨ ff.type = .none) (hr : ff.ref = 1)
    (hip : ff.type = .inode ∨ ff.type = .device → ∃ k, ff.ip = some k) :
    wp (closeLast ff) (fun _ s' => ∃ fs D', Sound I D' L s' ∧ s' = { s with fs := fs } ∧
      D ≤ D' ∧ (D' = D ↔ ¬ ff.LastDevice)) E s := by
  have hpos : 0 < ff.ref := by omega
  have hheld : ∀ {k}, ff.type = .inode ∨ ff.type = .device → ff.ip = some k →
      Sound I ((k, ff.writable) ::ₘ D) L s := by
    intro k ht hk
    rwa [File.refs_of_ip hpos ht hk, Multiset.singleton_add] at hs
  cases ht : ff.type with
  | inode =>
    obtain ⟨k, hk⟩ := hip (Or.inl ht)
    have hL : L = ∅ := hL.resolve_right (by simp [ht])
    subst hL
    unfold closeLast
    rw [ht, hk]
    have hfs := (hheld (Or.inl ht) hk).fs
    rw [Multiset.add_cons] at hfs
    refine wp_post (wp_onFs (h.iput hfs (Or.inl (notMem_empty k)))) ?_
    rintro _ s' ⟨fs, hfs', rfl⟩
    exact ⟨fs, D, hs.setFs hfs', rfl, le_rfl, by simp [File.LastDevice, ht]⟩
  | device =>
    obtain ⟨k, hk⟩ := hip (Or.inr ht)
    unfold closeLast
    rw [ht]
    refine wp_pure ⟨s.fs, _, hheld (Or.inr ht) hk, rfl, Multiset.le_cons_self _ _, ?_⟩
    exact iff_of_false (Multiset.lt_cons_self _ _).ne' (not_not.mpr ⟨ht, hr⟩)
  | none | pipe | sock =>
    have hrefs : ff.refs = 0 := by simp [File.refs, ht]
    rw [hrefs, zero_add] at hs
    unfold closeLast
    rw [ht]
    exact wp_pure ⟨s.fs, D, hs, rfl, le_rfl, by simp [File.LastDevice, ht]⟩

theorem fileclose_spec (hs : Sound I D L s) (hL : L = ∅ ∨ (s.file f).type = .none) :
    wp (fileclose f) (fun _ s' => ∃ D', Sound I D' L s' ∧
      OnlyFile f (s.file f).closed s s' ∧ 1 ≤ (s.file f).ref ∧ D ≤ D' ∧
      (D' = D ↔ ¬ (s.file f).LastDevice)) E s := by
  refine wp_get (wp_require_bind (fun hr => ?_) fun _ => h.err _ (by decide))
  have hr : 1 ≤ (s.file f).ref := of_decide_eq_true hr
  refine wp_ite (fun hmore => wp_modify ⟨D, ?_, ⟨?_, rfl, rfl⟩, hr, le_rfl, ?_⟩) (fun hlast => ?_)
  · refine hs.setFile ?_ (fun h0 => ?_) (hs.ip f)
    · congr 1
      have hpos : 0 < (s.file f).ref := by omega
      simp only [File.refs, hmore, hpos, true_and]
    · have : (s.file f).ref - 1 ≤ 0 := h0
      omega
  · simp only [File.closed, if_pos hmore]
    rfl
  · refine iff_of_true rfl fun hdev => ?_
    have := hdev.2
    omega
  · have hone : (s.file f).ref = 1 := by omega
    refine wp_modify_bind (wp_post (closeLast_spec h (D := D) ?_ hL hone (hs.ip f)) ?_)
    · refine hs.setFile ?_ (fun _ => rfl) (fun ht => by simp at ht)
      simp [File.refs]
    · rintro _ s' ⟨fs, D', hs', rfl, hle, hiff⟩
      refine ⟨D', hs', ⟨?_, rfl, rfl⟩, hr, hle, hiff⟩
      simp only [File.closed, if_neg hlast]
      rfl

theorem filedup_spec (hs : Sound I D L s) (f : FilePtr) :
    wp (filedup f) (fun _ s' => Sound I D L s' ∧
      OnlyFile f { s.file f with ref := (s.file f).ref + 1 } s s') E s := by
  refine wp_get (wp_require_bind (fun hr => ?_) fun _ => h.err _ (by decide))
  have hr : 1 ≤ (s.file f).ref := of_decide_eq_true hr
  refine wp_modify ⟨hs.setFile ?_ (fun h0 => ?_) (hs.ip f), rfl, rfl, rfl⟩
  · congr 1
    have h₁ : 0 < (s.file f).ref := by omega
    have h₂ : 0 < (s.file f).ref + 1 := by omega
    simp only [File.refs, h₁, h₂, true_and]
  · have : (s.file f).ref + 1 ≤ 0 := h0
    omega

omit h in
theorem filealloc_spec (hs : Sound I D L s) :
    wp filealloc (fun r s' => Sound I D L s' ∧ s'.task = s.task ∧ s'.ntask = s.ntask ∧
      s'.fs = s.fs ∧ ∀ f, r = some f → (s'.file f).type = .none ∧ (s'.file f).ref = 1) E s := by
  refine wp_get ?_
  cases hfind : (List.finRange nfile).find? fun f => (s.file f).ref = 0 with
  | none => exact wp_pure ⟨hs, rfl, rfl, rfl, by simp⟩
  | some f =>
    have hf : (s.file f).ref = 0 := by simpa using List.find?_some hfind
    have hnone := hs.idle f hf.le
    refine wp_modify_bind (wp_pure ⟨hs.setFile ?_ ?_ ?_, rfl, rfl, rfl, ?_⟩)
    · simp [File.refs, hf, hnone]
    · exact fun h0 => absurd h0 (by simp)
    · exact fun ht => by simp [hnone] at ht
    · rintro g hg
      cases hg
      simp [setFile, hnone]

/-! ## §4  Descriptors -/

omit h in
theorem fdalloc_spec (hs : Sound I D L s) (hpid : pid < s.ntask) (f : Option FilePtr) :
    wp (fdalloc pid f) (fun _ s' => Sound I D L s' ∧ s'.ntask = s.ntask ∧ s'.file = s.file ∧
      s'.fs = s.fs ∧ (s'.task pid).alive = (s.task pid).alive) E s := by
  refine wp_get ?_
  cases (List.finRange nofile).find? fun fd => (s.task pid).ofile fd = none with
  | none => exact wp_pure ⟨hs, rfl, rfl, rfl, rfl⟩
  | some fd =>
    refine wp_modify_bind (wp_pure ⟨hs.setFd hpid fd f, rfl, rfl, rfl, ?_⟩)
    simp [setFd, setTask]

/-- `current->ofile[fd]` inside the bounds -/
def Task.lookup (t : Task) (fd : ℤ) : Option FilePtr := (fdIndex fd).bind t.ofile

theorem descriptor_spec (fd : ℤ) :
    wp (descriptor pid fd) (fun r s' => s = s' ∧ r.2 = (s.task pid).lookup fd) E s := by
  refine wp_get ?_
  cases hfd : fdIndex fd with
  | some fd' => exact wp_pure ⟨rfl, by rw [Task.lookup, hfd, Option.bind_some]⟩
  | none => exact wp_throw (h.err _ (by decide))

theorem sysClose_spec (hs : Sound I D ∅ s) (hpid : Running s pid) (fd : ℤ) :
    wp (sysClose pid fd) (fun _ s' => ∃ D', Done I D D' s' ∧
      (D' = D ↔ ¬ ∃ f, (s.task pid).lookup fd = some f ∧ (s.file f).LastDevice)) E s := by
  refine wp_bind (descriptor_spec h fd) ?_
  rintro ⟨fd', f⟩ _ ⟨rfl, hf⟩
  dsimp only at hf
  rw [← hf]
  cases f with
  | none => exact wp_pure ⟨D, hs.done, by simp⟩
  | some f =>
    refine wp_modify_bind (wp_bind (fileclose_spec h (hs.setFd hpid.1 fd' none) (Or.inl rfl)) ?_)
    rintro _ s' ⟨D', hs', -, -, hle, hiff⟩
    refine wp_pure ⟨D', ⟨hs', hle⟩, hiff.trans (not_congr ?_)⟩
    constructor
    · exact fun hdev => ⟨f, rfl, hdev⟩
    · rintro ⟨g, hg, hdev⟩
      cases hg
      exact hdev

theorem sysDup_spec (hs : Sound I D ∅ s) (hpid : Running s pid) (fd : ℤ) :
    wp (sysDup pid fd) (fun _ s' => Done I D D s') E s := by
  refine wp_bind (descriptor_spec h fd) ?_
  rintro ⟨_, f⟩ _ ⟨rfl, -⟩
  refine wp_bind (fdalloc_spec hs hpid.1 f) ?_
  rintro (_ | newfd) s ⟨hs, -⟩
  · exact wp_pure hs.done
  · cases f with
    | none => exact wp_throw (h.err _ (by decide))
    | some f => exact wp_bind (filedup_spec h hs f) fun _ s hs => wp_pure hs.1.done

theorem writeOnce_spec (hs : Sound I D ∅ s) (hopen : (ip, true) ∈ refs s) (src : Src) (n : ℕ) :
    wp (writeOnce f ip src n) (fun _ s' => Sound I D ∅ s' ∧ refs s' = refs s) E s := by
  have hmem : (ip, true) ∈ refs s + D := Multiset.mem_add.mpr (Or.inl hopen)
  have hwrite : ∀ src off, wp (do
      Fs.ilock ip
      let r ← Fs.writei ip src off n
      Fs.iunlock ip
      return r) (fun _ fs => I (refs s + D) ∅ fs) E s.fs := by
    intro src off
    refine wp_bind (h.ilock hs.fs) ?_
    rintro _ fs ⟨hip, hfs⟩
    refine wp_bind (h.writei hfs (mem_insert_self _ _) hmem) fun r fs hfs => ?_
    refine wp_bind (h.iunlock hfs) fun _ fs hfs => wp_pure ?_
    rwa [erase_insert hip] at hfs
  refine wp_get (wp_bind (wp_onFs (hwrite _ _)) ?_)
  rintro r _ ⟨fs, hfs, rfl⟩
  have hs' := hs.setFs hfs
  refine wp_modify_bind (wp_pure ?_)
  split_ifs
  · refine ⟨hs'.setFile rfl (hs.idle f) (hs.ip f), ?_⟩
    exact refs_setFile_same _ rfl
  · exact ⟨hs', rfl⟩

theorem filewriteLoop_spec (src : Src) (n fuel i : ℕ) (hs : Sound I D ∅ s)
    (hopen : (ip, true) ∈ refs s) :
    wp (filewriteLoop f ip src n fuel i) (fun _ s' => Sound I D ∅ s') E s := by
  induction fuel generalizing s i with
  | zero => exact wp_pure hs
  | succ fuel ih =>
    refine wp_ite (fun _ => ?_) (fun _ => wp_pure hs)
    refine wp_bind (writeOnce_spec h hs hopen _ _) ?_
    rintro r s' ⟨hs', hrefs⟩
    refine wp_ite (fun _ => ih _ hs' ?_) (fun _ => wp_pure hs')
    rwa [hrefs]

/-- A writable file is no directory. -/
theorem filewrite_spec (hs : Sound I D ∅ s) (f : FilePtr) (src : Src) (n : ℕ) (other : ℤ) :
    wp (filewrite f src n other) (fun _ s' => Sound I D ∅ s') E s := by
  refine wp_get (wp_ite (fun _ => wp_pure hs) (fun hwr => ?_))
  have hwr : (s.file f).writable = true := by simpa using hwr
  cases ht : (s.file f).type with
  | inode =>
    obtain ⟨k, hk⟩ := hs.ip f (Or.inl ht)
    rw [hk]
    have hmem : (k, true) ∈ refs s := by
      have hr : 0 < (s.file f).ref := by
        by_contra hr
        have hnone := hs.idle f (by omega)
        rw [ht] at hnone
        cases hnone
      have hf := File.refs_of_ip hr (Or.inl ht) hk
      rw [hwr] at hf
      have hsum : (k, true) ∈ ∑ f, (s.file f).refs := by
        rw [← add_sum_erase _ _ (mem_univ f), hf]
        simp
      exact Multiset.mem_add.mpr (Or.inl hsum)
    exact wp_bind (filewriteLoop_spec h src n n 0 hs hmem) fun _ s hs => wp_pure hs
  | none | pipe | device | sock => exact wp_pure hs

theorem sysWrite_spec (hs : Sound I D ∅ s) (fd : ℤ) (buf : Option Src) (count other : ℤ) :
    wp (sysWrite pid fd buf count other) (fun _ s' => Done I D D s') E s := by
  refine wp_bind (descriptor_spec h fd) ?_
  rintro ⟨_, f⟩ _ ⟨rfl, -⟩
  cases buf with
  | none => exact wp_pure hs.done
  | some src =>
    cases f with
    | none => exact wp_pure hs.done
    | some f =>
      refine wp_ite (fun _ => wp_pure hs.done) (fun _ => ?_)
      exact wp_post (filewrite_spec h hs f src _ other) fun _ s hs => hs.done

/-! ## §5  `open` -/

theorem openFail_spec (hs : Sound I ((ip, b) ::ₘ D) (insert ip ∅) s) :
    wp (openFail ip) (fun _ s' => Done I D D s') E s := by
  have hfs := hs.fs
  rw [Multiset.add_cons] at hfs
  refine wp_bind (wp_onFs (h.iunlockput hfs (notMem_empty ip))) ?_
  rintro _ _ ⟨fs, hfs', rfl⟩
  exact wp_pure (hs.setFs hfs').done

omit h in
/-- A file that can be written was opened with a mode other than `O_RDONLY`. -/
theorem omode_of_writable
    (h : omode &&& Fs.oWronly ≠ 0 ∨ omode &&& Fs.oRdwr ≠ 0) : omode ≠ 0 := by
  rintro rfl
  revert h
  decide

theorem truncUnlock_spec (hfs : I T (insert ip ∅) fs) (omode : BitVec 32) :
    wp (truncUnlock ip omode) (fun _ fs' => I T ∅ fs') E fs := by
  refine wp_get (wp_bind (Q := fun _ fs' => I T (insert ip ∅) fs') ?_ ?_)
  · exact wp_ite (fun _ => h.itrunc hfs (mem_insert_self _ _)) (fun _ => wp_pure hfs)
  · refine fun _ fs hfs => wp_post (h.iunlock hfs) fun _ fs hfs => ?_
    rwa [erase_insert (notMem_empty _)] at hfs

theorem openFile_spec {fd : Fin nofile} (hs : Sound I ((ip, b) ::ₘ D) (insert ip ∅) s)
    (hb : omode ≠ 0 → b = true) (hnone : (s.file f).type = .none) (hone : (s.file f).ref = 1) :
    wp (openFile f fd ip omode) (fun _ s' => Done I D D s') E s := by
  set x := (s.file f).opened ip (s.fs.inode ip) omode with hx
  have hip : x.ip = some ip := by
    rw [hx, File.opened]
    split_ifs <;> rfl
  have href : x.ref = 1 := by
    rw [hx, File.opened]
    split_ifs <;> exact hone
  have htype : x.type = .inode ∨ x.type = .device := by
    rw [hx, File.opened]
    split_ifs
    · exact Or.inr rfl
    · exact Or.inl rfl
  have hwritable : x.writable = true → omode ≠ 0 := by
    intro hw
    apply omode_of_writable
    rw [hx, File.opened] at hw
    split_ifs at hw <;> exact of_decide_eq_true hw
  -- the reference of the call becomes the one of the file
  have hflag : Sound I ((ip, x.writable) ::ₘ D) (insert ip ∅) s := by
    refine ⟨?_, hs.idle, hs.ip⟩
    have hfs := hs.fs
    rw [Multiset.add_cons] at hfs ⊢
    cases hw : x.writable with
    | true =>
      rw [hb (hwritable hw)] at hfs
      exact hfs
    | false => exact h.forget hfs
  have hfile : Sound I D (insert ip ∅) (setFile s f x) := by
    refine hflag.setFile ?_ (fun h0 => ?_) (fun _ => ⟨ip, hip⟩)
    · rw [File.refs_of_ip (by omega) htype hip]
      simp [File.refs, hnone]
    · omega
  refine wp_modify_bind (wp_bind (wp_onFs (truncUnlock_spec h hfile.fs omode)) ?_)
  rintro _ _ ⟨fs, hfs, rfl⟩
  exact wp_pure (hfile.setFs hfs).done

theorem openLocked_spec (hs : Sound I ((ip, b) ::ₘ D) (insert ip ∅) s) (hb : omode ≠ 0 → b = true)
    (hpid : pid < s.ntask) : wp (openLocked pid ip omode) (fun _ s' => Done I D D s') E s := by
  refine wp_get (wp_ite (fun _ => openFail_spec h hs) (fun _ => ?_))
  refine wp_bind (filealloc_spec hs) ?_
  rintro (_ | f) s₁ ⟨hs₁, -, hntask, -, hf⟩
  · exact openFail_spec h hs₁
  · obtain ⟨hnone, hone⟩ := hf f rfl
    refine wp_bind (fdalloc_spec hs₁ (hntask ▸ hpid) (some f)) ?_
    rintro (_ | fd) s₂ ⟨hs₂, -, hfile, -⟩
    · rw [← hfile] at hnone
      refine wp_bind (fileclose_spec h hs₂ (Or.inr hnone)) ?_
      rintro _ s₃ ⟨D', hs₃, -, -, -, hiff⟩
      have hD : D' = (ip, b) ::ₘ D := hiff.mpr fun hdev => by
        rw [hdev.1] at hnone
        cases hnone
      rw [hD] at hs₃
      exact openFail_spec h hs₃
    · rw [← hfile] at hnone hone
      exact openFile_spec h hs₂ hb hnone hone

theorem sysOpen_spec (hs : Sound I D ∅ s) (hpid : Running s pid)
    {pathname : Option (List UInt8)} {beyond : List UInt8} :
    wp (sysOpen pid pathname beyond omode) (fun _ s' => Done I D D s') E s := by
  cases pathname with
  | none => exact wp_pure hs.done
  | some pathname =>
    refine wp_ite (fun _ => wp_pure hs.done) (fun _ => wp_get ?_)
    refine wp_bind (wp_onFs (h.openInode hs.fs (hasRef_cwd hpid D))) ?_
    rintro (_ | ip) _ ⟨fs, hfs, rfl⟩
    · exact wp_pure (hs.setFs hfs).done
    · obtain ⟨b, hb, hfs⟩ := hfs
      rw [← Multiset.add_cons] at hfs
      exact openLocked_spec h (hs.setFs hfs) hb hpid.1

/-! ## §6  Processes -/

omit h in
theorem Task.refs_of_cwd {t : Task} {k : Ptr} (ha : t.alive = true) (hk : t.cwd = some k) :
    t.refs = {(k, false)} := by
  rw [Task.refs, if_pos ha, hk]

omit h in
/-- The references without the one of a process that runs. -/
theorem refs_without_cwd (hpid : Running s pid) :
    ∃ R, ∀ cwd, refs (setTask s pid { s.task pid with cwd := cwd }) =
      ({ s.task pid with cwd := cwd } : Task).refs + R := by
  refine ⟨refs (setTask s pid { s.task pid with cwd := none }), fun cwd => ?_⟩
  have h₁ := refs_setTask s hpid.1 { s.task pid with cwd := cwd }
  have h₂ := refs_setTask s hpid.1 { s.task pid with cwd := none }
  have hnone : ({ s.task pid with cwd := none } : Task).refs = 0 := by simp [Task.refs]
  rw [hnone, add_zero] at h₂
  rw [← h₂, add_right_comm] at h₁
  rw [add_comm]
  exact add_right_cancel h₁

omit h in
theorem Sound.setCwd {cwd : Option Ptr} (h : Sound I D L s)
    (hfs : I (refs (setTask s pid { s.task pid with cwd := cwd }) + D') ∅ fs) :
    Sound I D' ∅ (setTask { s with fs := fs } pid { s.task pid with cwd := cwd }) :=
  ⟨hfs, h.idle, h.ip⟩

theorem sysChdir_spec (hs : Sound I D ∅ s) (hpid : Running s pid) (path : Option (List UInt8)) :
    wp (sysChdir pid path)
      (fun r s' => ∃ D', Done I D D' s' ∧ (D' = D ↔ ¬ r = -Fs.enoent)) E s := by
  obtain ⟨R, hR⟩ := refs_without_cwd hpid
  have hself : refs (setTask s pid { s.task pid with cwd := (s.task pid).cwd }) = refs s :=
    refs_setTask_same s hpid.1 rfl
  have hT : ∀ k, (s.task pid).cwd = some k → ∃ b, refs s + D = (k, b) ::ₘ (R + D) := by
    intro k hk
    refine ⟨false, ?_⟩
    rw [← hself, hR, Task.refs_of_cwd hpid.2 hk, Multiset.singleton_add, Multiset.cons_add]
  refine wp_get (wp_bind (wp_onFs (h.sysChdir hs.fs hT)) ?_)
  rintro ⟨r, cwd⟩ _ ⟨fs, hfs, rfl⟩
  rcases hfs with ⟨heq, hfs⟩ | ⟨heq, ip, hfs⟩ | ⟨ip, heq, hfs⟩
  · cases heq
    refine wp_modify_bind (wp_pure ⟨D, (hs.setCwd ?_).done, by simp [Fs.einval, Fs.enoent]⟩)
    rw [hself]
    exact hfs
  · cases heq
    refine wp_modify_bind (wp_pure ⟨(ip, false) ::ₘ D, ⟨hs.setCwd ?_, ?_⟩, ?_⟩)
    · rw [hself, Multiset.add_cons]
      exact hfs
    · exact Multiset.le_cons_self _ _
    · exact iff_of_false (Multiset.lt_cons_self _ _).ne' (by simp)
  · cases heq
    refine wp_modify_bind (wp_pure ⟨D, (hs.setCwd ?_).done, by simp [Fs.enoent]⟩)
    have hcwd : ({ s.task pid with cwd := some ip } : Task).refs = {(ip, false)} :=
      Task.refs_of_cwd hpid.2 rfl
    rw [hR, hcwd, Multiset.singleton_add, Multiset.cons_add]
    exact hfs

theorem dupFds_spec (hs : Sound I D ∅ s) (l : List (Fin nofile)) :
    wp (forEach (dupFd pid) l)
      (fun _ s' => Sound I D ∅ s' ∧ s'.task = s.task ∧ s'.ntask = s.ntask) E s := by
  refine wp_forEach (I := fun _ s' => Sound I D ∅ s' ∧ s'.task = s.task ∧ s'.ntask = s.ntask)
    ?_ ⟨hs, rfl, rfl⟩
  rintro fd l t ⟨ht, htask, hntask⟩
  refine wp_get ?_
  cases (t.task pid).ofile fd with
  | none => exact wp_pure ⟨ht, htask, hntask⟩
  | some f =>
    refine wp_post (filedup_spec h ht f) ?_
    rintro _ u ⟨hu, hfile⟩
    exact ⟨hu, hfile.task.trans htask, hfile.ntask.trans hntask⟩

theorem sysFork_spec (hs : Sound I D ∅ s) (hpid : Running s pid)
    (granted : Bool) : wp (sysFork pid granted) (fun _ s' => Done I D D s') E s := by
  refine wp_ite (fun _ => ?_) (fun _ => wp_pure hs.done)
  refine wp_bind (dupFds_spec h hs _) ?_
  rintro _ t ⟨ht, htask, hntask⟩
  have hrun : Running t pid := by
    unfold Running
    rw [htask, hntask]
    exact hpid
  refine wp_get ?_
  cases hcwd : (t.task pid).cwd with
  | none => exact wp_throw (h.err _ (by decide))
  | some cwd =>
    refine wp_bind (wp_onFs (h.idup ht.fs (hasRef_cwd hrun D cwd hcwd))) ?_
    rintro r _ ⟨fs, ⟨hr, hfs⟩, rfl⟩
    rw [← hr] at hfs
    refine wp_modify_bind (wp_pure (Sound.done ⟨?_, ht.idle, ht.ip⟩))
    have hchild : ({ t.task pid with cwd := some r } : Task).refs = {(r, false)} :=
      Task.refs_of_cwd hrun.2 rfl
    rw [refs_fork, hchild, add_right_comm, add_comm, Multiset.singleton_add]
    exact hfs

/-- How many of the descriptors `l` are for the file `f`. -/
def Task.slots (t : Task) (l : List (Fin nofile)) (f : FilePtr) : ℕ :=
  l.countP fun fd => t.ofile fd = some f

/-- Closing the descriptors `l` closes a device file for the last time. -/
def ClosesDevice (s : St) (pid : ℕ) (l : List (Fin nofile)) : Prop :=
  ∃ f, (s.file f).type = .device ∧ 0 < (s.task pid).slots l f ∧
    (s.file f).ref ≤ (s.task pid).slots l f

omit h in
theorem Task.slots_cons (t : Task) (fd : Fin nofile) (l : List (Fin nofile)) (f : FilePtr) :
    t.slots (fd :: l) f = t.slots l f + if t.ofile fd = some f then 1 else 0 := by
  simp [Task.slots, List.countP_cons]

omit h in
/-- Closing one descriptor that closes no device file for the last time leaves the
question open for the others. -/
theorem closesDevice_cons {t : St} {fd : Fin nofile} {l : List (Fin nofile)}
    (hfd : (s.task pid).ofile fd = some f) (hr : 1 ≤ (s.file f).ref)
    (hdev : ¬ (s.file f).LastDevice) (hfile : t.file = update s.file f (s.file f).closed)
    (hslots : ∀ g, (t.task pid).slots l g = (s.task pid).slots l g) :
    ClosesDevice s pid (fd :: l) ↔ ClosesDevice t pid l := by
  unfold ClosesDevice
  refine exists_congr fun g => ?_
  rw [Task.slots_cons, hslots, hfd, hfile]
  by_cases hgf : g = f
  · subst hgf
    rw [update_self, File.closed, if_pos rfl]
    simp only [File.LastDevice, not_and] at hdev
    split_ifs with hmore
    · refine and_congr_right fun _ => ?_
      push_cast
      omega
    · have hone : (s.file g).ref = 1 := by omega
      simp only [false_and, iff_false, not_and]
      exact fun ht => absurd hone (hdev ht)
  · have hne : ¬ (some f = some g) := fun h => hgf (Option.some.inj h).symm
    rw [update_of_ne hgf, if_neg hne, add_zero]

/-- What `exitFd` leaves: the rest of the descriptors is as before. -/
theorem exitFds_spec (hpid : Running s pid) {l : List (Fin nofile)}
    (hl : l.Nodup) (hs : Sound I D ∅ s) :
    wp (forEach (exitFd pid) l) (fun _ s' => ∃ D', Done I D D' s' ∧ Running s' pid ∧
      (s'.task pid).cwd = (s.task pid).cwd ∧ (D' = D ↔ ¬ ClosesDevice s pid l)) E s := by
  induction l generalizing s D with
  | nil => exact wp_pure ⟨D, hs.done, hpid, rfl, by simp [ClosesDevice, Task.slots]⟩
  | cons fd l ih =>
    obtain ⟨hmem, hl⟩ := List.nodup_cons.mp hl
    refine wp_bind (Q := fun _ t => ∃ D₁, Done I D D₁ t ∧ Running t pid ∧
      (t.task pid).cwd = (s.task pid).cwd ∧
      ((D₁ = D ∧ ¬ ClosesDevice t pid l) ↔ ¬ ClosesDevice s pid (fd :: l))) (wp_get ?_) ?_
    · cases hfd : (s.task pid).ofile fd with
      | none =>
        refine wp_pure ⟨D, hs.done, hpid, rfl, ?_⟩
        simp [ClosesDevice, Task.slots_cons, hfd]
      | some f =>
        refine wp_bind (fileclose_spec h hs (Or.inl rfl)) ?_
        rintro _ t ⟨D₁, ht, hfile, hr, hle, hiff⟩
        have hpid' : pid < t.ntask := by
          rw [hfile.ntask]
          exact hpid.1
        refine wp_modify ⟨D₁, ⟨ht.setFd hpid' fd none, hle⟩, ⟨hpid', ?_⟩, ?_, ?_⟩
        · simp [setFd, setTask, hfile.task, hpid.2]
        · simp [setFd, setTask, hfile.task]
        · by_cases hdev : (s.file f).LastDevice
          · refine iff_of_false (fun hD => absurd hdev (hiff.mp hD.1)) (not_not.mpr ?_)
            refine ⟨f, hdev.1, ?_, ?_⟩ <;> rw [Task.slots_cons, if_pos hfd]
            · omega
            · have := hdev.2
              push_cast
              omega
          · rw [hiff.mpr hdev, closesDevice_cons hfd hr hdev (t := setFd t pid fd none)
              hfile.file fun g => ?_]
            · simp
            · refine List.countP_congr fun fd' hfd' => ?_
              have hne : fd' ≠ fd := fun heq => hmem (heq ▸ hfd')
              simp [setFd, setTask, hfile.task, hne]
    · rintro _ t ⟨D₁, ht, hrun, hcwd, hiff₁⟩
      refine wp_post (ih hrun hl ht.sound) ?_
      rintro _ u ⟨D₂, hu, hrun', hcwd', hiff₂⟩
      refine ⟨D₂, ⟨hu.sound, ht.le.trans hu.le⟩, hrun', hcwd'.trans hcwd, ?_⟩
      rw [← hiff₁, ← hiff₂]
      constructor
      · rintro rfl
        have heq := le_antisymm hu.le ht.le
        exact ⟨heq, heq.symm⟩
      · rintro ⟨h₁, h₂⟩
        rw [h₂, h₁]

theorem doExit_spec (hs : Sound I D ∅ s) (hpid : Running s pid) :
    wp (doExit pid) (fun _ s' => ∃ D', Done I D D' s' ∧
      (D' = D ↔ ¬ ClosesDevice s pid (List.finRange nofile))) E s := by
  refine wp_bind (exitFds_spec h hpid (List.nodup_finRange _) hs) ?_
  rintro _ t ⟨D', ht, hrun, -, hiff⟩
  -- `iput` drops the reference that the dead process no longer has
  have hdead : refs (setTask t pid { t.task pid with alive := false }) + (t.task pid).refs =
      refs t := by
    rw [refs_setTask t hrun.1]
    simp [Task.refs]
  have hfs := ht.sound.fs
  rw [← hdead] at hfs
  refine wp_get (wp_bind (Q := fun _ u => ∃ fs, u = { t with fs := fs } ∧
    I (refs (setTask t pid { t.task pid with alive := false }) + D') ∅ fs) ?_ ?_)
  · cases hcwd : (t.task pid).cwd with
    | none =>
      have hnone : (t.task pid).refs = 0 := by simp [Task.refs, hcwd]
      rw [hnone, add_zero] at hfs
      exact wp_pure ⟨t.fs, rfl, hfs⟩
    | some cwd =>
      rw [Task.refs_of_cwd hrun.2 hcwd, add_right_comm, add_comm, Multiset.singleton_add] at hfs
      refine wp_post (wp_onFs (h.iput hfs (Or.inl (notMem_empty cwd)))) ?_
      rintro _ _ ⟨fs, hfs', rfl⟩
      exact ⟨fs, rfl, hfs'⟩
  · rintro _ _ ⟨fs, rfl, hfs'⟩
    exact wp_modify_bind (wp_pure ⟨D', ⟨⟨hfs', ht.sound.idle, ht.sound.ip⟩, ht.le⟩, hiff⟩)

/-! ## §7  All calls -/

/-- The calls that lose a reference, by their arguments and result: `unlink` that
succeeds, `chdir` to something that is no directory, and the last close of a device
file, by `close` or by `exit`. -/
def Loses (s : St) (pid : ℕ) : Call → ℤ → Prop
  | .unlink _, r => r = 0
  | .chdir _, r => r = -Fs.enoent
  | .close fd, _ => ∃ f, (s.task pid).lookup fd = some f ∧ (s.file f).LastDevice
  | .exit, _ => ClosesDevice s pid (List.finRange nofile)
  | _, _ => False

/-- Every call keeps the invariant; references are lost by the calls of `Loses` only,
and by each of them. -/
theorem run_spec (hs : Sound I D ∅ s) (hpid : Running s pid) (c : Call) :
    wp (run pid c) (fun r s' => ∃ D', Done I D D' s' ∧ (D' = D ↔ ¬ Loses s pid c r)) E s := by
  have hcwd := hasRef_cwd hpid D
  have hdone : ∀ {c r s'}, (∀ s r, ¬ Loses s pid c r) → Done I D D s' →
      ∃ D', Done I D D' s' ∧ (D' = D ↔ ¬ Loses s pid c r) :=
    fun hno hs' => ⟨D, hs', iff_of_true rfl (hno _ _)⟩
  cases c with
  | «open» pathname beyond omode =>
    exact wp_post (sysOpen_spec h hs hpid) fun _ _ hs' => hdone (fun _ _ => id) hs'
  | close fd => exact sysClose_spec h hs hpid fd
  | dup oldfd =>
    exact wp_post (sysDup_spec h hs hpid _) fun _ _ hs' => hdone (fun _ _ => id) hs'
  | fork granted =>
    exact wp_post (sysFork_spec h hs hpid _) fun _ _ hs' => hdone (fun _ _ => id) hs'
  | exit => exact doExit_spec h hs hpid
  | chdir path => exact sysChdir_spec h hs hpid path
  | mkdir path =>
    refine wp_get (wp_post (wp_onFs (h.sysMkdir hs.fs hcwd)) ?_)
    rintro _ _ ⟨fs, hfs, rfl⟩
    exact hdone (fun _ _ => id) (hs.setFs hfs).done
  | mknod pathname beyond major minor =>
    refine wp_get (wp_post (wp_onFs (h.sysMknod hs.fs hcwd)) ?_)
    rintro _ _ ⟨fs, hfs, rfl⟩
    exact hdone (fun _ _ => id) (hs.setFs hfs).done
  | link old new =>
    refine wp_get (wp_post (wp_onFs (h.sysLink hs.fs hcwd)) ?_)
    rintro _ _ ⟨fs, hfs, rfl⟩
    exact hdone (fun _ _ => id) (hs.setFs hfs).done
  | unlink path =>
    refine wp_get (wp_post (wp_onFs (h.sysUnlink hs.fs hcwd)) ?_)
    rintro r _ ⟨fs, ⟨hr, hfs⟩ | ⟨hr, dp, hfs⟩, rfl⟩
    · exact ⟨D, (hs.setFs hfs).done, iff_of_true rfl hr⟩
    · rw [← Multiset.add_cons] at hfs
      refine ⟨_, ⟨hs.setFs hfs, Multiset.le_cons_self _ _⟩, ?_⟩
      exact iff_of_false (Multiset.lt_cons_self _ _).ne' (not_not.mpr hr)
  | write fd buf count other =>
    exact wp_post (sysWrite_spec h hs _ _ _ _) fun _ _ hs' => hdone (fun _ _ => id) hs'

/-- The file system before the first path is looked up. -/
def initFs (disk : ℕ → Bio.Data) : Fs.St :=
  { sb := Fs.readsb (disk 1), disk := disk, inode := fun _ => default }

/-- The first process starts with the reference of `namei("/")`. -/
theorem boot_spec {disk : ℕ → Bio.Data} (hinit : I 0 ∅ (initFs disk))
    {s₀ : St} (hboot : boot disk = .ok s₀) : Sound I 0 ∅ s₀ := by
  have hnamei : wp (Fs.namei none [Fs.slash]) _ E (initFs disk) :=
    h.namei hinit fun k hk => by cases hk
  unfold boot at hboot
  dsimp only at hboot
  split_ifs at hboot
  split at hboot
  · rename_i cwd fs hrun
    cases hboot
    have hfs := post_of_ok hnamei hrun
    refine ⟨?_, fun _ _ => rfl, fun f ht => by simp [default] at ht⟩
    have hrefs : ∀ t : Task, refs ⟨fs, fun _ => default, 1,
        fun pid => if pid = 0 then t else default⟩ = t.refs := by
      intro t
      simp [refs, File.refs, default]
    rw [hrefs, add_zero]
    cases cwd with
    | none => exact hfs
    | some k => exact hfs
  · cases hboot

end RiscvBm.SysFile

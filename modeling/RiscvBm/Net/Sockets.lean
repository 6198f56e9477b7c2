import Mathlib.Data.List.Nodup
import RiscvBm.Lib.Transition
import RiscvBm.Param

/-!
# The list of sockets (`kernel/sysnet.c`, `kernel/file.c`)

`sockalloc` takes an entry of the file table and an object for the socket. Its exits on errors
share one label, which frees the object and closes the entry. When a socket with the same
addresses is listed, the entry is of type `FD_SOCK` already, so that `fileclose` frees the
object again; all other exits are clean (`sockets_iff_new`).
-/

namespace RiscvBm.Sockets

open Transition Function

/-! ## §1  Files and sockets -/

structure File where
  ref : ℕ
  type : FdType
  readable : Bool
  writable : Bool
  sock : ℕ

/-- `struct sock`, without the queue of what was received. -/
structure Sock where
  raddr : BitVec 32
  lport : BitVec 16
  rport : BitVec 16
deriving DecidableEq

/-- `sock` is what the objects contain and `live` those that are allocated; `twice` is set when
an object is freed that is not allocated. -/
structure St where
  file : Fin nfile → File
  sock : ℕ → Sock
  live : ℕ → Bool
  sockets : List ℕ
  twice : Bool

def kfree (s : St) (a : ℕ) : St :=
  if s.live a then { s with live := update s.live a false } else { s with twice := true }

/-- `sockclose`, without the buffers that it frees. -/
def sockclose (s : St) (si : ℕ) : St := kfree { s with sockets := s.sockets.erase si } si

/-- What the last `fileclose` does to inodes and pipes is left out. -/
def fileclose (s : St) (f : Fin nfile) : Option St :=
  let ff := s.file f
  if ff.ref < 1 then none
  else if 0 < ff.ref - 1 then some { s with file := update s.file f { ff with ref := ff.ref - 1 } }
  else
    let s := { s with file := update s.file f { ff with ref := 0, type := .none } }
    some (if ff.type = .sock then sockclose s ff.sock else s)

/-- The entry that `filealloc` returns. -/
def freeFile (s : St) : Option (Fin nfile) :=
  (List.finRange nfile).find? fun f => (s.file f).ref = 0

/-- The entry and the object after the initialization. -/
def initSock (s : St) (f : Fin nfile) (si : ℕ) (t : Sock) : St := { s with
  live := update s.live si true
  sock := update s.sock si t
  file := update s.file f ⟨1, .sock, true, true, si⟩ }

/-- `sockalloc`, where `mem` is what `kmalloc` returns. -/
def sockalloc (s : St) (mem : Option ℕ) (t : Sock) : Option (Option (Fin nfile) × St) :=
  match freeFile s with
  | none => some (none, s)
  | some f =>
    match mem with
    | none =>
      (fileclose { s with file := update s.file f { s.file f with ref := 1 } } f).map (none, ·)
    | some si =>
      let s := initSock s f si t
      if s.sockets.any fun pos => s.sock pos = t then
        (fileclose (kfree s si) f).map (none, ·)
      else some (some f, { s with sockets := si :: s.sockets })

inductive Act where
  | connect (mem : Option ℕ) (t : Sock) (fd : Bool)
  | dup (f : Fin nfile)
  | close (f : Fin nfile)

/-- `__sys_connect`; `fd` says whether `fdalloc` succeeds. -/
def connect (s : St) (mem : Option ℕ) (t : Sock) (fd : Bool) : Option St :=
  (sockalloc s mem t).bind fun x => match x with
    | (none, s) => some s
    | (some f, s) => if fd then some s else fileclose s f

/-- `kmalloc` returns no object that is allocated. -/
def Fresh (s : St) (mem : Option ℕ) : Prop := ∀ si ∈ mem, s.live si = false

instance (s : St) (mem : Option ℕ) : Decidable (Fresh s mem) :=
  inferInstanceAs (Decidable (∀ si ∈ mem, s.live si = false))

def step (s : St) : Act → Option St
  | .connect mem t fd => if Fresh s mem then connect s mem t fd else none
  | .dup f =>
    if (s.file f).ref < 1 then none
    else some { s with file := update s.file f { s.file f with ref := (s.file f).ref + 1 } }
  | .close f => fileclose s f

/-! ## §2  The expectation -/

/-- The socket that the entry owns. -/
def own (ff : File) : Option ℕ := if ff.type = .sock then some ff.sock else none

/-- `sockalloc` returns 0 and has added one socket, or -1 and has left everything as it was. -/
def Clean (s : St) (mem : Option ℕ) (t : Sock) : Prop :=
  ∃ r s', sockalloc s mem t = some (r, s') ∧ s'.twice = s.twice ∧
    (r = none → s'.sockets = s.sockets ∧ s'.file = s.file ∧ s'.live = s.live) ∧
    ∀ f, r = some f → ∃ si, s'.sockets = si :: s.sockets ∧ s'.sock si = t ∧
      (∀ pos ∈ s.sockets, s.sock pos ≠ t) ∧ (s'.file f).ref = 1 ∧
      ∀ g, si ∈ own (s'.file g) ↔ g = f

/-- No two listed sockets have the same addresses, and none was freed twice. -/
def Ok (s : St) : Prop :=
  (s.sockets.map s.sock).Nodup ∧ s.twice = false

/-- There is no entry, or no object, or no socket with the addresses. -/
def New (s : St) (mem : Option ℕ) (t : Sock) : Prop :=
  freeFile s = none ∨ mem = none ∨ ∀ pos ∈ s.sockets, s.sock pos ≠ t

def NewAct (s : St) : Act → Prop
  | .connect mem t _ => New s mem t
  | _ => True

/-- Entries that are free have no type, and every socket that an entry owns is listed and is its
own. -/
structure Inv (s : St) : Prop where
  ok : Ok s
  blank : ∀ f, (s.file f).ref = 0 → (s.file f).type = .none
  live : ∀ si ∈ s.sockets, s.live si = true
  listed : ∀ f, ∀ si ∈ own (s.file f), si ∈ s.sockets
  unique : ∀ f g, ∀ si ∈ own (s.file f), si ∈ own (s.file g) → f = g

variable {s s' : St} {f : Fin nfile} {si : ℕ} {mem : Option ℕ} {t : Sock}

theorem Inv.notMem (h : Inv s) (hsi : s.live si = false) : si ∉ s.sockets := by
  intro hmem
  rw [h.live si hmem] at hsi
  cases hsi

/-! ## §3  The calls keep the invariant -/

/-- An entry is set, and the list with it. -/
theorem Inv.set (h : Inv s) {ff : File} (hfile : s'.file = update s.file f ff) (hok : Ok s')
    (hblank : ff.ref = 0 → ff.type = .none) (hlive : ∀ si ∈ s'.sockets, s'.live si = true)
    (hothers : ∀ g ≠ f, ∀ si ∈ own (s.file g), si ∈ s'.sockets)
    (hself : ∀ si ∈ own ff, si ∈ s'.sockets ∧ ∀ g ≠ f, si ∉ own (s.file g)) : Inv s' := by
  have hf : s'.file f = ff := by rw [hfile, update_self]
  have hg : ∀ g ≠ f, s'.file g = s.file g := fun g hg => by rw [hfile, update_of_ne hg]
  refine ⟨hok, fun g => ?_, hlive, fun g si => ?_, fun g g' si => ?_⟩
  · by_cases hgf : g = f
    · rw [hgf, hf]
      exact hblank
    · rw [hg g hgf]
      exact h.blank g
  · by_cases hgf : g = f
    · rw [hgf, hf]
      exact fun hsi => (hself si hsi).1
    · rw [hg g hgf]
      exact hothers g hgf si
  · by_cases hgf : g = f <;> by_cases hgf' : g' = f
    · exact fun _ _ => hgf.trans hgf'.symm
    · rw [hgf, hf, hg g' hgf']
      exact fun hsi hsi' => absurd hsi' ((hself si hsi).2 g' hgf')
    · rw [hgf', hf, hg g hgf]
      exact fun hsi hsi' => absurd hsi ((hself si hsi').2 g hgf)
    · rw [hg g hgf, hg g' hgf']
      exact h.unique g g' si

/-- Only the count of an entry in use changes. -/
theorem Inv.setRef (h : Inv s) {n : ℕ} (hn : n ≠ 0) :
    Inv { s with file := update s.file f { s.file f with ref := n } } :=
  h.set rfl h.ok (fun hzero => absurd hzero hn) h.live (fun g _ => h.listed g) fun si hsi =>
    ⟨h.listed f si hsi, fun g hg hsi' => hg (h.unique g f si hsi' hsi)⟩

theorem Inv.fileclose (h : Inv s) (hrun : fileclose s f = some s') : Inv s' := by
  unfold Sockets.fileclose at hrun
  dsimp only at hrun
  have hnone : own { s.file f with ref := 0, type := .none } = none := rfl
  split_ifs at hrun with href hmore hsock
  · cases hrun
    exact h.setRef (Nat.ne_of_gt hmore)
  · cases hrun
    have hown : (s.file f).sock ∈ own (s.file f) := if_pos hsock
    generalize (s.file f).sock = si at *
    have hmem : ∀ x, x ∈ s.sockets.erase si ↔ x ≠ si ∧ x ∈ s.sockets :=
      fun x => h.ok.1.of_map.mem_erase_iff
    rw [sockclose, kfree, if_pos (h.live si (h.listed f si hown))]
    refine h.set rfl ⟨(List.erase_sublist.map _).nodup h.ok.1, h.ok.2⟩ (fun _ => rfl) ?_ ?_ ?_
    · intro x hx
      obtain ⟨hne, hx⟩ := (hmem x).mp hx
      exact (update_of_ne hne ..).trans (h.live x hx)
    · intro g hg x hx
      refine (hmem x).mpr ⟨?_, h.listed g x hx⟩
      rintro rfl
      exact hg (h.unique g f x hx hown)
    · rintro x ⟨⟩
  · cases hrun
    refine h.set rfl h.ok (fun _ => rfl) h.live (fun g _ => h.listed g) ?_
    rintro x ⟨⟩

theorem Inv.add (h : Inv s) (hsi : s.live si = false)
    (hnew : ∀ pos ∈ s.sockets, (s.sock pos) ≠ t) :
    Inv { initSock s f si t with sockets := si :: s.sockets } := by
  have hne : ∀ x ∈ s.sockets, x ≠ si := fun x hx heq => h.notMem hsi (heq ▸ hx)
  have hmap : s.sockets.map (update s.sock si t) = s.sockets.map s.sock :=
    List.map_congr_left fun x hx => update_of_ne (hne x hx) ..
  refine h.set rfl ⟨?_, h.ok.2⟩ (by rintro ⟨⟩) ?_ ?_ ?_
  · show (List.map (update s.sock si t) (si :: s.sockets)).Nodup
    rw [List.map_cons, hmap, update_self, List.nodup_cons]
    refine ⟨?_, h.ok.1⟩
    rw [List.mem_map]
    rintro ⟨pos, hpos, heq⟩
    exact hnew pos hpos heq
  · intro x hx
    rcases List.mem_cons.mp hx with rfl | hx
    · exact update_self ..
    · exact (update_of_ne (hne x hx) ..).trans (h.live x hx)
  · exact fun g _ x hx => List.mem_cons_of_mem _ (h.listed g x hx)
  · rintro x ⟨⟩
    exact ⟨List.mem_cons_self, fun g _ hx => h.notMem hsi (h.listed g si hx)⟩

/-! ## §4  The exits of `sockalloc` -/

/-- What `sockalloc` does: nothing, or it frees the object twice, or it adds the socket. -/
theorem Inv.sockalloc (h : Inv s) (hmem : Fresh s mem) :
    (New s mem t ∧ sockalloc s mem t = some (none, s)) ∨
    (¬ New s mem t ∧ ∃ s', sockalloc s mem t = some (none, s') ∧ s'.twice = true) ∨
    ∃ f si, New s mem t ∧ s.live si = false ∧ (∀ pos ∈ s.sockets, s.sock pos ≠ t) ∧
      sockalloc s mem t = some (some f, { initSock s f si t with sockets := si :: s.sockets }) := by
  unfold Sockets.sockalloc New
  cases hf : freeFile s with
  | none => exact Or.inl ⟨Or.inl rfl, rfl⟩
  | some f =>
    have hfound := List.find?_some hf
    have href : (s.file f).ref = 0 := of_decide_eq_true hfound
    have htype := h.blank f href
    cases mem with
    | none =>
      refine Or.inl ⟨Or.inr (Or.inl rfl), ?_⟩
      have hff : ({ s.file f with ref := 0, type := .none } : File) = s.file f := by
        rw [← href, ← htype]
      simp [Sockets.fileclose, htype, hff]
    | some si =>
      have hsi := hmem si rfl
      have hany : ((initSock s f si t).sockets.any fun pos =>
        (initSock s f si t).sock pos = t) = true ↔
          ∃ pos ∈ s.sockets, s.sock pos = t := by
        rw [List.any_eq_true]
        refine exists_congr fun pos => and_congr_right fun hpos => ?_
        show decide (update s.sock si t pos = t) = true ↔ _
        have hne : pos ≠ si := fun heq => h.notMem hsi (heq ▸ hpos)
        rw [update_of_ne hne, decide_eq_true_iff]
      dsimp only
      by_cases hdup : ∃ pos ∈ s.sockets, s.sock pos = t
      · right
        left
        rw [if_pos (hany.mpr hdup)]
        refine ⟨by simpa using hdup, ?_⟩
        -- the entry is of type `FD_SOCK`, and its object is free already
        simp [Sockets.fileclose, sockclose, kfree, initSock]
      · have hnew : ∀ pos ∈ s.sockets, s.sock pos ≠ t := fun pos hpos heq => hdup ⟨pos, hpos, heq⟩
        refine Or.inr (Or.inr ⟨f, si, Or.inr (Or.inr hnew), hsi, hnew, ?_⟩)
        rw [if_neg (hany.not.mpr hdup)]
        rfl

theorem Inv.clean_iff (h : Inv s) (hmem : Fresh s mem) : Clean s mem t ↔ New s mem t := by
  rcases h.sockalloc (t := t) hmem with ⟨hnew, hrun⟩ | ⟨hold, s', hrun, htwice⟩ |
    ⟨f, si, hnew, hsi, hother, hrun⟩
  · refine iff_of_true ⟨none, s, hrun, rfl, fun _ => ⟨rfl, rfl, rfl⟩, ?_⟩ hnew
    rintro f ⟨⟩
  · refine iff_of_false ?_ hold
    rintro ⟨r, s'', hrun', hsame, -⟩
    rw [hrun] at hrun'
    cases hrun'
    rw [htwice, h.ok.2] at hsame
    cases hsame
  · refine iff_of_true ⟨some f, _, hrun, rfl, (fun hnone => by cases hnone), ?_⟩ hnew
    rintro _ ⟨⟩
    have hself : update s.file f ⟨1, .sock, true, true, si⟩ f = _ := update_self ..
    refine ⟨si, rfl, update_self .., hother, congrArg File.ref hself, fun g => ?_⟩
    show si ∈ own (update s.file f ⟨1, .sock, true, true, si⟩ g) ↔ _
    by_cases hg : g = f
    · rw [hg, hself]
      exact ⟨fun _ => rfl, fun _ => rfl⟩
    · rw [update_of_ne hg]
      exact ⟨fun hx => absurd (h.listed g si hx) (h.notMem hsi), fun heq => absurd heq hg⟩

/-! ## §5  Runs -/

theorem inv_step (s : St) (a : Act) (s' : St) (h : Inv s) (hnew : NewAct s a)
    (hstep : step s a = some s') : Inv s' := by
  cases a with
  | connect mem t fd =>
    rw [step] at hstep
    split_ifs at hstep with hmem
    rw [connect] at hstep
    rcases h.sockalloc (t := t) hmem with ⟨-, hrun⟩ | ⟨hold, -⟩ | ⟨f, si, -, hsi, hother, hrun⟩
    · rw [hrun] at hstep
      cases hstep
      exact h
    · exact absurd hnew hold
    · rw [hrun] at hstep
      have hadd : Inv { initSock s f si t with sockets := si :: s.sockets } := h.add hsi hother
      cases fd with
      | true =>
        cases hstep
        exact hadd
      | false => exact hadd.fileclose hstep
  | dup f =>
    rw [step] at hstep
    split_ifs at hstep
    cases hstep
    exact h.setRef (Nat.succ_ne_zero _)
  | close f => exact h.fileclose hstep

theorem twice_of_not_new (s : St) (a : Act) (s' : St) (h : Inv s) (hold : ¬ NewAct s a)
    (hstep : step s a = some s') : ¬ Ok s' := by
  cases a with
  | connect mem t fd =>
    rw [step] at hstep
    split_ifs at hstep with hmem
    rw [connect] at hstep
    rcases h.sockalloc (t := t) hmem with ⟨hnew, -⟩ | ⟨-, s₁, hrun, htwice⟩ | ⟨f, si, hnew, -⟩
    · exact absurd hnew hold
    · rw [hrun] at hstep
      cases hstep
      rintro ⟨-, honce⟩
      rw [htwice] at honce
      cases honce
    · exact absurd hnew hold
  | dup f => exact absurd trivial hold
  | close f => exact absurd trivial hold

/-- **A connection is refused cleanly unless its addresses are in use**: then the object is
freed twice. So no socket is freed twice, and all have different addresses, in just those runs
in which no `connect` gets an entry and an object for the addresses of a listed socket. -/
theorem sockets_iff_new (s : St) (h : Inv s) (as : List Act) :
    (∀ mem t, Fresh s mem → (Clean s mem t ↔ New s mem t)) ∧
      (Along step Ok s as ↔ Steps step NewAct s as) :=
  ⟨fun _ _ hmem => h.clean_iff hmem,
    along_iff_steps (fun _ hs => hs.ok) inv_step twice_of_not_new h⟩

/-- No file is open. -/
def empty : St :=
  ⟨fun _ => ⟨0, .none, false, false, 0⟩, fun _ => ⟨0, 0, 0⟩, fun _ => false, [], false⟩

/-- One connection, made and closed. -/
theorem sockets_iff_new_closed : Along step Ok empty
    [.connect (some 8) ⟨1, 2, 3⟩ true, .close ⟨0, by decide⟩] := by
  have hinv : Inv empty := by
    refine ⟨⟨List.nodup_nil, rfl⟩, fun _ _ => rfl, fun _ hx => absurd hx List.not_mem_nil, ?_, ?_⟩
    · rintro f si ⟨⟩
    · rintro f g si ⟨⟩
  refine (sockets_iff_new empty hinv _).2.mpr fun s' _ => ⟨?_, fun _ _ => ⟨trivial, trivial⟩⟩
  exact Or.inr (Or.inr fun _ hx => absurd hx List.not_mem_nil)

/-- The same connection twice: the second object is freed twice. -/
theorem not_ok_connected : ¬ Along step Ok empty
    [.connect (some 8) ⟨1, 2, 3⟩ true, .connect (some 9) ⟨1, 2, 3⟩ true] := by
  intro h
  have hrun : (runFrom step empty [.connect (some 8) ⟨1, 2, 3⟩ true,
      .connect (some 9) ⟨1, 2, 3⟩ true]).map St.twice = some true := by decide
  obtain ⟨s', hrun, htwice⟩ := Option.map_eq_some_iff.mp hrun
  rw [(h.last hrun).2] at htwice
  cases htwice

end RiscvBm.Sockets

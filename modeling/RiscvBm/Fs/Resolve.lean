import RiscvBm.Fs.Core
import RiscvBm.Fs.DirMap

/-!
# Path names

What `namei` and `nameiparent` return, in terms of the inodes `D` that a state shows: the path
is split at the slashes, empty pieces are dropped and the others are cut to `DIRSIZ` bytes
(`components`), and each one is looked up in the directory reached so far (`resolve`).

The functions of the lower half return in states in which no directory has holes, every entry
names an inode in use, and `itable` has two free entries (`Walkable`); then nothing on the disk
is changed, and exactly one reference is added to the inode that is returned.
-/

namespace RiscvBm.Fs

open Bio (bsize Data)
open Bytes Slots Wp Function Finset

/-! ## §1  Resolution -/

/-- The inode with the name in the directory `i`. -/
def child (D : ℕ → Ino) (i : ℕ) (name : List UInt8) : Option ℕ :=
  if (D i).type = tDir then toMap (D i).ents (canon name) else none

/-- The inode that the names lead to from `i`. -/
def resolve (D : ℕ → Ino) : ℕ → List (List UInt8) → Option ℕ
  | i, [] => some i
  | i, name :: rest => (child D i name).bind fun j => resolve D j rest

/-- The directory of the last name, and that name. -/
def resolveParent (D : ℕ → Ino) (i : ℕ) (names : List (List UInt8)) : Option (ℕ × List UInt8) :=
  names.getLast?.bind fun last => (resolve D i names.dropLast).bind fun j =>
    if (D j).type = tDir then some (j, last) else none

/-- What the loop of `namex` computes. -/
def walk (D : ℕ → Ino) (parent : Bool) : ℕ → List (List UInt8) → Option (ℕ × List UInt8)
  | i, [] => if parent then none else some (i, [])
  | i, name :: rest =>
    if (D i).type ≠ tDir then none
    else if parent ∧ rest = [] then some (i, name)
    else (toMap (D i).ents (canon name)).bind fun j => walk D parent j rest

variable {sb : Superblock} {n : ℕ} {ρ ρ' : Ptr → ℕ} {T : Multiset Ref} {L : Finset Ptr} {s s' : St}
  {D : ℕ → Ino} {k dp : Ptr} {i j : ℕ} {name : List UInt8}

theorem walk_false (D : ℕ → Ino) (i : ℕ) (names : List (List UInt8)) :
    (walk D false i names).map Prod.fst = resolve D i names := by
  induction names generalizing i with
  | nil => rfl
  | cons name rest ih =>
    unfold walk resolve child
    by_cases hdir : (D i).type = tDir
    · rw [if_neg (not_not.mpr hdir), if_neg fun hc => Bool.false_ne_true hc.1, if_pos hdir]
      cases toMap (D i).ents (canon name) with
      | none => rfl
      | some j => exact ih j
    · rw [if_pos hdir, if_neg hdir]
      rfl

theorem walk_true (D : ℕ → Ino) (i : ℕ) (names : List (List UInt8)) :
    walk D true i names = resolveParent D i names := by
  induction names generalizing i with
  | nil => rfl
  | cons name rest ih =>
    unfold walk
    cases rest with
    | nil =>
      by_cases hdir : (D i).type = tDir
      · rw [if_neg (not_not.mpr hdir), if_pos ⟨rfl, rfl⟩]
        simp [resolveParent, resolve, hdir]
      · rw [if_pos hdir]
        simp [resolveParent, resolve, hdir]
    | cons name' rest =>
      have hlast : (name :: name' :: rest).getLast? = (name' :: rest).getLast? :=
        List.getLast?_cons_cons ..
      unfold resolveParent
      rw [hlast, List.dropLast_cons_cons, resolve, child]
      by_cases hdir : (D i).type = tDir
      · rw [if_neg (not_not.mpr hdir), if_neg fun hc => List.cons_ne_nil _ _ hc.2, if_pos hdir]
        cases toMap (D i).ents (canon name) with
        | none => cases (name' :: rest).getLast? <;> rfl
        | some j => exact ih j
      · rw [if_pos hdir, if_neg hdir]
        cases (name' :: rest).getLast? <;> rfl

/-! ## §2  Looking up a name -/

/-- No directory on the disk has holes. -/
def Solid (sb : Superblock) (n : ℕ) (disk : ℕ → Data) : Prop :=
  ∀ i < n, (dinode sb disk i).type = tDir →
    (dinode sb disk i).Filled disk (dinode sb disk i).size.toNat

theorem Behind.filled {disk : ℕ → Data} {d₀ d : Dinode} {m : ℕ} (h : Behind disk d₀ d)
    (ht : d.type ≠ 0) (hfilled : d₀.Filled disk m) : d.Filled disk m := by
  intro bn hbn hlt
  have hne := hfilled bn hbn hlt
  exact ne_of_eq_of_ne (h.slot ht hne) hne

/-- What `dirlookup` returns when it does not panic: the entry of the name, with a reference. -/
def Stepped (sb : Superblock) (n : ℕ) (ρ : Ptr → ℕ) (T : Multiset Ref) (L : Finset Ptr)
    (D : ℕ → Ino) (s' : St) (goal : Option ℕ) : Option (Ptr × ℕ) → Prop
  | none => goal = none ∧ Core sb n ρ T L s' D
  | some (k, _) => ∃ j, goal = some j ∧ (HasRef T k → ρ k = j) ∧
      Core sb n (update ρ k j) ((k, false) ::ₘ T) L s' D

theorem Core.dirlookup (hr : Room sb n) (h : Core sb n ρ T L s D) (hk : dp ∈ L)
    (hdir : (D (ρ dp)).type = tDir) (hbound : ∀ e ∈ (D (ρ dp)).ents, e.1 < n)
    (hsolid : Solid sb n s.disk) (htable : ∃ k, ¬ HasRef T k) (name : List UInt8) :
    wp (Fs.dirlookup dp name) (fun r s' =>
      Stepped sb n ρ T L D s' (toMap (D (ρ dp)).ents (canon name)) r ∧ s'.disk = s.disk)
      noError s := by
  obtain ⟨v, hc, hD, hactive, hino⟩ := h.locked hk
  have hi := hc.inum_lt hactive
  have hdir' : (v (ρ dp)).type = tDir := (congrArg Ino.type hino).trans hdir
  have hat : DirAt sb n dp (ρ dp) (D (ρ dp)).ents s v :=
    ⟨hc.toHeld, hactive, hdir', hc.shape _ hi hdir', congrArg Ino.ents hino⟩
  have hbehind := hc.disk (ρ dp) hi (by simp)
  have hfilled : (v (ρ dp)).Filled s.disk (v (ρ dp)).size.toNat := by
    rw [← hbehind.size]
    exact hbehind.filled (hc.type_ne hactive) (hsolid _ hi (hbehind.type.trans hdir'))
  have hN := blocksFor_le_maxfile hat.shape.le
  have hlack : lack (blocksFor (v (ρ dp)).size.toNat) s.disk (v (ρ dp)) = 0 :=
    lack_eq_zero fun bn hbn => hfilled bn (lt_of_lt_of_le hbn hN) (lt_blocksFor.mp hbn)
  have hlook := hat.dirlookup hr hN (hat.size_eq ▸ le_blocksFor _) name
  have htotal := wp_error hlook fun e he => by
    rcases he with hshort | ⟨-, hfull⟩
    · exact not_short (hlack ▸ Nat.zero_le _) hshort
    · obtain ⟨k, hk⟩ := htable
      exact hfull k (h.ref_eq_zero hk)
  refine wp_post htotal ?_
  rintro r s' ⟨s₁, v₁, hread, hfound⟩
  obtain rfl := hread.still hfilled
  rcases r with _ | ⟨k, off⟩
  · obtain ⟨rfl, hno⟩ := hfound
    exact ⟨⟨toMap_eq_none.mpr hno, h⟩, rfl⟩
  · obtain ⟨m, e, ip, rfl, hget, hfirst, hgot, rfl⟩ := hfound
    refine ⟨⟨e.1, ?_, h.got (hbound e (List.mem_of_getElem? hget)) hgot⟩, rfl⟩
    rw [toMap, hfirst, Option.map_some]

/-! ## §3  The loop -/

/-- The inode is in use, and a reference to it may be dropped without freeing it. -/
structure Live (n : ℕ) (ρ : Ptr → ℕ) (T : Multiset Ref) (D : ℕ → Ino) (i : ℕ) : Prop where
  lt : i < n
  used : (D i).type ≠ 0
  kept : (D i).nlink ≠ 0 ∨ ∃ k, HasRef T k ∧ ρ k = i

/-- Paths can be followed: directories have no holes and their entries name inodes in use, and
`itable` has two entries for the directory and the inode found in it. -/
structure Walkable (sb : Superblock) (n : ℕ) (T : Multiset Ref) (s : St) (D : ℕ → Ino) :
    Prop where
  core : Core sb n (inums s) T ∅ s D
  solid : Solid sb n s.disk
  root : Live n (inums s) T D rootino
  entry : ∀ i, (D i).type = tDir → ∀ e ∈ (D i).ents, e.1 ≠ 0 → Live n (inums s) T D e.1
  held : ∀ k, HasRef T k → (D (inums s k)).type ≠ 0
  table : ∃ k l, k ≠ l ∧ ¬ HasRef T k ∧ ¬ HasRef T l

/-- The inode `goal` is returned with one new reference, or there is none. -/
def NewRef (sb : Superblock) (n : ℕ) (T : Multiset Ref) (s : St) (D : ℕ → Ino) (s' : St)
    (goal : Option (ℕ × List UInt8)) (r : Option (Ptr × List UInt8)) : Prop :=
  s'.disk = s.disk ∧ ∃ ρ', match goal with
    | none => r = none ∧ Core sb n ρ' T ∅ s' D
    | some (i, name) => ∃ k, r = some (k, name) ∧ ρ' k = i ∧ Core sb n ρ' ((k, false) ::ₘ T) ∅ s' D

/-- A state of the loop: `ip` is for the inode `i`, with the one reference that `namex` has. -/
structure At (sb : Superblock) (n : ℕ) (T : Multiset Ref) (s : St) (D : ℕ → Ino) (ip : Ptr) (i : ℕ)
    (ρ : Ptr → ℕ) (s' : St) : Prop where
  core : Core sb n ρ ((ip, false) ::ₘ T) ∅ s' D
  inum : ρ ip = i
  live : Live n (inums s) T D i
  disk : s'.disk = s.disk
  agree : ∀ k, HasRef T k → ρ k = inums s k

section Loop

variable {ip : Ptr}

/-- The reference to `ip` may be dropped. -/
theorem At.kept (h : At sb n T s D ip i ρ s') : (D (ρ ip)).nlink ≠ 0 ∨ HasRef T ip := by
  rcases h.live.kept with hlinked | ⟨k, hk, hki⟩
  · exact Or.inl (h.inum.symm ▸ hlinked)
  · have heq : ρ k = ρ ip := by rw [h.agree k hk, hki, h.inum]
    have hkip := h.core.inj hk.cons ⟨false, Multiset.mem_cons_self _ _⟩ heq
    exact Or.inr (hkip ▸ hk)

theorem used_of_toMap {es : List (ℕ × List UInt8)} (h : toMap es name = some j) :
    ∃ e ∈ es, e.1 ≠ 0 ∧ e.1 = j := by
  obtain ⟨e, hlook, rfl⟩ := Option.map_eq_some_iff.mp h
  obtain ⟨hmem, hused, -⟩ := used_of_lookup hlook
  exact ⟨e, hmem, isUsed_iff.mp hused, rfl⟩

theorem At.unlockput (hr : Room sb n) (h : At sb n T s D ip i ρ s') {t : St}
    (ht : Core sb n ρ ((ip, false) ::ₘ T) {ip} t D) (hdisk : t.disk = s.disk) :
    wp (do iunlockput ip; return none)
      (fun r s'' => NewRef sb n T s D s'' none r) noError t := by
  refine wp_bind (ht.iunlockput hr (mem_singleton_self ip) h.kept) ?_
  rintro _ s₁ ⟨h₁, hdisk₁⟩
  rw [erase_singleton] at h₁
  exact wp_pure ⟨hdisk₁.trans hdisk, ρ, rfl, h₁⟩

/-- One round: the next inode is found, and then the reference to the directory is dropped. -/
theorem At.lookup (hr : Room sb n) (hw : Walkable sb n T s D) (h : At sb n T s D ip i ρ s') {t : St}
    (ht : Core sb n ρ ((ip, false) ::ₘ T) {ip} t D) (hdisk : t.disk = s.disk)
    (hdir : (D i).type = tDir) (name : List UInt8) :
    wp (Fs.dirlookup ip name) (fun r s₁ => match r with
      | none => toMap (D i).ents (canon name) = none ∧
          Core sb n ρ ((ip, false) ::ₘ T) {ip} s₁ D ∧ s₁.disk = s.disk
      | some (k, _) => ∃ j, toMap (D i).ents (canon name) = some j ∧
          wp (Fs.iunlockput ip) (fun _ s₂ => ∃ ρ', At sb n T s D k j ρ' s₂) noError s₁)
      noError t := by
  obtain rfl := h.inum
  have hself := mem_singleton_self ip
  have hbound : ∀ e ∈ (D (ρ ip)).ents, e.1 < n := by
    intro e he
    by_cases hused : e.1 = 0
    · rw [hused]
      exact Nat.zero_lt_of_lt hw.root.lt
    · exact (hw.entry _ hdir e he hused).lt
  have htable : ∃ k, ¬ HasRef ((ip, false) ::ₘ T) k := by
    obtain ⟨k, l, hkl, hk, hl⟩ := hw.table
    by_cases hkip : k = ip
    · exact ⟨l, fun hx => hx.of_cons.elim (fun hlip => hkl (hkip.trans hlip.symm)) hl⟩
    · exact ⟨k, fun hx => hx.of_cons.elim hkip hk⟩
  refine wp_post (ht.dirlookup hr hself hdir hbound (hdisk ▸ hw.solid) htable name) ?_
  rintro (_ | ⟨k, off⟩) s₁ ⟨hstep, hdisk₁⟩
  · exact ⟨hstep.1, hstep.2, hdisk₁.trans hdisk⟩
  · obtain ⟨j, hgoal, hsame, hcore⟩ := hstep
    refine ⟨j, hgoal, ?_⟩
    rw [Multiset.cons_swap] at hcore
    -- the directory may be its own entry, and then the new reference keeps it
    have hkept : (D (update ρ k j ip)).nlink ≠ 0 ∨ HasRef ((k, false) ::ₘ T) ip := by
      by_cases hip : ip = k
      · exact Or.inr ⟨false, hip ▸ Multiset.mem_cons_self _ _⟩
      · rw [update_of_ne hip]
        exact h.kept.imp_right HasRef.cons
    refine wp_post (hcore.iunlockput hr hself hkept) ?_
    rintro _ s₂ ⟨h₂, hdisk₂⟩
    rw [erase_singleton] at h₂
    obtain ⟨e, hmem, hused, rfl⟩ := used_of_toMap hgoal
    refine ⟨update ρ k e.1, h₂, update_self .., hw.entry _ hdir e hmem hused,
      hdisk₂.trans (hdisk₁.trans hdisk), ?_⟩
    intro l hl
    by_cases hlk : l = k
    · subst hlk
      rw [update_self, ← hsame hl.cons, h.agree l hl]
    · rw [update_of_ne hlk, h.agree l hl]

theorem At.loop (hr : Room sb n) (hw : Walkable sb n T s D) {parent : Bool}
    {names : List (List UInt8)} (h : At sb n T s D ip i ρ s') :
    wp (namexLoop parent ip names)
      (fun r t => NewRef sb n T s D t (walk D parent i names) r) noError s' := by
  induction names generalizing ip i ρ s' with
  | nil =>
    cases parent with
    | true =>
      refine wp_bind (h.core.iput hr (Or.inl (notMem_empty ip)) h.kept) ?_
      rintro _ s₁ ⟨h₁, hdisk₁⟩
      exact wp_pure ⟨hdisk₁.trans h.disk, ρ, rfl, h₁⟩
    | false => exact wp_pure ⟨h.disk, ρ, ip, rfl, h.inum, h.core⟩
  | cons name rest ih =>
    have hself := mem_singleton_self ip
    have hlock := h.core.ilock hr ⟨false, Multiset.mem_cons_self _ _⟩
      (notMem_empty ip) (h.inum.symm ▸ h.live.used)
    refine wp_bind hlock ?_
    rintro _ s₁ ⟨h₁, hdisk₁⟩
    rw [insert_empty_eq] at h₁
    have hdisk := hdisk₁.trans h.disk
    have htype : (s₁.inode ip).type = (D i).type := by rw [h₁.type_eq hself, h.inum]
    apply wp_get
    rw [htype, walk]
    by_cases hdir : (D i).type = tDir
    · rw [if_neg (not_not.mpr hdir), if_neg (not_not.mpr hdir)]
      by_cases hlast : parent = true ∧ rest = []
      · -- `nameiparent` stops one level early
        rw [if_pos hlast, if_pos hlast]
        refine wp_bind (h₁.iunlock hself) ?_
        rintro _ s₂ ⟨h₂, hdisk₂⟩
        rw [erase_singleton] at h₂
        exact wp_pure ⟨hdisk₂.trans hdisk, ρ, ip, rfl, h.inum, h₂⟩
      · rw [if_neg hlast, if_neg hlast]
        refine wp_bind (h.lookup hr hw h₁ hdisk hdir name) ?_
        rintro (_ | ⟨k, off⟩) s₂ hfound
        · obtain ⟨hgoal, h₂, hdisk₂⟩ := hfound
          rw [hgoal]
          exact h.unlockput hr h₂ hdisk₂
        · obtain ⟨j, hgoal, hput⟩ := hfound
          rw [hgoal]
          refine wp_bind hput ?_
          rintro _ s₃ ⟨ρ', hat⟩
          exact ih hat
    · rw [if_pos hdir, if_pos hdir]
      exact h.unlockput hr h₁ hdisk

end Loop

/-! ## §4  Path names -/

/-- The inode where a path starts. -/
def startOf (s : St) (cwd : Ptr) (path : List UInt8) : ℕ :=
  if path.head? = some slash then rootino else (s.inode cwd).inum

theorem Walkable.start (hw : Walkable sb n T s D) {cwd : Ptr} {path : List UInt8}
    (hcwd : path.head? ≠ some slash → HasRef T cwd) :
    wp (startInode (some cwd) path)
      (fun ip s' => ∃ ρ', At sb n T s D ip (startOf s cwd path) ρ' s') noError s := by
  unfold startOf
  apply wp_ite
  · intro habs
    obtain ⟨k, -, -, hk, -⟩ := hw.table
    refine wp_post (hw.core.iget hw.root.lt ⟨k, hk⟩) ?_
    rintro ip s' ⟨⟨hsame, hcore⟩, hdisk⟩
    rw [if_pos habs]
    refine ⟨_, hcore, update_self .., hw.root, hdisk, ?_⟩
    intro l hl
    by_cases hlip : l = ip
    · subst hlip
      rw [update_self, hsame hl]
    · rw [update_of_ne hlip]
  · intro hrel
    have href := hcwd hrel
    refine wp_post (hw.core.idup href) ?_
    rintro _ s' ⟨rfl, hcore, hdisk⟩
    rw [if_neg hrel]
    refine ⟨_, hcore, rfl, ⟨hw.core.bound _ href, hw.held _ href, Or.inr ⟨_, href, rfl⟩⟩, hdisk, ?_⟩
    exact fun _ _ => rfl

theorem Walkable.namex (hr : Room sb n) (hw : Walkable sb n T s D) {cwd : Ptr} {path : List UInt8}
    (hcwd : path.head? ≠ some slash → HasRef T cwd) (parent : Bool) :
    wp (namex (some cwd) path parent) (fun r s' => NewRef sb n T s D s'
      (walk D parent (startOf s cwd path) (components path)) r) noError s := by
  refine wp_bind (hw.start hcwd) ?_
  rintro ip s' ⟨ρ', hat⟩
  rw [elems_eq_components le_rfl]
  exact hat.loop hr hw

/-- What a caller of `namei` sees: the entry returned is for the inode `goal` and has one more
reference, and no other entry, no lock and nothing on the disk has changed. -/
structure Returned (s : St) (goal : Option ℕ) (r : Option Ptr) (s' : St) : Prop where
  inum : r.map (fun k => (s'.inode k).inum) = goal
  refs : ∀ k, (s'.inode k).ref = (s.inode k).ref + if r = some k then 1 else 0
  locks : ∀ k, (s'.inode k).locked = (s.inode k).locked
  disk : s'.disk = s.disk

theorem NewRef.returned (hw : Walkable sb n T s D) {goal : Option (ℕ × List UInt8)}
    {r : Option (Ptr × List UInt8)} (h : NewRef sb n T s D s' goal r) :
    Returned s (goal.map Prod.fst) (r.map Prod.fst) s' ∧ r.map Prod.snd = goal.map Prod.snd := by
  have hlocks : ∀ {ρ' T'}, Core sb n ρ' T' ∅ s' D →
      ∀ k, (s'.inode k).locked = (s.inode k).locked := by
    intro ρ' T' hcore k
    rw [Bool.eq_iff_iff, hcore.counted.locked, hw.core.counted.locked]
  obtain ⟨hdisk, ρ', hmatch⟩ := h
  rcases goal with _ | ⟨i, name⟩
  · obtain ⟨rfl, hcore⟩ := hmatch
    refine ⟨⟨rfl, fun k => ?_, hlocks hcore, hdisk⟩, rfl⟩
    rw [hcore.counted.ref, hw.core.counted.ref]
    rfl
  · obtain ⟨ip, rfl, hinum, hcore⟩ := hmatch
    refine ⟨⟨?_, fun k => ?_, hlocks hcore, hdisk⟩, rfl⟩
    · exact congrArg some ((hcore.inum_eq ip).trans hinum)
    · rw [hcore.counted.ref, hw.core.counted.ref, Multiset.countP_cons]
      simp

/-- **Paths are resolved component by component.** With two free entries in `itable`, `namei`
returns the inode that the components of the path lead to from the root or from `cwd`, and
`nameiparent` the directory of the last one with its name; there is one new reference, to the
inode returned. -/
theorem paths_are_resolved (hr : Room sb n) (hw : Walkable sb n T s D) (cwd : Ptr)
    (path : List UInt8) (hcwd : path.head? ≠ some slash → HasRef T cwd) :
    (∃ r s', namei (some cwd) path s = .ok (r, s') ∧
      Returned s (resolve D (startOf s cwd path) (components path)) r s') ∧
    ∃ r s', nameiparent (some cwd) path s = .ok (r, s') ∧
      Returned s ((resolveParent D (startOf s cwd path) (components path)).map Prod.fst)
        (r.map Prod.fst) s' ∧
      r.map Prod.snd =
        (resolveParent D (startOf s cwd path) (components path)).map Prod.snd := by
  constructor
  · obtain ⟨r, s', hrun, hnew⟩ := exists_of_wp (hw.namex hr hcwd false)
    refine ⟨r.map Prod.fst, s', bind_run hrun, ?_⟩
    rw [← walk_false]
    exact (hnew.returned hw).1
  · obtain ⟨r, s', hrun, hnew⟩ := exists_of_wp (hw.namex hr hcwd true)
    refine ⟨r, s', hrun, ?_⟩
    rw [← walk_true]
    exact hnew.returned hw

/-- A root with the one entry `x`, for itself. -/
def homeRoot : Dinode := ⟨tDir, 0, 0, 1, 16, fun j => if j = 0 then 34 else 0⟩

def homeBlock : Data := fun p => (dirent [120] rootino).getD p.val 0

/-- It is open at entry 0. -/
def homeDir : St :=
  let s := oneInode homeRoot (2 ^ 35 - 1) homeBlock
  setInode s entry0 { s.inode entry0 with locked := false }

theorem hasRef_homeDir : HasRef {(entry0, false)} k ↔ k = entry0 := by
  constructor
  · rintro ⟨b, hb⟩
    exact congrArg Prod.fst (Multiset.mem_singleton.mp hb)
  · rintro rfl
    exact ⟨false, Multiset.mem_singleton_self _⟩

def homeInodes : ℕ → Ino := shows 2 homeDir.disk (oneView homeRoot)

theorem homeInodes_root : homeInodes rootino = ⟨tDir, 1, [(rootino, [120])]⟩ := by
  have hents : homeRoot.ents homeDir.disk = [(rootino, [120])] := by decide +kernel
  rw [homeInodes, shows_eq (by decide) (by decide)]
  exact congrArg (Ino.mk tDir 1) hents

theorem oneView_type (hi : i ≠ rootino) : (oneView homeRoot i).type = 0 :=
  congrArg Dinode.type (if_neg hi)

theorem held_homeDir : Held smallSb 2 none homeDir (oneView homeRoot) := by
  have hpos : 0 < ((oneInode homeRoot (2 ^ 35 - 1) homeBlock).inode entry0).ref := Int.one_pos
  refine Held.setUse (held_oneInode (by decide) (by decide +kernel) fun sl hne => ?_) hpos
    fun hl => absurd hl Bool.false_ne_true
  cases sl with
  | addr j =>
    have hj : j = 0 := by
      by_contra hj
      exact hne (congrArg BitVec.toNat (if_neg hj))
    subst hj
    exact ⟨rfl, rfl, by decide +kernel⟩
  | entry j => exact absurd rfl hne

theorem walkable_homeDir : Walkable smallSb 2 {(entry0, false)} homeDir homeInodes := by
  have hlive : Live 2 (inums homeDir) {(entry0, false)} homeInodes rootino := by
    refine ⟨by decide, ?_, Or.inl ?_⟩ <;> rw [homeInodes_root] <;> decide
  have hcounted : Counted {(entry0, false)} ∅ homeDir :=
    ⟨by decide +kernel, held_homeDir.uniq, by decide +kernel⟩
  refine ⟨⟨hcounted, rfl, ?_, _, ⟨held_homeDir, ?_⟩, rfl⟩, ?_, hlive, ?_, ?_, ?_⟩
  · intro k hk
    rw [hasRef_homeDir.mp hk]
    exact Nat.one_lt_two
  · intro i _ _
    unfold oneView
    split_ifs <;> exact ⟨rfl, by decide⟩
  · intro i hi hdir bn _ hlt
    have hdin : dinode smallSb homeDir.disk i = oneView homeRoot i := dinode_oneInode i hi
    rw [hdin] at hdir hlt ⊢
    obtain rfl : i = rootino := by
      by_contra hne
      exact absurd ((oneView_type hne).symm.trans hdir) (by decide)
    have hbn : bn = 0 := Nat.lt_one_iff.mp (Nat.lt_of_mul_lt_mul_right (hlt.trans (by decide)))
    rw [hbn]
    decide
  · intro i hdir e he _
    obtain rfl : i = rootino := by
      by_contra hne
      rw [homeInodes, shows, if_neg fun hc => hc.2 (oneView_type hne)] at hdir
      cases hdir
    rw [homeInodes_root, List.mem_singleton] at he
    rw [he]
    exact hlive
  · intro k hk
    rw [hasRef_homeDir.mp hk]
    exact hlive.used
  · refine ⟨⟨1, by decide⟩, ⟨2, by decide⟩, by decide, ?_, ?_⟩ <;> rw [hasRef_homeDir] <;> decide

/-- `/x` is the root, and its parent is the root too. -/
theorem paths_are_resolved_homeDir :
    (∃ k s', namei (some entry0) [slash, 120] homeDir = .ok (some k, s') ∧
      (s'.inode k).inum = rootino ∧ (s'.inode k).ref = (homeDir.inode k).ref + 1) ∧
    ∃ k s', nameiparent (some entry0) [slash, 120] homeDir = .ok (some (k, [120]), s') ∧
      (s'.inode k).inum = rootino ∧ (s'.inode k).ref = (homeDir.inode k).ref + 1 := by
  obtain ⟨⟨r, s', hrun, hreturned⟩, r₁, s₁, hrun₁, hreturned₁, hname⟩ := paths_are_resolved
    room_smallSb walkable_homeDir entry0 [slash, 120] fun hrel => absurd rfl hrel
  have hfound : resolve homeInodes rootino [[120]] = some rootino := by
    rw [resolve, child, homeInodes_root]
    rfl
  have hparent : resolveParent homeInodes rootino [[120]] = some (rootino, [120]) := by
    show (if (homeInodes rootino).type = tDir then some (rootino, [120]) else none) = _
    rw [homeInodes_root]
    rfl
  change Returned homeDir (resolve homeInodes rootino [[120]]) r s' at hreturned
  change Returned homeDir ((resolveParent homeInodes rootino [[120]]).map Prod.fst)
    (r₁.map Prod.fst) s₁ at hreturned₁
  change r₁.map Prod.snd = (resolveParent homeInodes rootino [[120]]).map Prod.snd at hname
  rw [hfound] at hreturned
  rw [hparent] at hreturned₁ hname
  constructor
  · obtain ⟨k, rfl, hinum⟩ := Option.map_eq_some_iff.mp hreturned.inum
    refine ⟨k, s', hrun, hinum, ?_⟩
    rw [hreturned.refs, if_pos rfl]
  · obtain ⟨⟨k, name⟩, rfl, rfl⟩ := Option.map_eq_some_iff.mp hname
    refine ⟨k, s₁, hrun₁, Option.some.inj hreturned₁.inum, ?_⟩
    rw [hreturned₁.refs]
    exact congrArg _ (if_pos rfl)

/-- 50 other inodes are open. -/
def fullTable : St :=
  { emptyDir fourFree with inode := fun k => ⟨.fresh tFile, rootdev, k + 2, 1, false, false⟩ }

/-- With all of `itable` in use there is no entry for the root. -/
theorem namei_full_table :
    Counted (univ.val.map fun k => (k, false)) ∅ fullTable ∧
    namei (some entry0) [slash] fullTable = .error .iget := by
  refine ⟨⟨?_, ?_, ?_⟩, rfl⟩
  · intro k
    rw [Multiset.countP_map]
    have hone : univ.filter (fun l : Ptr => l = k) = {k} := filter_eq' _ k |>.trans
      (if_pos (mem_univ k))
    exact congrArg (fun t : Finset Ptr => (t.card : ℤ)) hone.symm
  · intro j k _ _ _ hinum
    exact Fin.ext (Nat.add_right_cancel hinum)
  · intro k
    exact ⟨fun h => absurd h Bool.false_ne_true, fun h => absurd h (notMem_empty k)⟩

end RiscvBm.Fs

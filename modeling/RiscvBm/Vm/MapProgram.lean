import RiscvBm.Vm.CopyUser
import RiscvBm.Vm.Vma

/-!
# Loading a program into pages (`kernel/vm.c`)

`vm_map_program` goes through its buffer page by page, but `va` stays where it is: every round
finds, or maps, the one page of `va`, and copies to the start of it. `MapsProgram` is what the
callers expect, byte by byte, and `Loads` is the condition under which a call that returns gives
them that.

What a round does is said in terms of `shown`, the bytes that the user sees. On a page that is
mapped for the user, and on a page that `mappages` can map, it puts its bytes over the start of the
page (`Lands`). What `mappages` returns is ignored, and where `va` is inside of a page it maps a
second one, so of a round in general there is only this to say: if the page is the user's in the
end, the bytes are there (`Steady.round`).
-/

namespace RiscvBm.Vm

open Radix Wp ByteMemory Function

/-! ## §1  The bytes of a page -/

def pageByte (page : ℕ → ℕ) (o : ℕ) : UInt8 := digit (page (o / 8)) (o % 8)

/-- `src[i]`, where `src` is given page by page. -/
def srcByte (src : ℕ → ℕ → ℕ) (i : ℕ) : UInt8 := pageByte (src (i / pgsize)) (i % pgsize)

theorem pageByte_blend (n : ℕ) (new old : ℕ → ℕ) (o : ℕ) :
    pageByte (blend n new old) o = if o < n then pageByte new o else pageByte old o := by
  unfold pageByte blend
  by_cases hword : 8 * (o / 8) + 8 ≤ n
  · rw [if_pos hword, if_pos (by omega)]
  · rw [if_neg hword, digit_splice]
    by_cases ho : o < n
    · rw [if_pos (by omega), if_pos ho]
    · rw [if_neg (by omega), if_neg ho]

theorem pageByte_zero (o : ℕ) : pageByte (fun _ => 0) o = 0 := by
  rw [pageByte, digit, Nat.zero_div]
  rfl

theorem byte_eq (m : Mem) (a : ℕ) : m.byte a = pageByte (m.word (a / pgsize)) (a % pgsize) := by
  have hmod : a % pgsize % 8 = a % 8 := Nat.mod_mod_of_dvd a ⟨512, rfl⟩
  rw [pageByte, hmod, Mem.byte]

theorem userByte_eq (m : Mem) (r a : ℕ) :
    userByte m r a = pageByte (m.word (frameOf m r a)) (a % pgsize) := by
  have hmod : phys m r a % pgsize = a % pgsize := by
    rw [phys, Nat.add_comm, Nat.add_mul_mod_self_right, Nat.mod_mod]
  rw [userByte, byte_eq, phys_frame, hmod]

/-- The byte at the offset `o` of a page once `n` bytes have gone to the start of it. -/
def put (n : ℕ) (src : ℕ → ℕ) (old : Option UInt8) (o : ℕ) : UInt8 :=
  if o < n then pageByte src o else old.getD 0

section Shown

variable {m m' : Mem} {r a b va p perm : ℕ}

theorem shown_user (h : UserPage m r a) : shown m r a = some (userByte m r a) := if_pos h

theorem shown_none (h : ¬ UserPage m r a) : shown m r a = none := if_neg h

theorem shown_eq_some {c : UInt8} : shown m r a = some c ↔ UserPage m r a ∧ userByte m r a = c := by
  rw [shown, Option.ite_none_right_eq_some, Option.some.injEq]

theorem not_userPage (hv : isValid (translate m r va) = false) : ¬ UserPage m r va := by
  rintro ⟨-, hvalid, -⟩
  rw [hv] at hvalid
  cases hvalid

/-- An entry for the user. -/
theorem userPage_leaf (htrans : translate m r va = pa2pte p ||| perm ||| pteV) (hva : va < maxva)
    (hperm : perm < 1024 ∧ perm.testBit 4 = true) : UserPage m r va ∧ frameOf m r va = p := by
  rw [UserPage, frameOf, htrans, isValid_mkPte, isUser_mkPte, pte2pa_mkPte hperm.1]
  exact ⟨⟨hva, rfl, hperm.2⟩, rfl⟩

/-- A page that has not changed is seen as before. -/
theorem shown_congr (htrans : translate m' r a = translate m r a)
    (hword : UserPage m r a → m'.word (frameOf m r a) = m.word (frameOf m r a)) :
    shown m' r a = shown m r a := by
  have hframe : frameOf m' r a = frameOf m r a := by rw [frameOf, htrans, frameOf]
  have hiff : UserPage m' r a ↔ UserPage m r a := by rw [UserPage, htrans, UserPage]
  by_cases hu : UserPage m r a
  · rw [shown_user hu, shown_user (hiff.mpr hu), userByte_eq, userByte_eq, hframe, hword hu]
  · rw [shown_none hu, shown_none fun hu' => hu (hiff.mp hu')]

/-- `n` bytes have gone to the start of a page of the user. -/
theorem shown_blend {n : ℕ} {src : ℕ → ℕ} (old : ℕ → ℕ) (seen : Option UInt8)
    (hu : UserPage m r va) (hword : m.word (frameOf m r va) = blend n src old)
    (hpage : a / pgsize = va / pgsize) (hseen : seen.getD 0 = pageByte old (a % pgsize)) :
    shown m r a = some (put n src seen (a % pgsize)) := by
  rw [shown_user (hu.of_page hpage), userByte_eq, hu.frameOf_eq hpage, hword, pageByte_blend, put,
    hseen]

end Shown

/-! ## §2  Pages apart from the tables -/

section Pages

variable {alloc : Mem → ℕ} {m : Mem} {place : ℕ → Option (ℕ × List ℕ)} {r p q f va : ℕ}
  {u : Use} {page : ℕ → ℕ}

theorem word_setPage (m : Mem) (p : ℕ) (page : ℕ → ℕ) : (m.setPage p page).word p = page :=
  fill_same ..

theorem sameTables_setPage (hp : ¬ TableFrame m r p) : SameTables r m (m.setPage p page) := by
  intro f hf
  apply fill_of_ne
  rintro rfl
  exact hp hf

theorem Data.setPage (hf : Data m r f) (hp : ¬ TableFrame m r p) :
    Data (m.setPage p page) r f :=
  ⟨hf.1, (sameTables_setPage hp).tableFrame.not.mpr hf.2⟩

theorem Rooted.setPage (h : Rooted m r place) (hp : place p = none) (page : ℕ → ℕ) :
    Rooted (m.setPage p page) r place := by
  refine ⟨h.linked.fill hp _, h.root, ?_, h.used⟩
  intro f σ i hf hσ hi hv
  have hword : (m.setPage p page).word f = m.word f := fill_of_ne _ _ (Linked.ne_of_place hf hp)
  rw [hword] at hv ⊢
  exact h.inner hf hσ hi hv

theorem Rooted.take (h : Rooted m r place) (hp : place p = none) :
    Rooted (m.take p u) r place where
  linked := h.linked
  root := h.root
  inner := h.inner
  used hf := by
    rw [useOf_take_of_ne (Linked.ne_of_place hf hp)]
    exact h.used hf

theorem Rooted.newPage (h : Rooted m r place) (hp : m.useOf p = none) :
    Rooted ((m.take p u).setPage p page) r place :=
  (h.take (h.unplaced hp)).setPage (h.unplaced hp) page

section

variable (h : IsTree m r)

include h

theorem IsTree.setPage (hp : ¬ TableFrame m r p) (page : ℕ → ℕ) : IsTree (m.setPage p page) r := by
  refine (h.rooted.setPage ?_ page).isTree
  by_contra hplace
  obtain ⟨⟨r', σ⟩, hx⟩ := Option.ne_none_iff_exists'.mp hplace
  obtain ⟨-, hσ, hd⟩ := h.unique.placeOf_eq_some.mp hx
  exact hp ⟨σ, hσ, hd⟩

theorem IsTree.not_tableFrame (hp : m.useOf p = none) : ¬ TableFrame m r p :=
  h.rooted.not_tableFrame (h.rooted.unplaced hp)

theorem IsTree.sameTables_newPage (hp : m.useOf p = none) :
    SameTables r m ((m.take p u).setPage p page) :=
  fun f hf => sameTables_setPage (h.not_tableFrame hp) f hf

theorem IsTree.keepsData_newPage (hp : m.useOf p = none) :
    KeepsData r m ((m.take p u).setPage p page) := by
  intro f hf
  have hne : f ≠ p := by
    rintro rfl
    exact hf.1 hp
  refine ⟨⟨?_, (h.sameTables_newPage hp).tableFrame.not.mpr hf.2⟩, fill_of_ne _ _ hne⟩
  show (m.take p u).useOf f ≠ none
  rw [useOf_take_of_ne hne]
  exact hf.1

theorem IsTree.data_newPage (hp : m.useOf p = none) :
    Data ((m.take p u).setPage p page) r p := by
  refine ⟨?_, (h.sameTables_newPage hp).tableFrame.not.mpr (h.not_tableFrame hp)⟩
  show (m.take p u).useOf p ≠ none
  rw [useOf_take_self]
  exact Option.some_ne_none u

end

end Pages

/-! ## §3  `mappages` of one page -/

section Mappages

variable {alloc : Mem → ℕ} {m m' : Mem} {r va p perm : ℕ} {b : Bool}

/-- What `mappages(va, PGSIZE)` has done: nothing to the entry of `va`, or it has set it. Only
where `va` is the start of a page does its result say which, and is there no other entry. -/
structure Placed (alloc : Mem → ℕ) (r va p perm : ℕ) (m : Mem) (b : Bool) (m' : Mem) : Prop where
  tree : IsTree m' r
  data : KeepsData r m m'
  entry : translate m' r va = translate m r va ∨
    isValid (translate m r va) = false ∧ translate m' r va = pa2pte p ||| perm ||| pteV
  mapped : va % pgsize = 0 → b = true →
    isValid (translate m r va) = false ∧ translate m' r va = pa2pte p ||| perm ||| pteV
  refused : va % pgsize = 0 → b = false → translate m' r va = translate m r va ∧
    ((∃ m₁, ¬ Answer alloc m₁ (alloc m₁)) ∨ isValid (translate m r va) = true)
  others : va % pgsize = 0 → ∀ vb < 2 ^ 39, vb / pgsize ≠ va / pgsize →
    translate m' r vb = translate m r vb

theorem wp_mappages_page (h : IsTree m r) (hva : va < maxva) :
    wp (mappages alloc r va pgsize p perm) (Placed alloc r va p perm m)
      (fun _ => va % pgsize ≠ 0) m := by
  have hround : ∀ m₁ : Mem, translate m₁ r (pgRoundDown va) = translate m₁ r va := fun m₁ =>
    translate_page (pgRoundDown_lt_maxva.mpr hva) hva (pgRoundDown_div va)
  rw [mappages, if_neg (by decide)]
  refine wp_mono (wp_mapLoop_tree h.rooted) ?_ ?_
  · rintro b m' ⟨htree, hdata, j, hj, hb, hmapped, hwhy⟩
    -- the first page of the loop is the one of `va`
    have hzero : j = 0 → translate m' r va = translate m r va := by
      rintro rfl
      exact hmapped.others va (hva.trans maxva_lt) fun i hi => absurd hi (Nat.not_lt_zero i)
    have hfirst : 0 < j → isValid (translate m r va) = false ∧
        translate m' r va = pa2pte p ||| perm ||| pteV := by
      intro hpos
      have hfresh := hmapped.fresh 0 hpos
      have hnew := hmapped.new 0 hpos
      rw [Nat.zero_mul, Nat.add_zero, hround] at hfresh hnew
      exact ⟨hfresh, hnew⟩
    refine ⟨htree, hdata, (Nat.eq_zero_or_pos j).imp hzero hfirst, ?_, ?_, ?_⟩
    · intro hal hb'
      exact hfirst (by rw [hb.mp hb']; omega)
    · intro hal hb'
      rw [spare_aligned hal] at hj hb
      have hj0 : j = 0 := by
        have hne : j ≠ 0 + 1 := fun hj1 => by rw [hb.mpr hj1] at hb'; cases hb'
        omega
      refine ⟨hzero hj0, (hwhy hb').imp_right fun hv => ?_⟩
      rwa [hj0, Nat.zero_mul, Nat.add_zero, hround, hzero hj0] at hv
    · intro hal vb hvb hne
      rw [spare_aligned hal] at hj
      apply hmapped.others vb hvb
      intro i hi
      rw [pgRoundDown_div]
      omega
  · intro _ hbig hal
    rw [spare_aligned hal, pgRoundDown_of_aligned hal] at hbig
    unfold pgsize maxva at *
    omega

/-- A new page of zeros has been mapped at `va`. -/
structure Opened (r va p perm : ℕ) (m m' : Mem) : Prop where
  tree : IsTree m' r
  data : KeepsData r m m'
  new : Data m' r p
  zero : m'.word p = fun _ => 0
  fresh : isValid (translate m r va) = false
  entry : translate m' r va = pa2pte p ||| perm ||| pteV
  others : ∀ vb < maxva, vb / pgsize ≠ va / pgsize → translate m' r vb = translate m r vb

theorem IsTree.opened (h : IsTree m r) (hal : va % pgsize = 0) (hva : va < maxva)
    (hp : m.useOf p = none)
    (hmap : mappages alloc r va pgsize p perm (m.newLeaf r va p) = .ok (true, m')) :
    Opened r va p perm m m' := by
  have hsame : SameTables r m (m.newLeaf r va p) := h.sameTables_newPage hp
  have htree : IsTree (m.newLeaf r va p) r := (h.rooted.newPage hp).isTree
  have hplaced := post_of_ok (wp_mappages_page htree hva) hmap
  obtain ⟨hnew, hword⟩ := hplaced.data p (h.data_newPage hp)
  obtain ⟨hfresh, hentry⟩ := hplaced.mapped hal rfl
  rw [translate_of_words hsame] at hfresh
  refine ⟨hplaced.tree, (h.keepsData_newPage hp).trans hplaced.data, hnew,
    hword.trans (word_setPage ..), hfresh, hentry, fun vb hvb hne => ?_⟩
  rw [hplaced.others hal vb (hvb.trans maxva_lt) hne, translate_of_words hsame]

/-- A new page of zeros is for `mappages` to map. -/
theorem IsTree.mappages_new (h : IsTree m r) (perm : ℕ) (hal : va % pgsize = 0) (hva : va < maxva)
    (hp : m.useOf p = none) :
    ∃ b m', mappages alloc r va pgsize p perm (m.newLeaf r va p) = .ok (b, m') ∧ Data m' r p ∧
      (b = true → Opened r va p perm m m') ∧
      (b = false → translate m' r va = translate m r va ∧
        ((∃ m₁, ¬ Answer alloc m₁ (alloc m₁)) ∨ isValid (translate m r va) = true)) := by
  have htree : IsTree (m.newLeaf r va p) r := (h.rooted.newPage hp).isTree
  have hsame : SameTables r m (m.newLeaf r va p) := h.sameTables_newPage hp
  have hwp : wp (mappages alloc r va pgsize p perm) _ noError (m.newLeaf r va p) :=
    wp_error (wp_mappages_page htree hva) fun _ hno => hno hal
  obtain ⟨b, m', hmap, hplaced⟩ := exists_of_wp hwp
  refine ⟨b, m', hmap, (hplaced.data p (h.data_newPage hp)).1, ?_, ?_⟩
  · rintro rfl
    exact h.opened hal hva hp hmap
  · intro hb
    have hrefused := hplaced.refused hal hb
    rwa [translate_of_words hsame] at hrefused

end Mappages

/-! ## §4  A round -/

section Rounds

variable {alloc : Mem → ℕ} {m m' : Mem} {r va n p perm : ℕ} {src : ℕ → ℕ} {b : Bool}
  {copy : ℕ → Mem → Mem}

theorem mapPage_user (hu : UserPage m r va) :
    mapPage alloc r va perm copy m = .ok (some false, copy (frameOf m r va) m) := by
  have hframe : userFrame m r va = some (frameOf m r va) := if_pos hu
  rw [mapPage, bind_run (walkaddr_eq alloc m r va), hframe]
  rfl

theorem mapPage_full (hu : ¬ UserPage m r va) (hfull : ¬ Answer alloc m (alloc m)) :
    mapPage alloc r va perm copy m = .ok (none, m.tick) := by
  have hframe : userFrame m r va = none := if_neg hu
  rw [mapPage, bind_run (walkaddr_eq alloc m r va), hframe]
  dsimp only
  rw [bind_run (getFreePage_refused _ hfull)]
  rfl

/-- A page is taken; what `mappages` returns is not looked at. -/
theorem mapPage_take (hu : ¬ UserPage m r va) (hp : Answer alloc m p) :
    mapPage alloc r va perm copy m = (mappages alloc r va pgsize p perm >>= fun _ => do
      modify (copy p)
      pure (some true)) (m.newLeaf r va p) := by
  have hframe : userFrame m r va = none := if_neg hu
  rw [mapPage, bind_run (walkaddr_eq alloc m r va), hframe]
  dsimp only
  rw [bind_run (getFreePage_some _ hp)]
  rfl

theorem mapPage_filled (hu : ¬ UserPage m r va) (hp : Answer alloc m p)
    (hmap : mappages alloc r va pgsize p perm (m.newLeaf r va p) = .ok (b, m')) :
    mapPage alloc r va perm copy m = .ok (some true, copy p m') := by
  rw [mapPage_take hu hp, bind_run hmap]
  rfl

/-- The page of `va`, if it is the user's, is not one of the tables. -/
structure Steady (m : Mem) (r va : ℕ) : Prop where
  tree : IsTree m r
  data : UserPage m r va → Data m r (frameOf m r va)

/-- **A round in general.** If the page of `va` is the user's in the end, the bytes are at its
start. -/
theorem Steady.round (h : Steady m r va) (hva : va < maxva) :
    wp (mapProgramPage alloc r va n src)
      (fun _ m' => Steady m' r va ∧ ∀ a c, a / pgsize = va / pgsize → shown m' r a = some c →
        c = put n src (shown m r a) (a % pgsize)) (fun _ => True) m := by
  by_cases hu : UserPage m r va
  · have hnot := (h.data hu).2
    apply wp_of_run (mapPage_user hu)
    have hsame : SameTables r m (m.setPage (frameOf m r va)
        (blend n src (m.word (frameOf m r va)))) := sameTables_setPage hnot
    refine ⟨⟨h.tree.setPage hnot _, fun _ => ?_⟩, fun a c hpage hc => ?_⟩
    · rw [hsame.frameOf]
      exact (h.data hu).setPage hnot
    · have hshown := shown_blend (m.word (frameOf m r va)) (shown m r a)
        ((hsame.userPage va).mpr hu) (by rw [hsame.frameOf, word_setPage]) hpage
        (by rw [shown_user (hu.of_page hpage), userByte_eq, hu.frameOf_eq hpage]; rfl)
      exact Option.some.inj (hc.symm.trans hshown)
  · have hnone : ∀ {a}, a / pgsize = va / pgsize → shown m r a = none :=
      fun hpage => shown_none fun hu' => hu (hu'.of_page hpage.symm)
    by_cases hp : Answer alloc m (alloc m)
    swap
    · apply wp_of_run (mapPage_full hu hp)
      refine ⟨⟨h.tree.rooted.tick.isTree, fun hu' => absurd hu' hu⟩, fun a c hpage hc => ?_⟩
      rw [show shown m.tick r a = none from hnone hpage] at hc
      cases hc
    generalize alloc m = p at hp
    have htree : IsTree (m.newLeaf r va p) r := (h.tree.rooted.newPage hp.2.2).isTree
    have hsame : SameTables r m (m.newLeaf r va p) := h.tree.sameTables_newPage hp.2.2
    apply wp_of_eq (mapPage_take hu hp)
    refine wp_bind (wp_error (wp_mappages_page htree hva) fun _ _ => trivial) ?_
    intro b m₁ hplaced
    refine wp_modify_bind (wp_pure ?_)
    obtain ⟨hnew, hword⟩ := hplaced.data p (h.tree.data_newPage hp.2.2)
    have hfill : SameTables r m₁ (m₁.setPage p (blend n src (m₁.word p))) :=
      sameTables_setPage hnew.2
    -- only a page that has just been mapped is the user's now
    have hcase : UserPage m₁ r va → UserPage m₁ r va ∧ frameOf m₁ r va = p := by
      intro hu'
      rcases hplaced.entry with hold | ⟨-, hleaf⟩
      · rw [UserPage, hold, translate_of_words hsame] at hu'
        exact absurd hu' hu
      · exact userPage_leaf hleaf hva (by decide)
    refine ⟨⟨hplaced.tree.setPage hnew.2 _, fun hu' => ?_⟩, fun a c hpage hc => ?_⟩
    · obtain ⟨-, hframe⟩ := hcase ((hfill.userPage va).mp hu')
      rw [hfill.frameOf, hframe]
      exact hnew.setPage hnew.2
    · have hua : UserPage (m₁.setPage p (blend n src (m₁.word p))) r a := by
        by_contra hno
        rw [shown_none hno] at hc
        cases hc
      obtain ⟨hu', hframe⟩ := hcase ((hfill.userPage va).mp (hua.of_page hpage.symm))
      have hzero : m₁.word p = fun _ => 0 := hword.trans (word_setPage ..)
      have hshown := shown_blend (m₁.word p) (shown m r a) ((hfill.userPage va).mpr hu')
        (by rw [hfill.frameOf, hframe, word_setPage]) hpage
        (by rw [hnone hpage, hzero, pageByte_zero]; rfl)
      exact Option.some.inj (hc.symm.trans hshown)

end Rounds

/-! ## §5  The rounds -/

section Loop

variable {alloc : Mem → ℕ} {m : Mem} {r va a i size : ℕ} {src : ℕ → ℕ → ℕ} {l : List ℕ} {ret : Bool}

/-- What a round keeps, all rounds keep. -/
theorem wp_mapProgramLoop_keeps {I : Mem → Prop}
    (hround : ∀ m i n, I m → wp (mapProgramPage alloc r va n (src i)) (fun _ m' => I m')
      (fun _ => True) m) (h : I m) :
    wp (mapProgramLoop alloc r va size src l ret) (fun _ m' => I m') (fun _ => True) m := by
  induction l generalizing m ret with
  | nil => exact wp_pure h
  | cons i l ih =>
    unfold mapProgramLoop
    apply wp_bind (hround m i _ h)
    rintro (_ | new) m₁ h₁
    · exact wp_pure h₁
    · exact ih h₁

/-- A byte that is zero in every round stays zero. -/
theorem Steady.loop_zero (h : Steady m r va) (hva : va < maxva) (hpage : a / pgsize = va / pgsize)
    (hsrc : ∀ i, pageByte (src i) (a % pgsize) = 0) (hstart : (shown m r a).getD 0 = 0) :
    wp (mapProgramLoop alloc r va size src l ret) (fun _ m' => (shown m' r a).getD 0 = 0)
      (fun _ => True) m := by
  refine wp_post (wp_mapProgramLoop_keeps (I := fun m' => Steady m' r va ∧
    (shown m' r a).getD 0 = 0) ?_ ⟨h, hstart⟩) fun _ _ hpost => hpost.2
  rintro m₁ i n ⟨h₁, hzero⟩
  apply wp_post (h₁.round hva)
  rintro _ m₂ ⟨h₂, hshown⟩
  refine ⟨h₂, ?_⟩
  cases hc : shown m₂ r a with
  | none => rfl
  | some c =>
    rw [Option.getD_some, hshown a c hpage hc, put, hsrc, hzero, ite_self]

/-- The start of the page has what the last round brought. -/
theorem Steady.loop_last (h : Steady m r va) (hva : va < maxva) (hpage : a / pgsize = va / pgsize)
    (hn : a % pgsize < min pgsize (size - i * pgsize)) :
    wp (mapProgramLoop alloc r va size src (l ++ [i]) ret)
      (fun o m' => o ≠ none → ∀ c, shown m' r a = some c → c = pageByte (src i) (a % pgsize))
      (fun _ => True) m := by
  induction l generalizing m ret with
  | nil =>
    apply wp_bind (h.round hva)
    rintro (_ | new) m₁ ⟨-, hshown⟩
    · exact wp_pure fun hne => absurd rfl hne
    · refine wp_pure fun _ c hc => ?_
      rw [hshown a c hpage hc, put, if_pos hn]
  | cons j l ih =>
    rw [List.cons_append]
    apply wp_bind (h.round hva)
    rintro (_ | new) m₁ ⟨h₁, -⟩
    · exact wp_pure fun hne => absurd rfl hne
    · exact ih h₁

end Loop

/-! ## §6  A page that is the user's -/

/-- A table whose user pages are frames in use, other than the tables and each other. -/
structure ProgramTable (m : Mem) (r : ℕ) : Prop where
  tree : IsTree m r
  pages : PagesApart m r 0 0
  used : ∀ a, UserPage m r a → m.useOf (frameOf m r a) ≠ none

/-- A frame in use that is neither a table nor a page of the user. -/
structure Clear (m : Mem) (r p : ℕ) : Prop where
  data : Data m r p
  page : ∀ a, UserPage m r a → frameOf m r a ≠ p

/-- `n` bytes have gone to the start of the page of `va`, which is the user's now. -/
structure Lands (r va n : ℕ) (src : ℕ → ℕ) (m m' : Mem) : Prop where
  table : ProgramTable m' r
  shown : ∀ a, shown m' r a = if a / pgsize = va / pgsize then
    some (put n src (shown m r a) (a % pgsize)) else shown m r a
  entry : translate m' r va = translate m r va ∨
    pteFlags (translate m' r va) = programPerm ||| pteV
  others : ∀ vb < maxva, vb / pgsize ≠ va / pgsize → translate m' r vb = translate m r vb
  clear : ∀ {f}, Clear m r f → Clear m' r f

section Lands

variable {alloc : Mem → ℕ} {m m' : Mem} {r va n p f : ℕ} {src page : ℕ → ℕ}

theorem ProgramTable.data (h : ProgramTable m r) {a : ℕ} (ha : UserPage m r a) :
    Data m r (frameOf m r a) :=
  ⟨h.used a ha, h.pages.tables a ha⟩

theorem ProgramTable.steady (h : ProgramTable m r) (va : ℕ) : Steady m r va := ⟨h.tree, h.data⟩

theorem ProgramTable.setPage (h : ProgramTable m r) (hp : ¬ TableFrame m r p) (page : ℕ → ℕ) :
    ProgramTable (m.setPage p page) r := by
  have hsame : SameTables r m (m.setPage p page) := sameTables_setPage hp
  refine ⟨h.tree.setPage hp page, hsame.pagesApart h.pages h.pages.buffer, fun a ha => ?_⟩
  rw [hsame.frameOf]
  exact h.used a ((hsame.userPage a).mp ha)

theorem Clear.setPage (h : Clear m r f) (hp : ¬ TableFrame m r p) (page : ℕ → ℕ) :
    Clear (m.setPage p page) r f := by
  have hsame : SameTables r m (m.setPage p page) := sameTables_setPage hp
  refine ⟨h.data.setPage hp, fun a ha => ?_⟩
  rw [hsame.frameOf]
  exact h.page a ((hsame.userPage a).mp ha)

/-- The user sees nothing of it. -/
theorem Clear.shown_setPage (h : Clear m r p) (page : ℕ → ℕ) (a : ℕ) :
    shown (m.setPage p page) r a = shown m r a :=
  shown_congr (translate_of_words (sameTables_setPage h.data.2)) fun hu =>
    fill_of_ne _ _ (h.page a hu)

theorem ProgramTable.take {u : Use} (h : ProgramTable m r) (hp : m.useOf p = none) :
    ProgramTable (m.take p u) r ∧ Clear (m.take p u) r p := by
  have hne : ∀ a, UserPage m r a → frameOf m r a ≠ p := fun a ha heq => h.used a ha (heq ▸ hp)
  have hsame : SameTables r m (m.take p u) := fun _ _ => rfl
  refine ⟨⟨(h.tree.rooted.take (h.tree.rooted.unplaced hp)).isTree,
    hsame.pagesApart h.pages h.pages.buffer, fun a ha => ?_⟩, ⟨?_, h.tree.not_tableFrame hp⟩, hne⟩
  · rw [hsame.frameOf, useOf_take_of_ne (hne a ha)]
    exact h.used a ha
  · rw [useOf_take_self]
    exact Option.some_ne_none u

theorem ProgramTable.release (h : ProgramTable m r) (hp : Clear m r p) :
    ProgramTable (m.release p) r := by
  have hsame : SameTables r m (m.release p) := fun _ _ => rfl
  refine ⟨⟨h.tree.unique, h.tree.inner, fun {σ f} hσ hd => ?_⟩,
    hsame.pagesApart h.pages h.pages.buffer, fun a ha => ?_⟩
  · rw [useOf_release_of_ne]
    · exact h.tree.used hσ hd
    · rintro rfl
      exact hp.data.2 ⟨σ, hσ, hd⟩
  · rw [hsame.frameOf, useOf_release_of_ne (hp.page a ha)]
    exact h.used a ha

theorem ProgramTable.lands_user (h : ProgramTable m r) (hu : UserPage m r va) (n : ℕ)
    (src : ℕ → ℕ) :
    Lands r va n src m (m.setPage (frameOf m r va) (blend n src (m.word (frameOf m r va)))) := by
  have hnot := h.pages.tables va hu
  generalize hpage : blend n src (m.word (frameOf m r va)) = page
  have hsame : SameTables r m (m.setPage (frameOf m r va) page) := sameTables_setPage hnot
  refine ⟨h.setPage hnot page, fun a => ?_, Or.inl (translate_of_words hsame),
    fun vb _ _ => translate_of_words hsame, fun hf => hf.setPage hnot page⟩
  by_cases ha : a / pgsize = va / pgsize
  · rw [if_pos ha]
    refine shown_blend (m.word (frameOf m r va)) _ ((hsame.userPage va).mpr hu) ?_ ha ?_
    · rw [hsame.frameOf, word_setPage, hpage]
    · rw [shown_user (hu.of_page ha), userByte_eq, hu.frameOf_eq ha]
      rfl
  · rw [if_neg ha]
    apply shown_congr (translate_of_words hsame)
    intro hua
    apply fill_of_ne
    exact fun heq => ha (h.pages.apart a va hua hu heq)

/-- The pages of the user are those that there were, and the new one. -/
theorem Opened.cases {perm a : ℕ} (h : Opened r va p perm m m') (hva : va < maxva)
    (hperm : perm < 1024 ∧ perm.testBit 4 = true) (ha : UserPage m' r a) :
    (a / pgsize = va / pgsize ∧ frameOf m' r a = p) ∨
      (a / pgsize ≠ va / pgsize ∧ UserPage m r a ∧ frameOf m' r a = frameOf m r a) := by
  by_cases hpage : a / pgsize = va / pgsize
  · obtain ⟨hu, hframe⟩ := userPage_leaf h.entry hva hperm
    exact Or.inl ⟨hpage, (hu.frameOf_eq hpage).trans hframe⟩
  · have htrans := h.others a ha.1 hpage
    rw [UserPage, htrans] at ha
    exact Or.inr ⟨hpage, ha, by rw [frameOf, htrans, frameOf]⟩

section

variable {perm : ℕ} (hm : Opened r va p perm m m') (hp : p ≠ 0 ∧ m.useOf p = none)
  (hva : va < maxva) (hperm : perm < 1024 ∧ perm.testBit 4 = true)

include hm hp hva hperm

theorem ProgramTable.opened (h : ProgramTable m r) : ProgramTable m' r := by
  have hcases := fun {a} => hm.cases (a := a) hva hperm
  have hold : ∀ a, UserPage m r a → frameOf m r a ≠ p := fun a ha heq =>
    h.used a ha (heq ▸ hp.2)
  refine ⟨hm.tree, ⟨?_, ?_, ?_, ?_⟩, ?_⟩
  · intro a ha
    rcases hcases ha with ⟨-, hframe⟩ | ⟨-, hua, hframe⟩
    · exact hframe ▸ hp.1
    · exact hframe ▸ h.pages.nonzero a hua
  · intro a ha
    rcases hcases ha with ⟨-, hframe⟩ | ⟨-, hua, hframe⟩
    · exact hframe ▸ hm.new.2
    · exact hframe ▸ (hm.data _ (h.data hua)).1.2
  · exact fun _ _ i hi => absurd hi (Nat.not_lt_zero i)
  · intro a b ha hb heq
    rcases hcases ha with ⟨hpa, hfa⟩ | ⟨-, hua, hfa⟩ <;>
      rcases hcases hb with ⟨hpb, hfb⟩ | ⟨-, hub, hfb⟩
    · rw [hpa, hpb]
    · exact absurd (hfb.symm.trans (heq.symm.trans hfa)) (hold b hub)
    · exact absurd (hfa.symm.trans (heq.trans hfb)) (hold a hua)
    · exact h.pages.apart a b hua hub (hfa.symm.trans (heq.trans hfb))
  · intro a ha
    rcases hcases ha with ⟨-, hframe⟩ | ⟨-, hua, hframe⟩
    · exact hframe ▸ hm.new.1
    · exact hframe ▸ (hm.data _ (h.data hua)).1.1

theorem Clear.opened (h : Clear m r f) : Clear m' r f := by
  refine ⟨(hm.data f h.data).1, fun a ha => ?_⟩
  rcases hm.cases hva hperm ha with ⟨-, hframe⟩ | ⟨-, hua, hframe⟩
  · rw [hframe]
    rintro rfl
    exact h.data.1 hp.2
  · exact hframe ▸ h.page a hua

end

theorem ProgramTable.lands_new (h : ProgramTable m r) (hm : Opened r va p programPerm m m')
    (hp : p ≠ 0 ∧ m.useOf p = none) (hva : va < maxva) (n : ℕ) (src : ℕ → ℕ) :
    Lands r va n src m (m'.setPage p (blend n src (m'.word p))) := by
  have hperm : programPerm < 1024 ∧ programPerm.testBit 4 = true := by decide
  have hfill : SameTables r m' (m'.setPage p (blend n src (m'.word p))) :=
    sameTables_setPage hm.new.2
  obtain ⟨hu, hframe⟩ := userPage_leaf hm.entry hva hperm
  refine ⟨(h.opened hm hp hva hperm).setPage hm.new.2 _, fun a => ?_, Or.inr ?_, ?_,
    fun hf => (hf.opened hm hp hva hperm).setPage hm.new.2 _⟩
  · by_cases ha : a / pgsize = va / pgsize
    · rw [if_pos ha]
      refine shown_blend (m'.word p) _ ((hfill.userPage va).mpr hu) ?_ ha ?_
      · rw [hfill.frameOf, hframe, word_setPage]
      · rw [shown_none fun hua => not_userPage hm.fresh (hua.of_page ha.symm), hm.zero,
          pageByte_zero]
        rfl
    · rw [if_neg ha]
      by_cases hlt : a < maxva
      · apply shown_congr ((translate_of_words hfill).trans (hm.others a hlt ha))
        intro hua
        have hne : frameOf m r a ≠ p := fun heq => h.used a hua (heq ▸ hp.2)
        exact (fill_of_ne _ _ hne).trans (hm.data _ (h.data hua)).2
      · rw [shown_none fun hu => hlt hu.1, shown_none fun hu => hlt hu.1]
  · rw [translate_of_words hfill, hm.entry, pteFlags_mkLeaf (by decide)]
  · intro vb hvb hne
    rw [translate_of_words hfill, hm.others vb hvb hne]

end Lands

/-! ## §7  When the program is mapped -/

/-- `size` bytes of `src` are at `va`, on pages with the permissions `perm` where they are new,
and the bytes around them are as they were. -/
structure MapsProgram (m m' : Mem) (r va size perm : ℕ) (src : ℕ → ℕ → ℕ) : Prop where
  bytes : ∀ i < size, shown m' r (va + i) = some (srcByte src i)
  perms : ∀ vb < maxva, isValid (translate m r vb) = false → isValid (translate m' r vb) = true →
    pteFlags (translate m' r vb) = perm ||| pteV
  others : ∀ vb, vb < va ∨ va + size ≤ vb → shown m r vb ≠ none → shown m' r vb = shown m r vb

/-- Whatever the source, when the call returns 0 or 1 the program is mapped. -/
def ProgramMapped (alloc : Mem → ℕ) (m : Mem) (r va size perm : ℕ) : Prop :=
  ∀ src b m', vmMapProgram alloc r va size src m = .ok (some b, m') →
    MapsProgram m m' r va size perm src

/-- One round, from the start of a page that is mapped already, or that `mappages` does map and
that is wanted with all permissions. -/
def Loads (alloc : Mem → ℕ) (m : Mem) (r va size perm : ℕ) : Prop :=
  size = 0 ∨ va % pgsize = 0 ∧ size ≤ pgsize ∧ (UserPage m r va ∨
    perm ||| pteV = programPerm ||| pteV ∧ ∃ p m', Answer alloc m p ∧
      mappages alloc r va pgsize p programPerm (m.newLeaf r va p) = .ok (true, m'))

section Loads

variable {alloc : Mem → ℕ} {m m' : Mem} {r va size perm p : ℕ} {src : ℕ → ℕ → ℕ} {b : Bool}

theorem srcByte_first {i : ℕ} (hi : i < pgsize) : srcByte src i = pageByte (src 0) i := by
  rw [srcByte, Nat.div_eq_of_lt hi, Nat.mod_eq_of_lt hi]

theorem rounds_eq (hpos : size ≠ 0) : List.range ((size + pgsize - 1) / pgsize) =
    List.range ((size - 1) / pgsize) ++ [(size - 1) / pgsize] := by
  have hrounds : (size + pgsize - 1) / pgsize = (size - 1) / pgsize + 1 := by
    unfold pgsize
    omega
  rw [hrounds, List.range_succ]

/-- A call with one round. -/
theorem vmMapProgram_one (hpos : size ≠ 0) (hsize : size ≤ pgsize) :
    vmMapProgram alloc r va size src m = (mapProgramPage alloc r va size (src 0) >>= fun o =>
      match o with
      | none => pure none
      | some new => pure (some (false || new))) m := by
  have hone : (size - 1) / pgsize = 0 := Nat.div_eq_of_lt (by omega)
  rw [vmMapProgram, rounds_eq hpos, hone, List.range_zero, List.nil_append, mapProgramLoop,
    Nat.zero_mul, Nat.sub_zero, Nat.min_eq_right hsize]
  rfl

/-- An address on the page of `va`, which is aligned. -/
theorem mod_of_aligned {i : ℕ} (hal : va % pgsize = 0) (hi : i < pgsize) :
    (va + i) / pgsize = va / pgsize ∧ (va + i) % pgsize = i := by
  unfold pgsize at *
  omega

theorem Lands.mapsProgram (h : Lands r va size (src 0) m m') (hal : va % pgsize = 0)
    (hsize : size ≤ pgsize) (hva : va < maxva)
    (hperm : isValid (translate m r va) = true ∨ perm ||| pteV = programPerm ||| pteV) :
    MapsProgram m m' r va size perm src := by
  constructor
  · intro i hi
    obtain ⟨hpage, hmod⟩ := mod_of_aligned hal (hi.trans_le hsize)
    rw [h.shown, if_pos hpage, hmod, put, if_pos hi, srcByte_first (hi.trans_le hsize)]
  · intro vb hvb hno hyes
    by_cases hpage : vb / pgsize = va / pgsize
    · have hsame : ∀ m₁ : Mem, translate m₁ r vb = translate m₁ r va :=
        fun m₁ => translate_page hvb hva hpage
      rw [hsame] at hno hyes ⊢
      rcases h.entry with hold | hflags
      · rw [hold, hno] at hyes
        cases hyes
      · rcases hperm with hv | hperm
        · rw [hno] at hv
          cases hv
        · rw [hflags, hperm]
    · rw [h.others vb hvb hpage, hno] at hyes
      cases hyes
  · intro vb hout hseen
    rw [h.shown]
    split
    · -- the same page, behind the program
      rename_i hpage
      obtain ⟨c, hc⟩ := Option.ne_none_iff_exists'.mp hseen
      have hoff : ¬ vb % pgsize < size := by
        unfold pgsize at *
        omega
      rw [put, if_neg hoff, hc, Option.getD_some]
    · rfl

/-- Under the condition the program is mapped. -/
theorem ProgramTable.programMapped (h : ProgramTable m r) (hva : va + size ≤ maxva)
    (hloads : Loads alloc m r va size perm) : ProgramMapped alloc m r va size perm := by
  intro src b m' hok
  by_cases hpos : size = 0
  · subst hpos
    obtain rfl : m = m' := by
      cases hok
      rfl
    refine ⟨fun i hi => absurd hi (Nat.not_lt_zero i), ?_, fun _ _ _ => rfl⟩
    intro vb _ hno hyes
    rw [hno] at hyes
    cases hyes
  obtain ⟨hal, hsize, hcase⟩ := hloads.resolve_left hpos
  have hlt : va < maxva := by omega
  rw [vmMapProgram_one hpos hsize, mapProgramPage] at hok
  rcases hcase with hu | ⟨hperm, p, m₁, hp, hmap⟩
  · rw [bind_run (mapPage_user hu)] at hok
    cases hok
    exact (h.lands_user hu size (src 0)).mapsProgram hal hsize hlt (Or.inl hu.2.1)
  · have hm := h.tree.opened hal hlt hp.2.2 hmap
    rw [bind_run (mapPage_filled (not_userPage hm.fresh) hp hmap)] at hok
    cases hok
    exact (h.lands_new hm hp.2 hlt size (src 0)).mapsProgram hal hsize hlt (Or.inr hperm)

/-- A program of zeros on its first page and ones on the others. -/
def twoParts (i : ℕ) : ℕ → ℕ := fun _ => if i = 0 then 0 else 1

/-- A program that starts with a one and goes on with zeros. -/
def oneFirst : ℕ → ℕ := fun k => if k = 0 then 1 else 0

theorem pageByte_oneFirst {o : ℕ} (ho : o ≠ 0) : pageByte oneFirst o = 0 := by
  unfold pageByte oneFirst
  split
  · have hdigit : 1 < 256 ^ (o % 8) := Nat.one_lt_pow (by omega) (by decide)
    rw [digit, Nat.div_eq_of_lt hdigit]
    rfl
  · exact pageByte_zero o

section Needed

variable (h : ProgramTable m r) (hva : va < maxva) (hpos : size ≠ 0)
  (hok : vmMapProgram alloc r va size src m = .ok (some b, m'))

include h hva hpos hok

/-- What the last round brought is at the start of the page. -/
theorem ProgramTable.shown_start {a : ℕ} {c : UInt8} (hpage : a / pgsize = va / pgsize)
    (hal : a % pgsize = 0) (hc : shown m' r a = some c) :
    c = pageByte (src ((size - 1) / pgsize)) 0 := by
  rw [vmMapProgram, rounds_eq hpos] at hok
  have hn : a % pgsize < min pgsize (size - (size - 1) / pgsize * pgsize) := by
    unfold pgsize at *
    omega
  rw [← hal]
  exact post_of_ok ((h.steady va).loop_last hva hpage hn) hok (Option.some_ne_none b) c hc

end Needed

section Needed

variable (h : ProgramTable m r) (hva : va + size ≤ maxva) (hpos : size ≠ 0)
  (hret : ∀ src, ∃ b m', vmMapProgram alloc r va size src m = .ok (some b, m'))
  (hmapped : ProgramMapped alloc m r va size perm)

include h hva hpos hret hmapped

/-- Inside of a page what comes before `va` is lost, or else the program, whose start went to the
start of the page. -/
theorem ProgramTable.aligned_of_mapped : va % pgsize = 0 := by
  have hlt : va < maxva := by omega
  by_contra hal
  by_cases hu : UserPage m r va
  · have hpage := pgRoundDown_div va
    have hlow : pgRoundDown va < va := by
      unfold pgRoundDown pgsize at *
      omega
    have hold := shown_user (hu.of_page hpage)
    generalize userByte m r (pgRoundDown va) = c at hold
    -- a program whose bytes are not the one that is at the start of the page
    obtain ⟨b, m', hok⟩ := hret fun _ _ => (c + 1).toNat
    have hkeep := (hmapped _ b m' hok).others (pgRoundDown va) (Or.inl hlow)
      (by rw [hold]; exact Option.some_ne_none c)
    have hnew := h.shown_start hlt hpos hok hpage (pgRoundDown_mod va) (hkeep.trans hold)
    have hdigit : pageByte (fun _ => (c + 1).toNat) 0 = c + 1 := by
      show UInt8.ofNat ((c + 1).toNat / 256 ^ 0) = c + 1
      rw [Nat.pow_zero, Nat.div_one, UInt8.ofNat_toNat]
    rw [hdigit] at hnew
    exact absurd hnew.symm (by simp)
  · obtain ⟨b, m', hok⟩ := hret fun _ => oneFirst
    have hbyte := (hmapped _ b m' hok).bytes 0 (Nat.pos_of_ne_zero hpos)
    have hzero := post_of_ok ((h.steady va).loop_zero hlt rfl (fun _ => pageByte_oneFirst hal)
      (by rw [shown_none hu]; rfl)) hok
    rw [Nat.add_zero] at hbyte
    rw [hbyte] at hzero
    exact absurd hzero (by decide)

/-- With more than one round the start of the program is gone. -/
theorem ProgramTable.short_of_mapped : size ≤ pgsize := by
  by_contra hsize
  have hal := h.aligned_of_mapped hva hpos hret hmapped
  obtain ⟨b, m', hok⟩ := hret twoParts
  have hbyte := (hmapped _ b m' hok).bytes 0 (Nat.pos_of_ne_zero hpos)
  have hlast : (size - 1) / pgsize ≠ 0 := by
    unfold pgsize at *
    omega
  have hone : twoParts ((size - 1) / pgsize) = fun _ => 1 := funext fun _ => if_neg hlast
  have hstart := h.shown_start (by omega) hpos hok rfl hal hbyte
  rw [hone] at hstart
  exact absurd hstart (by decide)

/-- The condition is needed. -/
theorem ProgramTable.loads : Loads alloc m r va size perm := by
  have hlt : va < maxva := by omega
  have hal := h.aligned_of_mapped hva hpos hret hmapped
  have hsize := h.short_of_mapped hva hpos hret hmapped
  refine Or.inr ⟨hal, hsize, ?_⟩
  by_cases hu : UserPage m r va
  · exact Or.inl hu
  obtain ⟨b, m', hok⟩ := hret fun _ _ => 0
  have hmaps := hmapped _ b m' hok
  rw [vmMapProgram_one hpos hsize, mapProgramPage] at hok
  by_cases hp : Answer alloc m (alloc m)
  swap
  · rw [bind_run (mapPage_full hu hp)] at hok
    cases hok
  generalize alloc m = p at hp
  obtain ⟨served, m₁, hmap, hdata, hyes, hno⟩ := h.tree.mappages_new programPerm hal hlt hp.2.2
  rw [bind_run (mapPage_filled hu hp hmap)] at hok
  cases hok
  -- the page is the user's in the end, so it has been mapped
  have hfill : SameTables r m₁ (m₁.setPage p (blend size (fun _ => 0) (m₁.word p))) :=
    sameTables_setPage hdata.2
  have hu₁ : UserPage m₁ r va := by
    by_contra hno
    have hbyte := hmaps.bytes 0 (Nat.pos_of_ne_zero hpos)
    rw [Nat.add_zero, shown_none fun hu' => hno ((hfill.userPage va).mp hu')] at hbyte
    cases hbyte
  cases served with
  | false =>
    rw [UserPage, (hno rfl).1] at hu₁
    exact absurd hu₁ hu
  | true =>
    have hm := hyes rfl
    have hflags := hmaps.perms va hlt hm.fresh (by rw [translate_of_words hfill]; exact hu₁.2.1)
    rw [translate_of_words hfill, hm.entry, pteFlags_mkLeaf (by decide)] at hflags
    exact Or.inr ⟨hflags.symm, p, m₁, hp, hmap⟩

end Needed

/-- **`vm_map_program` loads a program only in one round.** Each round goes to the start of the
page of `va`, new pages have all permissions, and a page that could not be mapped is not noticed:
so of the calls that return 0 or 1, just those map their program, with its permissions and with
nothing else lost, that start with a page and end on it, where that page is mapped already or has
been mapped and was wanted with all permissions. The counter has 32 bits; beyond `2 ^ 32 - PGSIZE`
it never gets to `size`. -/
theorem programMapped_iff (h : ProgramTable m r) (hva : va + size ≤ maxva)
    (_ : size ≤ 2 ^ 32 - pgsize)
    (hret : ∀ src, ∃ b m', vmMapProgram alloc r va size src m = .ok (some b, m')) :
    ProgramMapped alloc m r va size perm ↔ Loads alloc m r va size perm := by
  constructor
  · intro hmapped
    by_cases hpos : size = 0
    · exact Or.inl hpos
    · exact h.loads hva hpos hret hmapped
  · exact h.programMapped hva

end Loads

theorem shown_blank (a : ℕ) : shown blank 1 a = none ∧ translate blank 1 a = 0 := by
  have hzero : translate blank 1 a = 0 := by
    cases hd : descend next blank.word 1 (vpath a) with
    | none => rw [translate, view_of_none hd]
    | some t =>
      rw [translate, view_of_some hd]
      rfl
  exact ⟨shown_none (not_userPage (by rw [hzero]; rfl)), hzero⟩

theorem programTable_blank : ProgramTable blank 1 := by
  have hno : ∀ a, ¬ UserPage blank 1 a := fun a =>
    not_userPage (by rw [(shown_blank a).2]; rfl)
  exact ⟨isTree_blank, ⟨fun a ha => absurd ha (hno a), fun a ha => absurd ha (hno a),
    fun a ha => absurd ha (hno a), fun a _ ha => absurd ha (hno a)⟩, fun a ha => absurd ha (hno a)⟩

/-- The page at `USER_CODE_VM_START` can be mapped. -/
theorem mappages_blank : Answer above blank 2 ∧ ∃ m', mappages above 1 userCodeVmStart pgsize 2
    programPerm (blank.newLeaf 1 userCodeVmStart 2) = .ok (true, m') := by
  refine ⟨answer_above blank, ?_⟩
  have hrun : (mappages above 1 userCodeVmStart pgsize 2 programPerm
      (blank.newLeaf 1 userCodeVmStart 2)).toOption.any Prod.fst = true := by
    decide +kernel
  obtain ⟨⟨_, m'⟩, hok, rfl⟩ := ok_of_check hrun
  exact ⟨m', hok⟩

/-- Into a new table, with memory. -/
theorem programMapped_blank :
    (∀ src, ∃ b m', vmMapProgram above 1 userCodeVmStart 100 src blank = .ok (some b, m')) ∧
      ProgramMapped above blank 1 userCodeVmStart 100 programPerm := by
  obtain ⟨hp, m', hmap⟩ := mappages_blank
  have hu : ¬ UserPage blank 1 userCodeVmStart :=
    not_userPage (by rw [(shown_blank _).2]; rfl)
  have hret : ∀ src, ∃ b m', vmMapProgram above 1 userCodeVmStart 100 src blank =
      .ok (some b, m') := by
    intro src
    rw [vmMapProgram_one (by decide) (by decide), mapProgramPage,
      bind_run (mapPage_filled hu hp hmap)]
    exact ⟨true, _, rfl⟩
  refine ⟨hret, (programMapped_iff programTable_blank (by decide) (by decide) hret).mpr ?_⟩
  exact Or.inr ⟨by decide, by decide, Or.inr ⟨rfl, 2, m', hp, hmap⟩⟩

/-- A table with one page of the user, at `USER_CODE_VM_START`. -/
def loaded (page : ℕ → ℕ) : Mem :=
  match mapProgramPage above 1 userCodeVmStart pgsize page blank with
  | .ok (_, m) => m
  | .error _ => blank

theorem lands_loaded (page : ℕ → ℕ) :
    Lands 1 userCodeVmStart pgsize page blank (loaded page) := by
  obtain ⟨hp, m', hmap⟩ := mappages_blank
  have hm := isTree_blank.opened (by decide) (by decide) hp.2.2 hmap
  rw [loaded, mapProgramPage, mapPage_filled (not_userPage hm.fresh) hp hmap]
  exact programTable_blank.lands_new hm hp.2 (by decide) pgsize page

/-- The second page of a program is put over the first. -/
theorem not_programMapped_long : ProgramTable (loaded fun _ => 0) 1 ∧
    ¬ ProgramMapped above (loaded fun _ => 0) 1 userCodeVmStart 5000 (pteR ||| pteU ||| pteX) := by
  refine ⟨(lands_loaded _).table, fun hmapped => ?_⟩
  have hrun : (vmMapProgram above 1 userCodeVmStart 5000 twoParts
      (loaded fun _ => 0)).toOption.any
        (fun x => x.1.isSome && shown x.2 1 userCodeVmStart == some 1) = true := by
    decide +kernel
  obtain ⟨⟨_ | b, m'⟩, hok, hshown⟩ := ok_of_check hrun
  · cases hshown
  have hbyte := (hmapped twoParts b m' hok).bytes 0 (by decide)
  rw [Nat.add_zero, eq_of_beq (Bool.and_eq_true_iff.mp hshown).2] at hbyte
  exact absurd hbyte (by decide)

end RiscvBm.Vm

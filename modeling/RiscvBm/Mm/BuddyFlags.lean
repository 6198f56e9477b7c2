import RiscvBm.Mm.Buddy

/-!
# Which pages carry `PG_buddy` (`kernel/page_alloc.c`)

A free block is marked on its first page: `PG_buddy`, and its order in
`page->private`. Splitting and allocating keep the marks exact. Merging does not:
`__free_one_page` calls `clear_page_order(page)` for the page being freed where
the page that loses its place is the absorbed buddy. When the buddy is the lower
half its first page becomes the first page of the merged block, and the flag it
kept is the right one. When it is the upper half, the flag stays behind inside the
merged block (`Hand.absorb_upper`), and nothing clears it during the call
(`mergeLoop_scarred`).
-/

namespace RiscvBm.PageAlloc

open BitOps RiscvBm.Dyadic Transition Function

variable {B : ℕ → Prop} {s s' : St} {live : List (ℕ × ℕ)} {p k : ℕ}

/-! ## §1  Exact flags -/

/-- `PG_buddy` is set exactly on the first pages of the blocks on
`free_area[page->private].free_list`. -/
def FlagsExact (s : St) : Prop := ∀ x, (s.page x).buddy = true ↔ Free s x (s.page x).priv

instance (s : St) (p k : ℕ) : Decidable (Free s p k) :=
  inferInstanceAs (Decidable (k < maxOrder ∧ p ∈ (s.area k).list))

/-- Only `p` may be flagged without starting a free block. -/
def TidyBut (s : St) (p : ℕ) : Prop := ∀ x, (s.page x).buddy = true → x = p ∨ ∃ j, Free s x j

theorem Part.flagsExact_iff {out : List (ℕ × ℕ)} (h : Part B s out) :
    FlagsExact s ↔ ∀ x, (s.page x).buddy = true → ∃ j, Free s x j := by
  constructor
  · intro hex x hx
    exact ⟨_, (hex x).mp hx⟩
  · intro htidy x
    constructor
    · intro hx
      obtain ⟨j, hj⟩ := htidy x hx
      rw [(h.flag x j hj).2]
      exact hj
    · intro hf
      exact (h.flag x _ hf).1

theorem Part.tidyBut {out : List (ℕ × ℕ)} (h : Part B s out) (hex : FlagsExact s) (p : ℕ) :
    TidyBut s p := fun x hx => Or.inr (h.flagsExact_iff.mp hex x hx)

/-- A page inside block `(p, k)` that kept its flag. -/
def Scarred (s : St) (p k : ℕ) : Prop := ∃ x, InBlock p k x ∧ x ≠ p ∧ (s.page x).buddy = true

/-! ## §2  One merge -/

/-- The page that loses the race: the flag of the page being freed is cleared,
that of the absorbed buddy stays. -/
theorem page_absorb (s : St) (q p k x : ℕ) :
    ((clearPageOrder (PageAlloc.unlink s q k) p).page x).buddy = true ↔
      x ≠ p ∧ (s.page x).buddy = true := by
  by_cases hx : x = p
  · subst hx
    simp [clearPageOrder]
  · unfold clearPageOrder
    rw [setPage_of_ne _ hx]
    simp [hx, PageAlloc.unlink]

/-- The lower half takes over: its flag is the one of the merged block. -/
theorem Hand.absorb_lower (h : Hand B s live p k) (htidy : TidyBut s p)
    (hlow : buddy p k < p) :
    TidyBut (clearPageOrder (PageAlloc.unlink s (buddy p k) k) p) (buddy p k &&& p) := by
  have hal := h.aligned
  intro x hx
  obtain ⟨hne, hflag⟩ := (page_absorb s _ p k x).mp hx
  rcases htidy x hflag with hxp | ⟨j, hj⟩
  · exact absurd hxp hne
  · by_cases heq : x = buddy p k ∧ j = k
    · left
      rw [buddy_and hal, min_eq_left hlow.le]
      exact heq.1
    · exact Or.inr ⟨j, free_unlink hj heq⟩

/-- The upper half leaves its flag behind. -/
theorem Hand.absorb_upper (h : Hand B s live p k) (hf : Free s (buddy p k) k)
    (hup : p < buddy p k) :
    Scarred (clearPageOrder (PageAlloc.unlink s (buddy p k) k) p) (buddy p k &&& p) (k + 1) := by
  have hal := h.aligned
  refine ⟨buddy p k, ?_, ?_, ?_⟩
  · exact ((buddy_and_cases hal).2 _).mpr (Or.inr (inBlock_self _ k))
  · rw [buddy_and hal, min_eq_right hup.le]
    exact buddy_ne p k
  · exact (page_absorb s _ p k _).mpr ⟨buddy_ne p k, (h.flag _ _ hf).1⟩

theorem Hand.absorb_scarred (h : Hand B s live p k) (hs : Scarred s p k) :
    Scarred (clearPageOrder (PageAlloc.unlink s (buddy p k) k) p) (buddy p k &&& p) (k + 1) := by
  have hal := h.aligned
  obtain ⟨x, hin, hne, hflag⟩ := hs
  refine ⟨x, ((buddy_and_cases hal).2 x).mpr (Or.inl hin), ?_, ?_⟩
  · rw [buddy_and hal]
    intro hx
    rcases min_choice (buddy p k) p with hmin | hmin
    · -- the buddy's block does not meet block `(p, k)`
      rw [hx, hmin] at hin
      have heq := eq_of_inBlock hal hal.buddy hin (inBlock_self _ k)
      exact buddy_ne p k heq.symm
    · exact hne (hx.trans hmin)
  · exact (page_absorb s _ p k x).mpr ⟨hne, hflag⟩

/-! ## §3  The chain of merges -/

/-- Freeing block `(p, k)` absorbs, in one of at most `n` merges, a buddy that is
the upper half. -/
def absorbsUpper (s : St) : ℕ → ℕ → ℕ → Bool
  | 0, _, _ => false
  | n + 1, p, k =>
    let q := findBuddyPfn p k
    pageIsBuddy s q k && (decide (p < q) || absorbsUpper s n (q &&& p) (k + 1))

/-- Descriptors inside the block are not looked at. -/
theorem absorbsUpper_congr {n : ℕ} (hal : Aligned p k)
    (hpage : ∀ x, ¬ InBlock p k x →
      (s'.page x).buddy = (s.page x).buddy ∧ (s'.page x).priv = (s.page x).priv) :
    absorbsUpper s' n p k = absorbsUpper s n p k := by
  induction n generalizing p k with
  | zero => rfl
  | succ n ih =>
    obtain ⟨hal', hcases⟩ := buddy_and_cases hal
    have hout : ¬ InBlock p k (buddy p k) := by
      intro hin
      exact buddy_ne p k (eq_of_inBlock hal hal.buddy hin (inBlock_self _ k)).symm
    have hrec := ih hal' fun x hx => hpage x fun hin => hx ((hcases x).mpr (Or.inl hin))
    simp only [absorbsUpper, findBuddyPfn, pageIsBuddy, hpage _ hout, hrec]

theorem absorbsUpper_absorb {n : ℕ} (hal : Aligned p k) :
    absorbsUpper (clearPageOrder (PageAlloc.unlink s (buddy p k) k) p) n
        (buddy p k &&& p) (k + 1) =
      absorbsUpper s n (buddy p k &&& p) (k + 1) := by
  obtain ⟨hal', hcases⟩ := buddy_and_cases hal
  apply absorbsUpper_congr hal'
  intro x hx
  have hne : x ≠ p := by
    rintro rfl
    exact hx ((hcases x).mpr (Or.inl (inBlock_self x k)))
  unfold clearPageOrder
  rw [setPage_of_ne _ hne]
  exact ⟨rfl, rfl⟩

/-- A flag left inside the block in hand is still there when the loop ends. -/
theorem mergeLoop_scarred {n : ℕ} (hn : n = maxOrder - 1 - k) (h : Hand B s live p k)
    (hs : Scarred s p k) {p' k' : ℕ} (hrun : mergeLoop n s p k = some (s', p', k')) :
    Scarred s' p' k' := by
  induction n generalizing s p k with
  | zero =>
    cases hrun
    exact hs
  | succ n ih =>
    by_cases hf : Free s (buddy p k) k
    · rw [mergeLoop_absorb h hf] at hrun
      exact ih (by omega) (h.absorb (by omega) hf) (h.absorb_scarred hs) hrun
    · rw [mergeLoop_stop h hf] at hrun
      cases hrun
      exact hs

/-- The loop keeps the flags in order as long as every absorbed buddy is the lower
half, and leaves a flag behind otherwise. -/
theorem mergeLoop_flags {n : ℕ} (hn : n = maxOrder - 1 - k) (h : Hand B s live p k)
    (htidy : TidyBut s p) {p' k' : ℕ} (hrun : mergeLoop n s p k = some (s', p', k')) :
    (absorbsUpper s n p k = false → TidyBut s' p') ∧
      (absorbsUpper s n p k = true → Scarred s' p' k') := by
  induction n generalizing s p k with
  | zero =>
    cases hrun
    exact ⟨fun _ => htidy, fun hup => by cases hup⟩
  | succ n ih =>
    by_cases hf : Free s (buddy p k) k
    · have hb : pageIsBuddy s (buddy p k) k = true := (h.isBuddy_iff h.live_ok).mpr hf
      have hnext := h.absorb (by omega) hf
      rw [mergeLoop_absorb h hf] at hrun
      rw [absorbsUpper, findBuddyPfn, hb, Bool.true_and]
      by_cases hup : p < buddy p k
      · rw [decide_eq_true hup, Bool.true_or]
        refine ⟨fun hno => Bool.noConfusion hno, fun _ => ?_⟩
        exact mergeLoop_scarred (by omega) hnext (h.absorb_upper hf hup) hrun
      · have hlow : buddy p k < p := lt_of_le_of_ne (not_lt.mp hup) (buddy_ne p k)
        rw [decide_eq_false hup, Bool.false_or, ← absorbsUpper_absorb h.aligned]
        exact ih (by omega) hnext (h.absorb_lower htidy hlow) hrun
    · have hb : pageIsBuddy s (buddy p k) k = false :=
        Bool.eq_false_iff.mpr fun hb => hf ((h.isBuddy_iff h.live_ok).mp hb)
      rw [mergeLoop_stop h hf] at hrun
      cases hrun
      rw [absorbsUpper, findBuddyPfn, hb, Bool.false_and]
      exact ⟨fun _ => htidy, fun hup => by cases hup⟩

/-! ## §4  Freeing -/

/-- A page that is flagged after a block was put on its list. -/
theorem flag_link {x : ℕ} (hk : k < maxOrder) (htidy : TidyBut s p) {q : ℕ}
    (hx : ((PageAlloc.link s q k).page x).buddy = true) :
    x = p ∧ x ≠ q ∨ ∃ j, Free (PageAlloc.link s q k) x j := by
  by_cases hxq : x = q
  · exact Or.inr ⟨k, (free_link hk x k).mpr (Or.inl ⟨hxq, rfl⟩)⟩
  · rw [link_page_of_ne hxq] at hx
    rcases htidy x hx with hxp | ⟨j, hj⟩
    · exact Or.inl ⟨hxp, hxq⟩
    · exact Or.inr ⟨j, (free_link hk x j).mpr (Or.inr hj)⟩

/-- A page inside a block on the list starts no free block of its own. -/
theorem not_flagsExact_link (h : Hand B s live p k) (hs : Scarred s p k) :
    ¬ FlagsExact (PageAlloc.link s p k) := by
  obtain ⟨x, hin, hne, hflag⟩ := hs
  intro hex
  rw [← link_page_of_ne (s := s) (k := k) hne] at hflag
  rcases (free_link h.order_lt x _).mp ((hex x).mp hflag) with ⟨hxp, -⟩ | hf
  · exact hne hxp
  · exact h.not_free hin (inBlock_self x _) hf

/-- What `__free_one_page` makes of exact flags. -/
theorem freeOnePage_flags (h : Hand B s live p k) (htidy : TidyBut s p)
    (hrun : freeOnePage s p k = some s') :
    FlagsExact s' ↔ absorbsUpper s (maxOrder - 1 - k) p k = false := by
  obtain ⟨t, q, j, hmerge, hhand, hlast⟩ := mergeLoop_spec rfl h
  have hs' : s' = PageAlloc.link t q j := by
    simp only [freeOnePage, hmerge] at hrun
    exact (Option.some.inj hrun).symm.trans (link_of_done t q j)
  obtain ⟨hlower, hupper⟩ := mergeLoop_flags rfl h htidy hmerge
  subst hs'
  constructor
  · intro hex
    by_contra hup
    exact not_flagsExact_link hhand (hupper (by simpa using hup)) hex
  · intro hno
    apply (hhand.link hlast).flagsExact_iff.mpr
    exact fun x hx => (flag_link hhand.order_lt (hlower hno) hx).resolve_left fun he => he.2 he.1

theorem freePages_flags (h : Inv B s live) (hmem : (p, k) ∈ live) (hex : FlagsExact s)
    (hrun : freePages s p k = some s') :
    FlagsExact s' ↔ absorbsUpper s (maxOrder - 1 - k) p k = false := by
  obtain ⟨heq, hhand⟩ := freePages_eq h hmem
  rw [heq] at hrun
  have hflags : ∀ x, ((setPage s p { s.page p with refcount := 0 }).page x).buddy =
      (s.page x).buddy := by
    intro x
    by_cases hx : x = p
    · subst hx
      rw [setPage_self]
    · rw [setPage_of_ne _ hx]
  have htidy : TidyBut (setPage s p { s.page p with refcount := 0 }) p := by
    intro x hx
    rw [hflags] at hx
    exact h.toPart.tidyBut hex p x hx
  rw [freeOnePage_flags hhand htidy hrun,
    absorbsUpper_congr hhand.aligned]
  intro x hx
  rw [setPage_outside s k _ x hx]
  exact ⟨rfl, rfl⟩

/-! ## §5  Allocating -/

theorem expend_flags {n low : ℕ} (h : Hand B s live p (low + n)) (htidy : TidyBut s p) :
    TidyBut (expend n s p (low + n)) p := by
  induction n generalizing s with
  | zero => exact htidy
  | succ n ih =>
    have hmax := h.order_lt
    rw [expend, show low + (n + 1) - 1 = low + n from rfl, link_of_split]
    apply ih (Hand.split (k := low + n) h)
    exact fun x hx => (flag_link (by omega) htidy hx).imp_left And.left

theorem Inv.cut_flags {order d : ℕ} (h : Inv B s live) (hex : FlagsExact s)
    (hf : Free s p (order + d)) : TidyBut (PageAlloc.cut s p order d) p := by
  apply expend_flags (h.take hf)
  intro x hx
  obtain ⟨hne, hflag⟩ := (page_absorb s p p _ x).mp hx
  obtain ⟨j, hj⟩ := h.toPart.flagsExact_iff.mp hex x hflag
  exact Or.inr ⟨j, free_unlink hj fun he => hne he.1⟩

/-- `alloc_pages` keeps the flags exact. -/
theorem allocPages_flags (order : ℕ) (h : Inv B s live) (hex : FlagsExact s) :
    FlagsExact (allocPages s order).1 := by
  rcases allocPages_cases s order with ⟨hrun, -⟩ | ⟨p, d, hf, hrun⟩ <;> rw [hrun]
  · exact hex
  · obtain ⟨hhand, hflag⟩ := h.cut hf
    apply (hhand.prevNewPage hflag).toPart.flagsExact_iff.mpr
    intro x hx
    by_cases hxp : x = p
    · subst hxp
      rw [setPage_self, hflag] at hx
      cases hx
    · rw [setPage_of_ne _ hxp] at hx
      exact (h.cut_flags hex hf x hx).resolve_left hxp

/-! ## §6  Boot -/

/-- The free regions come in ascending order, as `memblock` keeps them. -/
def RegionsAscending (rs : List Region) : Prop :=
  rs.Pairwise fun a b => ∀ x y, a.Has x → b.Has y → x < y

theorem RegionsAscending.disjoint {rs : List Region} (h : RegionsAscending rs) :
    RegionsDisjoint rs :=
  h.imp fun hab x hx hx' => lt_irrefl x (hab x x hx hx')

/-- A buddy that is the upper half lies above the block. -/
theorem absorbsUpper_of_above {n m : ℕ} (hal : Aligned p k) (hm : m < p + 2 ^ k)
    (hnone : ∀ x, m < x → ¬ InBlock p k x → (s.page x).buddy = false) :
    absorbsUpper s n p k = false := by
  induction n generalizing p k with
  | zero => rfl
  | succ n ih =>
    obtain ⟨hal', hcases⟩ := buddy_and_cases hal
    have hpos := Nat.two_pow_pos k
    rw [absorbsUpper, findBuddyPfn]
    rcases buddy_cases hal with ⟨-, hup⟩ | ⟨-, hlow⟩
    · have hflag : (s.page (buddy p k)).buddy = false := by
        apply hnone _ (by omega)
        rintro ⟨-, hlt⟩
        omega
      rw [pageIsBuddy, hflag]
      rfl
    · have hrec := ih hal' (by
        rw [buddy_and hal, min_eq_left (by omega), pow_succ]
        omega) fun x hx hout => hnone x hx fun hin => hout ((hcases x).mpr (Or.inl hin))
      rw [hrec, decide_eq_false (by omega), Bool.or_false, Bool.and_false]

/-- A block above everything handed over so far leaves the flags exact. -/
theorem memblockFreePages_flags (h : Inv B s live) (hk : k ≤ maxOrder - 1) (hp : Aligned p k)
    (hnew : ∀ x, p ≤ x → ¬ B x) (hex : FlagsExact s)
    (hrun : memblockFreePages s p k = some s') : FlagsExact s' := by
  have hpos := Nat.two_pow_pos k
  obtain ⟨page, heq, hout, hflag⟩ := memblockFreePages_eq s p k
  have hhand : Hand _ { s with page := page } live p k :=
    Hand.resetPages (h.add hk hp fun x hx => hnew x hx.1) hout
  have htidy : TidyBut { s with page := page } p := fun x hx =>
    Or.inr (h.toPart.flagsExact_iff.mp hex x (hflag x hx))
  rw [heq] at hrun
  rw [freeOnePage_flags hhand htidy hrun]
  apply absorbsUpper_of_above (m := p) hp (by omega)
  intro x hx _
  apply Bool.eq_false_iff.mpr
  intro hx'
  have hnone := h.outside x (hnew x hx.le)
  rw [hflag x hx'] at hnone
  cases hnone

theorem flagsExact_init : FlagsExact init := by
  intro x
  simp [init, Free]

theorem freeBlocks_flags {l : List (ℕ × ℕ)}
    (hl : ∀ b ∈ l, b.2 ≤ maxOrder - 1 ∧ Aligned b.1 b.2)
    (hasc : l.Pairwise fun a b => ∀ x y, InBlock a.1 a.2 x → InBlock b.1 b.2 y → x < y)
    (h : Inv B s live) (hnew : ∀ b ∈ l, ∀ x, b.1 ≤ x → ¬ B x) (hex : FlagsExact s)
    (hrun : freeBlocks s l = some s') : FlagsExact s' := by
  induction l generalizing s B with
  | nil =>
    cases hrun
    exact hex
  | cons b l ih =>
    obtain ⟨hb, hl⟩ := List.forall_mem_cons.mp hl
    obtain ⟨habove, hasc⟩ := List.pairwise_cons.mp hasc
    obtain ⟨hnewb, hnew⟩ := List.forall_mem_cons.mp hnew
    obtain ⟨s₁, hrun₁, h₁⟩ := memblockFreePages_spec h hb.1 hb.2 fun x hx => hnewb x hx.1
    rw [freeBlocks, List.foldlM_cons, hrun₁] at hrun
    refine ih hl hasc h₁ ?_ (memblockFreePages_flags h hb.1 hb.2 hnewb hex hrun₁) hrun
    rintro c hc x hx (hB | hin)
    · exact hnew c hc x hx hB
    · exact absurd (habove c hc x _ hin (inBlock_self c.1 c.2)) (by omega)

theorem memblockFreeAll_flags {rs : List Region} (hrs : RegionsAscending rs)
    (hrun : memblockFreeAll init rs = some s') : FlagsExact s' := by
  rw [memblockFreeAll_eq] at hrun
  refine freeBlocks_flags ?_ (freeAllCalls_pairwise (fun _ _ hlt => hlt) hrs) inv_init
    (fun _ _ _ _ h => h) flagsExact_init hrun
  exact fun b hb => freeAllCalls_block hb

theorem boot_flags {rs : List Region} (hrs : RegionsAscending rs) {s₀ : Sys}
    (hboot : boot rs = some s₀) : FlagsExact s₀.mem := by
  obtain ⟨m, hm, rfl⟩ := Option.map_eq_some_iff.mp hboot
  exact memblockFreeAll_flags hrs hm

/-! ## §7  Runs -/

/-- A step of the allocator in which every buddy that a free absorbs is the lower
half. -/
def MergesDown (s : Sys) : Act → Prop
  | .alloc _ => True
  | .free p k => absorbsUpper s.mem (maxOrder - 1 - k) p k = false

instance (s : Sys) (a : Act) : Decidable (MergesDown s a) := by
  cases a <;> unfold MergesDown <;> infer_instance

theorem step_free {s s' : Sys} (h : step s (.free p k) = some s') :
    (p, k) ∈ s.live ∧ freePages s.mem p k = some s'.mem := by
  rw [step] at h
  split_ifs at h with hmem
  obtain ⟨m, hm, rfl⟩ := Option.map_eq_some_iff.mp h
  exact ⟨hmem, hm⟩

theorem flags_step {s s' : Sys} {a : Act} (h : Inv B s.mem s.live) (hex : FlagsExact s.mem)
    (hstep : step s a = some s') : FlagsExact s'.mem ↔ MergesDown s a := by
  cases a with
  | alloc order =>
    refine ⟨fun _ => trivial, fun _ => ?_⟩
    have hkeep := allocPages_flags order h hex
    rw [step] at hstep
    split at hstep <;> rename_i heq <;> cases hstep <;> rw [heq] at hkeep <;> exact hkeep
  | free p k =>
    obtain ⟨hmem, hrun⟩ := step_free hstep
    exact freePages_flags h hmem hex hrun

/-- **Buddy flags.** From a boot whose free regions come in ascending order, a run
of `alloc_pages` and `__free_pages` keeps `PG_buddy` exact if and only if no free
absorbs a buddy that is the upper half. -/
theorem buddy_flags_exact_iff (rs : List Region) (hrs : RegionsAscending rs) :
    ∃ s₀, boot rs = some s₀ ∧ ∀ as,
      Along step (fun s => FlagsExact s.mem) s₀ as ↔ Steps step MergesDown s₀ as := by
  obtain ⟨s₀, hboot, -, h₀⟩ := boot_spec hrs.disjoint
  refine ⟨s₀, hboot, fun as => ?_⟩
  apply @along_iff_steps _ _ step fun s : Sys => Inv (bootPages rs) s.mem s.live ∧
    FlagsExact s.mem
  · rintro s ⟨-, hex⟩
    exact hex
  · rintro s a s' ⟨hinv, hex⟩ hdown hstep
    exact ⟨inv_step s a s' hinv hstep, (flags_step hinv hex hstep).mpr hdown⟩
  · rintro s a s' ⟨hinv, hex⟩ hdown hstep hex'
    exact hdown ((flags_step hinv hex hstep).mp hex')
  · exact ⟨h₀, boot_flags hrs hboot⟩

theorem regionsAscending_smallBoot : RegionsAscending smallBoot := by
  simp [RegionsAscending, smallBoot, Region.Has]

/-- Two single pages are taken; the lower one is given back first. -/
theorem buddy_flags_exact_iff_smallBoot :
    ∃ s₀, boot smallBoot = some s₀ ∧ Along step (fun s => FlagsExact s.mem) s₀
      [.alloc 0, .alloc 1, .alloc 0, .alloc 0, .free 0x80006 0, .free 0x80007 0] := by
  obtain ⟨s₀, hboot, hall⟩ := buddy_flags_exact_iff smallBoot regionsAscending_smallBoot
  refine ⟨s₀, hboot, (hall _).mpr ?_⟩
  have hcheck : ((boot smallBoot).map fun s =>
      checkSteps step (fun s a => decide (MergesDown s a)) s
        [.alloc 0, .alloc 1, .alloc 0, .alloc 0, .free 0x80006 0, .free 0x80007 0]) =
      some true := by decide +kernel
  rw [hboot] at hcheck
  exact steps_of_check (fun s a h => of_decide_eq_true h) (Option.some.inj hcheck)

/-- Page `0x80004` is given back while its buddy `0x80005` is free: afterwards
`0x80005` carries `PG_buddy` inside the free block of `0x80004`. -/
theorem buddy_flags_stale :
    ∃ s₀ s, boot smallBoot = some s₀ ∧
      runFrom step s₀ [.alloc 0, .alloc 0, .free 0x80004 0] = some s ∧
      (s.mem.page 0x80005).buddy = true ∧ ¬ Free s.mem 0x80005 (s.mem.page 0x80005).priv := by
  have hrun : ((boot smallBoot).bind fun s₀ =>
      (runFrom step s₀ [.alloc 0, .alloc 0, .free 0x80004 0]).map fun s =>
        (s.mem.page 0x80005).buddy &&
          !decide (Free s.mem 0x80005 (s.mem.page 0x80005).priv)) = some true := by
    decide +kernel
  obtain ⟨s₀, hboot, hrun⟩ := Option.bind_eq_some_iff.mp hrun
  obtain ⟨s, hs, hflag⟩ := Option.map_eq_some_iff.mp hrun
  rw [Bool.and_eq_true, Bool.not_eq_true', decide_eq_false_iff_not] at hflag
  exact ⟨s₀, s, hboot, hs, hflag⟩

end RiscvBm.PageAlloc

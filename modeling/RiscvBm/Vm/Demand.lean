import RiscvBm.Vm.Fork
import RiscvBm.Vm.MapPages
import RiscvBm.Vm.VmaList

/-!
# What a page fault does (`kernel/trap.c`)

`do_page_fault` looks for the area of the address, lets the stack grow to it if it has to, and
`handle_mm_fault` puts a zeroed page in. `Handled` is what a process expects of that: its areas
stay in order, the page has the permissions of its area and is the user's, and no page is lost
on the way.

Two things break it. A fault of the kernel itself maps the page without `PTE_U`; and where an
entry is there already, `mappages` refuses, and the page that was taken for it is lost.
-/

namespace RiscvBm.Vm

open Radix Wp Function

/-! ## §1  Frames that a table leads to -/

/-- The frame is a table or a page that the hardware comes to from the table at `r`. -/
def LeadsTo (m : Mem) (r p : ℕ) : Prop :=
  ∃ va, InUser va ∧ va < maxva ∧ ∃ w ∈ entries m r va, next w = some p

section LeadsTo

variable {K : Kernel} {m : Mem} {r va p i : ℕ} {σ τ : List ℕ}

theorem Tables.leadsTo_of_place (h : Tables K m) (hp : m.place p = some (r, σ ++ [i]))
    (hpath : vpath va = σ ++ i :: τ) (hva : InUser va) (hlt : va < maxva) : LeadsTo m r p := by
  have hd := (h.linked.descend_of_place hp).2
  rw [descend_snoc] at hd
  obtain ⟨d, hd, hnext⟩ := Option.bind_eq_some_iff.mp hd
  refine ⟨va, hva, hlt, m.word d i, mem_trail.mpr ⟨σ, i, τ ++ [px 0 va], d, ?_, hd, rfl⟩, hnext⟩
  rw [vtrail_eq, hpath, List.append_assoc, List.cons_append]

theorem leadsTo_of_translate (hva : InUser va) (hlt : va < maxva)
    (hv : isValid (translate m r va) = true) : LeadsTo m r (pte2pa (translate m r va)) := by
  cases hd : descend next m.word r (vpath va) with
  | none =>
    rw [translate, view_of_none hd] at hv
    cases hv
  | some t =>
    rw [translate, view_of_some hd] at hv ⊢
    exact ⟨va, hva, hlt, m.word t (px 0 va),
      mem_trail.mpr ⟨vpath va, px 0 va, [], t, vtrail_eq va, hd, rfl⟩, next_eq_some.mpr ⟨hv, rfl⟩⟩

/-- What a table leads to is a table or the page of an address. -/
theorem Sound.of_leadsTo (h : Sound K m) (hr : m.IsRoot r) (hp : LeadsTo m r p) :
    m.useOf p = some .table ∨
      ∃ va, InUser va ∧ va < maxva ∧ isValid (translate m r va) = true ∧
        pte2pa (translate m r va) = p := by
  obtain ⟨va, hva, hlt, w, hw, hnext⟩ := hp
  obtain ⟨σ₁, i, σ₂, d, hσ, hd, rfl⟩ := mem_trail.mp hw
  rcases List.eq_nil_or_concat σ₂ with rfl | ⟨σ₃, j, rfl⟩
  · -- the entry in the bottom table
    rw [vtrail_eq] at hσ
    obtain ⟨rfl, hi⟩ := List.append_inj' hσ rfl
    cases hi
    rw [next_eq_some] at hnext
    refine Or.inr ⟨va, hva, hlt, ?_⟩
    rw [translate, view_of_some hd]
    exact hnext
  · left
    have hsplit : vpath va = σ₁ ++ i :: σ₃ := by
      rw [vtrail_eq, List.concat_eq_append, ← List.cons_append, ← List.append_assoc] at hσ
      exact (List.append_inj' hσ rfl).1
    have hown : OwnPath own (σ₁ ++ [i]) := by
      have hall := ownPath_vpath hva
      rw [hsplit, List.append_cons] at hall
      exact hall.left
    have hlen : (σ₁ ++ [i]).length ≤ 2 := by
      have hcount := congrArg List.length hsplit
      rw [length_vpath] at hcount
      simp only [List.length_append, List.length_cons, List.length_nil] at hcount ⊢
      omega
    have hdesc : descend next m.word r (σ₁ ++ [i]) = some p := by
      rw [descend_snoc, hd]
      exact hnext
    exact h.placed (h.tables.linked.place_of_descend hr hown hlen hdesc)

end LeadsTo

/-! ## §2  `handle_mm_fault` -/

/-- The page `p` was taken for `va`; it is mapped if nothing was before. -/
structure Served (r va perm p : ℕ) (m m' : Mem) : Prop where
  free : m.useOf p = none
  used : m'.useOf p = some (.leaf r (va / pgsize))
  news : ∀ q ≠ p, m.useOf q = none → m'.useOf q ≠ none →
    ∃ σ i τ, m'.place q = some (r, σ ++ [i]) ∧ vpath va = σ ++ i :: τ
  mapped : isValid (translate m r va) = false → translate m' r va = pa2pte p ||| perm ||| pteV
  refused : isValid (translate m r va) = true → translate m' r va = translate m r va

section Handle

variable {alloc : Mem → ℕ} {K : Kernel} {m : Mem} {mm : Mm} {v : Vma} {va : ℕ} {user : Bool}

theorem pgRoundDown_lt {a b : ℕ} (h : a < b) : pgRoundDown a < b :=
  Nat.lt_of_le_of_lt (Nat.div_mul_le_self a pgsize) h

/-- With three free pages the handler returns, and has taken a page for the address. -/
theorem wp_handleMmFault_ok (h : Sound K m) (hr : m.IsRoot mm.pagetable)
    (hva : userCodeVmStart ≤ va) (hlt : va < maxva)
    (hmem : Suffices alloc (m.used.length + 3)) :
    wp (handleMmFault alloc mm v va user)
      (fun _ m' => Sound K m' ∧ m'.IsRoot mm.pagetable ∧
        ∃ p, Served mm.pagetable va (faultPerm v user) p m m') noError m := by
  unfold handleMmFault
  obtain ⟨p, hp⟩ : ∃ p, Answer alloc m p := ⟨_, hmem m (by omega)⟩
  apply wp_bind_run (getFreePage_some _ hp)
  obtain ⟨h₁, hch, -⟩ := h.newLeaf hp.2.2 mm.pagetable va ∅
  apply wp_modify_bind
  have hcount : (m.newLeaf mm.pagetable va p).used.length =
      m.used.length + 1 := rfl
  have hleaf : (m.newLeaf mm.pagetable va p).useOf p =
      some (.leaf mm.pagetable (pgRoundDown va / pgsize)) := by
    rw [useOf_zeroPage, useOf_take_self, pgRoundDown_div]
  have hother : ∀ q ≠ p, m.useOf q = none →
      (m.newLeaf mm.pagetable va p).useOf q = none := by
    intro q hqp hfree
    exact (useOf_take_of_ne hqp).trans hfree
  have hin := inUser_of_range hva hlt
  have hlt39 := Nat.lt_trans hlt maxva_lt
  have hva' := userCode_le_pgRoundDown hva
  have hlt' := pgRoundDown_lt hlt
  have hdown := pgRoundDown_div va
  have hpath : vpath (pgRoundDown va) = vpath va :=
    ((page_eq_iff (Nat.lt_trans hlt' maxva_lt) hlt39).mpr hdown).1
  have hroot := hch.root hr
  have hsame := hch.same hr hin hlt39 fun _ hmem => hmem
  have hsame' := (translate_congr (Nat.lt_trans hlt' maxva_lt) hlt39 hdown).trans hsame
  change wp _ _ _ (m.newLeaf mm.pagetable va p)
  generalize m.newLeaf mm.pagetable va p = m₁ at *
  apply wp_bind (wp_error (wp_mappages h₁ hroot hva' (pgRoundDown_mod va) hleaf
    (faultPerm_lt v user)) fun _ he => absurd hlt' (Nat.not_lt.mpr he.2))
  rintro b m₂ ⟨h₂, hext, hnew, heffect⟩
  refine wp_pure ⟨h₂, hext.place hroot, p, hp.2.2, ?_, ?_, ?_, ?_⟩
  · rw [hext.used hleaf, hdown]
  · intro q hqp hfree hused
    rw [← hpath]
    exact hnew q (hother q hqp hfree) hused
  · intro hv
    cases b with
    | true => rw [heffect.2 hroot hin hlt39, if_pos ⟨rfl, hdown.symm⟩]
    | false =>
      -- with two pages for tables only a valid entry is a reason to fail
      have hv' := heffect.2 _ hmem (by omega)
      rw [hsame', hv] at hv'
      cases hv'
  · intro hv
    cases b with
    | true =>
      rw [if_pos rfl, hsame', hv] at heffect
      cases heffect.1
    | false => rw [heffect.1 hroot hin, hsame]

/-- A page that was taken although an entry was there is lost. -/
theorem Served.not_leadsTo {m' : Mem} {r perm p : ℕ} (hs : Served r va perm p m m') (h : Sound K m)
    (h' : Sound K m') (hr : m.IsRoot r) (hr' : m'.IsRoot r)
    (hva : userCodeVmStart ≤ va) (hlt : va < maxva) (hv : isValid (translate m r va) = true) :
    ¬ LeadsTo m' r p := by
  intro hp
  rcases h'.of_leadsTo hr' hp with htable | ⟨vb, hvb, hlt', hv', rfl⟩
  · rw [hs.used] at htable
    cases htable
  · -- the entry is the old one, and its page was in use before
    have hleaf := h'.leaf hr' hvb (Nat.lt_trans hlt' maxva_lt) hv'
    rw [hs.used] at hleaf
    have hpage : va / pgsize = vb / pgsize := (Use.leaf.inj (Option.some.inj hleaf)).2
    have hin := inUser_of_range hva hlt
    have hlt39 := Nat.lt_trans hlt maxva_lt
    have hold := h.leaf hr hin hlt39 hv
    have hfree := hs.free
    rw [← translate_congr hlt39 (Nat.lt_trans hlt' maxva_lt) hpage, hs.refused hv, hold] at hfree
    cases hfree

end Handle

/-! ## §3  `do_page_fault` -/

/-- The address lies in an area, or the first area above it is the stack, and it is above
`STACK_BOTTOM`. -/
def InZone (mmap : List Vma) (a : ℕ) : Prop :=
  (∃ v ∈ mmap, v.vmStart ≤ a ∧ a < v.vmEnd) ∨
    ∃ v ∈ mmap.find? fun v => a < v.vmEnd, v.vmFlags.testBit 8 = true ∧ stackBottom ≤ a

/-- A process: its areas are in order, made of pages, and in the user's part of the table. -/
structure Process (K : Kernel) (m : Mem) (mm : Mm) : Prop where
  sound : Sound K m
  root : m.IsRoot mm.pagetable
  sorted : Sorted mm.mmap
  aligned : ∀ v ∈ mm.mmap, v.vmStart % pgsize = 0 ∧ v.vmEnd % pgsize = 0
  range : ∀ v ∈ mm.mmap, userCodeVmStart ≤ v.vmStart ∧ v.vmEnd ≤ maxva

/-- What a page fault at `a` should leave behind. -/
structure Handled (mm : Mm) (m : Mem) (a : ℕ) (mm' : Mm) (m' : Mem) : Prop where
  sorted : Sorted mm'.mmap
  leaf : ∃ v ∈ mm'.mmap, v.vmStart ≤ a ∧ a < v.vmEnd ∧
    pteFlags (translate m' mm.pagetable a) = faultPerm v true ||| pteV
  pages : ∀ p, m.useOf p = none → m'.useOf p ≠ none → LeadsTo m' mm.pagetable p

/-- The handler deals with the addresses of the areas and the stack, and with no others. -/
structure FaultServed (alloc : Mem → ℕ) (mm : Mm) (m : Mem) (a : ℕ) (user sum : Bool) : Prop where
  zone : InZone mm.mmap a → ∃ mm' m', doPageFault alloc mm a user sum m = .ok (mm', m') ∧
    Handled mm m a mm' m'
  other : ¬ InZone mm.mmap a → doPageFault alloc mm a user sum m = .error .badArea

section Fault

variable {alloc : Mem → ℕ} {K : Kernel} {m : Mem} {mm : Mm} {a : ℕ} {user sum : Bool}
  {mmap l₁ l₂ : List Vma} {v : Vma}

/-- What `find_vma` answers, with the areas before it. -/
theorem findVma_split (hle : ∀ v ∈ mmap, v.vmStart ≤ v.vmEnd)
    (hfind : mmap.find? (fun v => a < v.vmEnd) = some v) :
    ∃ l₁ l₂, mmap = l₁ ++ v :: l₂ ∧ (∀ u ∈ l₁, u.vmEnd ≤ a) ∧ a < v.vmEnd ∧
      findVma mmap a = some (l₁.length, v) := by
  obtain ⟨hv, l₁, l₂, rfl, hbefore⟩ := List.find?_eq_some_iff_append.mp hfind
  have hend : a < v.vmEnd := by simpa using hv
  have hbefore : ∀ u ∈ l₁, u.vmEnd ≤ a := by simpa using hbefore
  refine ⟨l₁, l₂, rfl, hbefore, hend, ?_⟩
  have hidx : (l₁ ++ v :: l₂).findIdx? (fun v => a < v.vmEnd) = some l₁.length := by
    rw [List.findIdx?_append, List.findIdx?_eq_none_iff.mpr (by simpa using hbefore)]
    simp [List.findIdx?_cons, hend]
  rw [findVma_eq hle, hidx]
  simp

theorem findVma_none (hle : ∀ v ∈ mmap, v.vmStart ≤ v.vmEnd)
    (hfind : mmap.find? (fun v => a < v.vmEnd) = none) : findVma mmap a = none := by
  have hall : ∀ v ∈ mmap, v.vmEnd ≤ a := by simpa using hfind
  rw [findVma_eq hle, List.findIdx?_eq_none_iff.mpr (by simpa using hall)]
  rfl

/-- The stack has grown down to the page of `a`. -/
theorem Sorted.grow (h : Sorted (l₁ ++ v :: l₂)) (hal : ∀ u ∈ l₁, u.vmEnd % pgsize = 0)
    (hbefore : ∀ u ∈ l₁, u.vmEnd ≤ a) (hlt : a < v.vmStart) :
    Sorted (l₁ ++ { v with vmStart := pgRoundDown a } :: l₂) := by
  obtain ⟨h₁, h₂, hcross⟩ := List.pairwise_append.mp h.apart
  have hdown : pgRoundDown a ≤ a := Nat.div_mul_le_self a pgsize
  have hvle := h.le v (by simp)
  constructor
  · cases h
    grind [update_apply]
  · refine List.pairwise_append.mpr ⟨h₁, ?_, ?_⟩
    · exact List.pairwise_cons.mpr (List.pairwise_cons.mp h₂)
    · intro u hu w hw
      rcases List.mem_cons.mp hw with rfl | hw
      · -- the end of an area below is a page boundary
        show u.vmEnd ≤ pgRoundDown a
        have hal := hal u hu
        have hle := hbefore u hu
        unfold pgRoundDown pgsize at *
        omega
      · exact hcross u hu w (List.mem_cons_of_mem v hw)

/-- The zone by the area that `find_vma` answers. -/
theorem inZone_iff (h : Sorted mmap) :
    InZone mmap a ↔ ∃ v, mmap.find? (fun v => a < v.vmEnd) = some v ∧
      (v.vmStart ≤ a ∨ v.vmFlags.testBit 8 = true ∧ stackBottom ≤ a) := by
  constructor
  · rintro (⟨v, hv, hstart, hend⟩ | ⟨v, hv, hzone⟩)
    · cases hfind : mmap.find? fun v => a < v.vmEnd with
      | none =>
        have hall : ∀ v ∈ mmap, v.vmEnd ≤ a := by simpa using hfind
        exact absurd hend (Nat.not_lt.mpr (hall v hv))
      | some w =>
        obtain ⟨l₁, l₂, rfl, hbefore, hend', -⟩ := findVma_split h.le hfind
        refine ⟨w, rfl, Or.inl ?_⟩
        -- the area of the address is the first one above it
        rcases List.mem_append.mp hv with hv | hv
        · exact absurd hend (Nat.not_lt.mpr (hbefore v hv))
        · rcases List.mem_cons.mp hv with rfl | hv
          · exact hstart
          · have hwv := (List.pairwise_cons.mp (List.pairwise_append.mp h.apart).2.1).1 v hv
            omega
    · exact ⟨v, hv, Or.inr hzone⟩
  · rintro ⟨v, hfind, hstart | hzone⟩
    · exact Or.inl ⟨v, List.mem_of_find?_eq_some hfind, hstart, by
        simpa using List.find?_some hfind⟩
    · exact Or.inr ⟨v, hfind, hzone⟩

/-- In the zone, `do_page_fault` comes to `handle_mm_fault`. -/
theorem doPageFault_zone (h : Process K m mm) (hzone : InZone mm.mmap a) :
    ∃ v mm', Sorted mm'.mmap ∧ userCodeVmStart ≤ a ∧ a < maxva ∧
      (∃ w ∈ mm'.mmap, w.vmStart ≤ a ∧ a < w.vmEnd ∧ w.vmFlags = v.vmFlags) ∧
      doPageFault alloc mm a user sum =
        if user = false ∧ a < userMemStart ∧ sum = false then throw .badArea
        else handleMmFault alloc mm v a user >>= fun _ => pure mm' := by
  obtain ⟨v, hfind, hzone⟩ := (inZone_iff h.sorted).mp hzone
  obtain ⟨l₁, l₂, hsplit, hbefore, hend, hfound⟩ := findVma_split h.sorted.le hfind
  have hmem : v ∈ mm.mmap := by simp [hsplit]
  obtain ⟨hlo, hhi⟩ := h.range v hmem
  unfold doPageFault
  rw [hfound]
  dsimp only
  by_cases hstart : v.vmStart ≤ a
  · refine ⟨v, mm, h.sorted, Nat.le_trans hlo hstart, Nat.lt_of_lt_of_le hend hhi,
      ⟨v, hmem, hstart, hend, rfl⟩, ?_⟩
    rw [if_pos hstart]
  · obtain ⟨hflag, hbottom⟩ := hzone.resolve_left hstart
    have hlt := Nat.lt_of_not_le hstart
    have hvle := h.sorted.le v hmem
    have hdown : pgRoundDown a ≤ a := Nat.div_mul_le_self a pgsize
    have hlow : ¬ pgRoundDown a < stackBottom := by
      unfold pgRoundDown stackBottom stackTop pgsize at *
      omega
    have hcode : userCodeVmStart ≤ stackBottom := by decide
    refine ⟨v, { mm with mmap := l₁ ++ { v with vmStart := pgRoundDown a } :: l₂ }, ?_,
      Nat.le_trans hcode hbottom, by omega,
      ⟨{ v with vmStart := pgRoundDown a }, by simp, hdown, hend, rfl⟩, ?_⟩
    · apply Sorted.grow (hsplit ▸ h.sorted) _ hbefore hlt
      intro u hu
      exact (h.aligned u (by simp [hsplit, hu])).2
    · have hset : expandStack mm.mmap l₁.length v a =
          some (l₁ ++ { v with vmStart := pgRoundDown a } :: l₂) := by
        rw [expandStack, if_neg hlow, if_pos (Nat.lt_of_le_of_lt hdown hlt), hsplit]
        simp
      have hflag' : ¬ v.vmFlags.testBit 8 = false := by simp [hflag]
      rw [if_neg hstart, if_neg hflag', hset]

theorem doPageFault_other (h : Process K m mm) (hzone : ¬ InZone mm.mmap a) :
    doPageFault alloc mm a user sum m = .error .badArea := by
  rw [inZone_iff h.sorted] at hzone
  unfold doPageFault
  split
  · rfl
  cases hfind : mm.mmap.find? fun v => a < v.vmEnd with
  | none =>
    rw [findVma_none h.sorted.le hfind]
    rfl
  | some v =>
    obtain ⟨l₁, l₂, hsplit, -, -, hfound⟩ := findVma_split h.sorted.le hfind
    have hnot : ¬ (v.vmStart ≤ a ∨ v.vmFlags.testBit 8 = true ∧ stackBottom ≤ a) :=
      fun hin => hzone ⟨v, hfind, hin⟩
    obtain ⟨hstart, hgrow⟩ := not_or.mp hnot
    rw [hfound]
    dsimp only
    rw [if_neg hstart]
    cases hflag : v.vmFlags.testBit 8 with
    | false => rfl
    | true =>
      have hlow : pgRoundDown a < stackBottom := by
        have hbottom : a < stackBottom := Nat.lt_of_not_le fun hle => hgrow ⟨hflag, hle⟩
        exact pgRoundDown_lt hbottom
      rw [if_neg (by simp), expandStack, if_pos hlow]
      rfl

theorem faultPerm_user : (faultPerm v user).testBit 4 = user := by
  unfold faultPerm
  cases user <;> cases v.vmFlags.testBit 2 <;> cases v.vmFlags.testBit 0 <;>
    cases v.vmFlags.testBit 1 <;> decide

theorem faultPerm_congr {w : Vma}
    (h : w.vmFlags = v.vmFlags) : faultPerm w user = faultPerm v user := by
  unfold faultPerm
  rw [h]

/-- Every page that the handler took is in the table. -/
theorem Served.pages {m' : Mem} {r perm p : ℕ} (hs : Served r a perm p m m') (h' : Sound K m')
    (hlo : userCodeVmStart ≤ a) (hhi : a < maxva) (hperm : perm < 1024)
    (hv : isValid (translate m r a) = false) :
    ∀ q, m.useOf q = none → m'.useOf q ≠ none → LeadsTo m' r q := by
  intro q hfree hused
  have hin := inUser_of_range hlo hhi
  by_cases hqp : q = p
  · subst hqp
    have hnew := hs.mapped hv
    have hleads := leadsTo_of_translate (m := m') (r := r) hin hhi
      (by rw [hnew]; exact isValid_mkPte)
    rwa [hnew, pte2pa_mkPte hperm] at hleads
  · obtain ⟨σ, i, τ, hplace, hpath⟩ := hs.news q hqp hfree hused
    exact h'.tables.leadsTo_of_place hplace hpath hin hhi

/-- **A page fault is served exactly when it comes from the user and no entry is there yet.** -/
theorem faultServed_iff (h : Process K m mm) (hmem : Suffices alloc (m.used.length + 3)) :
    FaultServed alloc mm m a user sum ↔
      (InZone mm.mmap a → user = true ∧ isValid (translate m mm.pagetable a) = false) := by
  constructor
  · intro hserved hzone
    obtain ⟨v, mm', -, hlo, hhi, -, heq⟩ :=
      @doPageFault_zone alloc K m mm a user sum h hzone
    obtain ⟨mm'', m', hrun, hhandled⟩ := hserved.zone hzone
    rw [heq] at hrun
    split at hrun
    · cases hrun
    obtain ⟨_, m₁, hhandle, h', hr', p, hs⟩ :=
      exists_of_wp (@wp_handleMmFault_ok alloc K m mm v a user h.sound h.root hlo hhi hmem)
    rw [bind_run hhandle] at hrun
    cases hrun
    have hused : m'.useOf p ≠ none := by
      rw [hs.used]
      exact Option.some_ne_none _
    cases hv : isValid (translate m mm.pagetable a) with
    | true =>
      -- the page is lost
      exact absurd (hhandled.pages p hs.free hused)
        (hs.not_leadsTo h.sound h' h.root hr' hlo hhi hv)
    | false =>
      obtain ⟨w, -, -, -, hflags⟩ := hhandled.leaf
      rw [hs.mapped hv, pteFlags_mkLeaf (faultPerm_lt v user)] at hflags
      have hbit := congrArg (fun n => Nat.testBit n 4) hflags
      have hone : Nat.testBit pteV 4 = false := by decide
      simp only [Nat.testBit_or, hone, Bool.or_false, faultPerm_user] at hbit
      exact ⟨hbit, rfl⟩
  · intro hwhen
    refine ⟨?_, doPageFault_other h⟩
    intro hzone
    obtain ⟨rfl, hv⟩ := hwhen hzone
    obtain ⟨v, mm', hsorted, hlo, hhi, ⟨w, hwmem, hstart, hend, hflags⟩, heq⟩ :=
      @doPageFault_zone alloc K m mm a true sum h hzone
    obtain ⟨_, m', hrun, h', -, p, hs⟩ :=
      exists_of_wp (@wp_handleMmFault_ok alloc K m mm v a true h.sound h.root hlo hhi hmem)
    refine ⟨mm', m', ?_, hsorted, ⟨w, hwmem, hstart, hend, ?_⟩, ?_⟩
    · rw [heq, if_neg (by simp), bind_run hrun]
      rfl
    · rw [hs.mapped hv, pteFlags_mkLeaf (faultPerm_lt v true), faultPerm_congr hflags]
    · exact hs.pages h' hlo hhi (faultPerm_lt v true) hv

/-- The areas of the small process. -/
def smallMm : Mm := ⟨2, [1, 2, 3].map smallSpace.areas.vma, userMemStart, userMemStart + pgsize⟩

theorem process_smallMm : Process emptyBoot.kernel smallSpace.mem smallMm :=
  ⟨sound_smallSpace, rfl, ⟨by decide, by decide⟩, by decide, by decide⟩

theorem inZone_heap : InZone smallMm.mmap userMemStart :=
  Or.inl ⟨smallSpace.areas.vma 2, by decide⟩

/-- The first access of the program to its heap. -/
theorem faultServed_heap : FaultServed above smallMm smallSpace.mem userMemStart true false :=
  (faultServed_iff process_smallMm fun m _ => answer_above m).mpr fun _ => ⟨rfl, by decide⟩

/-- The first access of the kernel to the heap of a program leaves a page that the program
cannot use. -/
theorem not_faultServed_kernel :
    ¬ FaultServed above smallMm smallSpace.mem userMemStart false true := by
  intro h
  obtain ⟨mm', m', hrun, hhandled⟩ := h.zone inZone_heap
  have hflags : (doPageFault above smallMm userMemStart false true smallSpace.mem).toOption.map
      (fun r => (pteFlags (translate r.2 2 userMemStart)).testBit 4) = some false := by decide
  rw [hrun] at hflags
  obtain ⟨v, -, -, -, hleaf⟩ := hhandled.leaf
  have hbit : (pteFlags (translate m' 2 userMemStart)).testBit 4 = false := Option.some.inj hflags
  rw [show pteFlags (translate m' 2 userMemStart) = _ from hleaf, Nat.testBit_or,
    faultPerm_user] at hbit
  cases hbit

end Fault

end RiscvBm.Vm

import RiscvBm.Vm.CopyUser
import RiscvBm.Vm.Demand
import RiscvBm.Vm.Heap

/-!
# Copies to and from memory that is not there yet (`kernel/vm.c`)

A process may use all of its areas, and pages come in as it touches them. A system call that is
given a buffer reads the page table instead (`walkaddr`), so a page that has not been touched yet
is no memory to it. `Honours` compares a copy with the same copy after the process has touched
every page of the buffer.

The processes are all those that `brk`, `sbrk` and page faults lead to, whatever they ask for:
what the copies need is that the memory is `Sound`, not that the areas are in order.
-/

namespace RiscvBm.Vm.Heap

open Radix Wp Transition Function

/-! ## §1  Processes under any request -/

/-- The frame belongs to the kernel. -/
def OfKernel (f : ℕ) (m : Mem) : Prop := m.useOf f = some .kernel

/-- A request of any size, or a page fault. -/
def anyStep (alloc : Mem → ℕ) (s : Proc) (a : Act) : Option Proc :=
  match call alloc s.mm a s.mem with
  | .ok ((_, mm), m) => some ⟨mm, m⟩
  | .error _ => none

/-- What all of them keep; `f` is a frame of the kernel. -/
structure Sane (K : Kernel) (f : ℕ) (s : Proc) : Prop where
  sound : Sound K s.mem
  root : s.mem.IsRoot s.mm.pagetable
  kernel : OfKernel f s.mem
  startBrk : s.mm.startBrk = userMemStart
  brk : userMemStart ≤ s.mm.brk
  areas : ∀ v ∈ s.mm.mmap, userCodeVmStart ≤ v.vmStart

section Sane

variable {alloc : Mem → ℕ} {K : Kernel} {f : ℕ} {mm mm' : Mm} {m m' : Mem}

theorem of_findVmaIntersection {mmap : List Vma} {a b i : ℕ} {v : Vma}
    (h : findVmaIntersection mmap a b = some (i, v)) : mmap[i]? = some v := by
  unfold findVmaIntersection at h
  cases hfind : findVma mmap a with
  | none =>
    rw [hfind] at h
    cases h
  | some found =>
    rw [hfind] at h
    dsimp only at h
    split at h
    · cases h
    · cases h
      exact (of_findVmaFrom hfind).1

/-- A break at a page boundary below a request is no lower than the heap. -/
theorem userMemStart_le_pgRoundDown {b : ℕ} (h : userMemStart ≤ b) :
    userMemStart ≤ pgRoundDown b := by
  unfold userMemStart userCodeVmStart pgRoundDown pgsize at *
  omega

section

variable (h : Sane K f ⟨mm, m⟩)

include h

/-- The areas change, but each of them starts where one may. -/
theorem Sane.setMmap {mmap : List Vma}
    (hareas : ∀ v ∈ mmap, userCodeVmStart ≤ v.vmStart) : Sane K f ⟨{ mm with mmap := mmap }, m⟩ :=
  ⟨h.sound, h.root, h.kernel, h.startBrk, h.brk, hareas⟩

theorem Sane.setBrk {b : ℕ} (hb : userMemStart ≤ b) :
    Sane K f ⟨{ mm with brk := b }, m⟩ :=
  ⟨h.sound, h.root, h.kernel, h.startBrk, hb, h.areas⟩

/-- An area is given another end. -/
theorem Sane.set_end {i e : ℕ} {v : Vma} (hv : mm.mmap[i]? = some v) :
    Sane K f ⟨{ mm with mmap := mm.mmap.set i { v with vmEnd := e } }, m⟩ := by
  apply h.setMmap
  intro w hw
  rcases List.mem_or_eq_of_mem_set hw with hw | rfl
  · exact h.areas w hw
  · exact h.areas v (List.mem_of_getElem? hv)

theorem wp_doBrkFlags_sane {kmalloc : Bool} {addr len : ℕ} (haddr : userMemStart ≤ addr) :
    wp (doBrkFlags kmalloc mm addr len) (fun mm' m' => Sane K f ⟨mm', m'⟩) (fun _ => True) m := by
  have hfresh : ∀ last, Sane K f
      ⟨{ mm with mmap := insertVmStruct mm.mmap ⟨addr, last, vmDataFlagsNonExec⟩ }, m⟩ := by
    intro last
    apply h.setMmap
    intro v hv
    rcases mem_insertVmStruct hv with rfl | hv
    · exact Nat.le_trans (by decide) haddr
    · exact h.areas v hv
  unfold doBrkFlags
  cases hfind : findVma mm.mmap mm.startBrk with
  | none => exact wp_ite (fun _ => wp_pure (hfresh _)) fun _ => wp_throw trivial
  | some found =>
    obtain ⟨i, v⟩ := found
    apply wp_ite
    · exact fun _ => wp_ite (fun _ => wp_pure (hfresh _)) fun _ => wp_throw trivial
    · refine fun _ => wp_ite (fun _ => wp_pure ?_) fun _ => wp_pure h
      exact h.set_end (of_findVmaFrom hfind).1

theorem Sane.unmap {S : Set ℕ} (h' : Sound K m')
    (hun : Unmaps mm.pagetable S m m') : Sane K f ⟨mm, m'⟩ where
  sound := h'
  root := (congrFun hun.place _).trans h.root
  kernel := hun.used h.kernel fun v _ huse => by cases huse
  startBrk := h.startBrk
  brk := h.brk
  areas := h.areas

theorem wp_removeVma_sane {i : ℕ} :
    wp (removeVma mm.mmap i) (fun mmap m' => Sane K f ⟨{ mm with mmap := mmap }, m'⟩)
      (fun _ => True) m := by
  unfold removeVma
  apply wp_ite
  · exact fun _ => wp_pure (h.setMmap fun v hv => h.areas v (List.mem_of_mem_tail hv))
  intro _
  apply wp_ite
  · exact fun _ => wp_pure (h.setMmap fun v hv => h.areas v (List.mem_of_mem_eraseIdx hv))
  · exact fun _ => wp_throw trivial

theorem wp_doMunmap_sane {start len : ℕ} :
    wp (doMunmap alloc mm start len)
      (fun o m' => Sane K f ⟨mm, m'⟩ ∧ ∀ mm', o = some mm' → Sane K f ⟨mm', m'⟩)
      (fun _ => True) m := by
  have hnone : ∀ mm', (none : Option Mm) = some mm' → Sane K f ⟨mm', m⟩ := fun _ hno => by cases hno
  unfold doMunmap
  apply wp_ite
  · exact fun _ => wp_pure ⟨h, hnone⟩
  intro hrange
  apply wp_ite
  · exact fun _ => wp_pure ⟨h, hnone⟩
  intro _
  split
  · refine wp_pure ⟨h, ?_⟩
    rintro mm' ⟨⟩
    exact h
  rename_i i v hfind
  apply wp_ite
  · exact fun _ => wp_pure ⟨h, hnone⟩
  intro _
  have hstart : userCodeVmStart ≤ start := by
    have hmem : userCodeVmStart ≤ userMemStart := by decide
    omega
  unfold unmapRegion
  apply wp_bind (wp_error (wp_unmapValidpages h.sound h.root hstart) fun _ _ => trivial)
  rintro _ m' ⟨h', hun⟩
  have hsane := h.unmap h' hun
  apply wp_ite
  · intro _
    apply wp_bind (wp_removeVma_sane hsane)
    intro mmap m'' hsane'
    refine wp_pure ⟨⟨hsane'.sound, hsane'.root, hsane'.kernel, h.startBrk, h.brk, h.areas⟩, ?_⟩
    rintro mm' ⟨⟩
    exact hsane'
  · intro _
    refine wp_pure ⟨hsane, ?_⟩
    rintro mm' ⟨⟩
    exact hsane.set_end (of_findVmaIntersection hfind)

theorem wp_doBrk_sane {kmalloc : Bool} {b : ℕ} :
    wp (doBrk alloc kmalloc mm b) (fun x m' => Sane K f ⟨x.2, m'⟩) (fun _ => True) m := by
  unfold doBrk
  apply wp_ite
  · exact fun _ => wp_pure h
  intro hlow
  have hb : userMemStart ≤ b := by
    rw [← h.startBrk]
    exact Nat.le_of_not_lt hlow
  apply wp_ite
  · exact fun _ => wp_pure (h.setBrk hb)
  intro _
  apply wp_ite
  · intro _
    apply wp_bind (wp_doMunmap_sane (h.setBrk (userMemStart_le_pgRoundDown hb)))
    rintro o m' ⟨hsane, hsome⟩
    cases o with
    | none => exact wp_pure (hsane.setBrk h.brk)
    | some mm' => exact wp_pure (hsome mm' rfl)
  · intro _
    apply wp_bind (wp_doBrkFlags_sane h h.brk)
    exact fun _ _ hsane => wp_pure (hsane.setBrk hb)

theorem wp_handleMmFault_sane {v : Vma} {a : ℕ} {user : Bool}
    (ha : userCodeVmStart ≤ a) :
    wp (handleMmFault alloc mm v a user) (fun _ m' => Sane K f ⟨mm, m'⟩) (fun _ => True) m := by
  apply wp_mono (wp_handleMmFault h.sound h.root ha)
  · rintro _ m' ⟨h', hch, huse⟩
    exact ⟨h', hch.root h.root, huse h.kernel, h.startBrk, h.brk, h.areas⟩
  · exact fun _ _ => trivial

theorem wp_doPageFault_sane {a : ℕ} {user sum : Bool} :
    wp (doPageFault alloc mm a user sum) (fun mm' m' => Sane K f ⟨mm', m'⟩) (fun _ => True) m := by
  unfold doPageFault
  apply wp_ite
  · exact fun _ => wp_throw trivial
  intro _
  cases hfind : findVma mm.mmap a with
  | none => exact wp_throw trivial
  | some found =>
    obtain ⟨i, v⟩ := found
    have hv := (of_findVmaFrom hfind).1
    dsimp only
    apply wp_ite
    · intro hstart
      have ha := Nat.le_trans (h.areas v (List.mem_of_getElem? hv)) hstart
      exact wp_bind (wp_handleMmFault_sane h ha) fun _ _ hsane => wp_pure hsane
    intro _
    apply wp_ite
    · exact fun _ => wp_throw trivial
    intro _
    have hbottom : userCodeVmStart ≤ stackBottom := by decide
    have hdown : pgRoundDown a ≤ a := Nat.div_mul_le_self a pgsize
    unfold expandStack
    by_cases hlow : pgRoundDown a < stackBottom
    · rw [if_pos hlow]
      exact wp_throw trivial
    rw [if_neg hlow]
    -- the stack grows to an address above its bottom
    have hgrown : ∀ m', Sane K f ⟨mm, m'⟩ →
        Sane K f ⟨{ mm with mmap := mm.mmap.set i { v with vmStart := pgRoundDown a } }, m'⟩ := by
      intro m' hsane
      apply hsane.setMmap
      intro w hw
      rcases List.mem_or_eq_of_mem_set hw with hw | rfl
      · exact h.areas w hw
      · show userCodeVmStart ≤ pgRoundDown a
        omega
    have hhandle := @wp_handleMmFault_sane alloc K f mm m h v a user (by omega)
    by_cases hgrow : pgRoundDown a < v.vmStart
    · rw [if_pos hgrow]
      exact wp_bind hhandle fun _ m' hsane => wp_pure (hgrown m' hsane)
    · rw [if_neg hgrow]
      exact wp_bind hhandle fun _ _ hsane => wp_pure hsane

theorem wp_call_sane (a : Act) :
    wp (call alloc mm a) (fun x m' => Sane K f ⟨x.2, m'⟩) (fun _ => True) m := by
  cases a with
  | brk addr kmalloc =>
    apply wp_bind (wp_doBrk_sane h)
    exact fun _ _ hsane => wp_pure hsane
  | sbrk size kmalloc =>
    unfold call
    refine wp_bind (Q := fun x m' => Sane K f ⟨x.2, m'⟩) ?_ fun _ _ hsane => wp_pure hsane
    unfold Vm.sbrk
    apply wp_ite
    · exact fun _ => wp_pure h
    · intro _
      apply wp_bind (wp_doBrk_sane h)
      exact fun _ _ hsane => wp_ite (fun _ => wp_pure hsane) fun _ => wp_pure hsane
  | fault addr user sum =>
    apply wp_bind (wp_doPageFault_sane h)
    exact fun _ _ hsane => wp_pure hsane

end

theorem sane_step {s s' : Proc} {a : Act} (h : Sane K f s) (hstep : anyStep alloc s a = some s') :
    Sane K f s' := by
  unfold anyStep at hstep
  split at hstep
  · rename_i refused mm m hcall
    cases hstep
    have hwp : wp (call alloc s.mm a) (fun x m' => Sane K f ⟨x.2, m'⟩) (fun _ => True) s.mem :=
      wp_call_sane h a
    have hpost := post_of_ok hwp hcall
    exact hpost
  · cases hstep

theorem sane_start {B : Boot} {size : ℕ} {src : ℕ → ℕ → ℕ} {s : Proc}
    (hsize : size ≤ userMemStart - userCodeVmStart) (hkernel : OfKernel f B.mem)
    (h : start alloc B size src = some s) : Sane B.kernel f s := by
  unfold start at h
  split at h
  · rename_i mm m hrun
    cases h
    have hpost := post_of_ok (wp_moveToUserMode (sound_boot B) hsize) hrun
    obtain ⟨r, rfl, hs, hr, huse, -⟩ := hpost mm rfl
    exact ⟨hs, hr, huse hkernel, rfl, Nat.le_refl _,
      fun v hv => (firstLayout r hsize).userCode_le hv⟩
  · cases h

/-- Every process that requests and page faults lead to. -/
theorem sane_reach {B : Boot} {size : ℕ} {src : ℕ → ℕ → ℕ} {s₀ s : Proc}
    (hsize : size ≤ userMemStart - userCodeVmStart) (hkernel : OfKernel f B.mem)
    (hstart : start alloc B size src = some s₀) (hreach : Reach (anyStep alloc) s₀ s) :
    Sane B.kernel f s :=
  reach_invariant (sane_start hsize hkernel hstart) (fun _ _ _ h hstep => sane_step h hstep) hreach

end Sane

/-! ## §2  Copies -/

section Functions

variable (alloc : Mem → ℕ)

/-- `space_data_copy_out`; an address below `USER_CODE_VM_START` is taken for one of the
kernel. -/
def spaceDataCopyOut (r dstVa src len : ℕ) : VmM Bool :=
  if userCodeVmStart ≤ dstVa then copyDataKernelToUser alloc r dstVa src len
  else do
    modify fun m => memmove m dstVa src len
    pure true

/-- `spcae_data_copy_in` -/
def spcaeDataCopyIn (r dst srcVa len : ℕ) : VmM Bool :=
  if userCodeVmStart ≤ srcVa then copyDataUserToKernel alloc r dst srcVa len
  else do
    modify fun m => memmove m dst srcVa len
    pure true

/-- The two of them, between the user's buffer at `va` and the kernel's at `buf`. -/
def copy (r va buf len : ℕ) : Dir → VmM Bool
  | .toUser => spaceDataCopyOut alloc r va buf len
  | .toKernel => spcaeDataCopyIn alloc r buf va len

/-- The program reads or writes a byte at `a`. -/
def touch (s : Proc) (a : ℕ) : Option Proc :=
  if UserPage s.mem s.mm.pagetable a then some s else anyStep alloc s (.fault a true false)

/-- An address of the buffer in each of its pages. -/
def touches (va len : ℕ) : List ℕ :=
  if len = 0 then []
  else (List.range ((va + len - 1) / pgsize - va / pgsize + 1)).map fun j =>
    max va ((va / pgsize + j) * pgsize)

end Functions

/-- Every byte of the buffer lies in an area. -/
def InAreas (s : Proc) (va len : ℕ) : Prop :=
  ∀ i < len, ∃ v ∈ s.mm.mmap, v.vmStart ≤ va + i ∧ va + i < v.vmEnd

/-- The kernel's buffer: memory of the kernel that is not a part of its page table. -/
def KernelBuffer (K : Kernel) (m : Mem) (buf len : ℕ) : Prop :=
  ∀ i < len, OfKernel ((buf + i) / pgsize) m ∧ ∀ n ≤ 2, ¬ K.Frame n ((buf + i) / pgsize)

/-- While there are free pages, a copy succeeds, and the program and the kernel see the same
afterwards as if the program had touched the buffer before; a page that is not there yet is
zero. -/
def Honours (alloc : Mem → ℕ) (dir : Dir) (s : Proc) (va buf len : ℕ) : Prop :=
  Suffices alloc (s.mem.used.length + 3 * (touches va len).length) →
    ∃ m s₁ m₁, copy alloc s.mm.pagetable va buf len dir s.mem = .ok (true, m) ∧
      (touches va len).foldlM (touch alloc) s = some s₁ ∧
      copy alloc s.mm.pagetable va buf len dir s₁.mem = .ok (true, m₁) ∧
      (∀ a, userCodeVmStart ≤ a → a < maxva →
        (shown m s.mm.pagetable a).getD 0 = (shown m₁ s.mm.pagetable a).getD 0) ∧
      ∀ i < len, m.byte (buf + i) = m₁.byte (buf + i)

section Copies

variable {alloc : Mem → ℕ} {K : Kernel} {dir : Dir} {s : Proc} {m : Mem} {r va buf len f : ℕ}

/-- The kernel has no page for the user in its own part. -/
def NoUserPages (K : Kernel) : Prop :=
  ∀ va, isUser (view next 0 K.word K.root (vpath va) (px 0 va)) = false

theorem inUser_of_userPage (h : Tables K m) (hK : NoUserPages K)
    (hr : m.IsRoot r) {a : ℕ} (ha : UserPage m r a) : InUser a := by
  by_contra hlow
  have huser := ha.2.2
  rw [h.translate_low hr hlow, h.translate_kernel, hK a] at huser
  cases huser

/-- The tables are in use as tables, or belong to the kernel. -/
theorem useOf_tableFrame (h : Sound K m) (hr : m.IsRoot r)
    (hf : TableFrame m r f) : m.useOf f = some .table ∨ ∃ n ≤ 2, K.Frame n f := by
  obtain ⟨σ, ⟨hlen, hbound⟩, hd⟩ := hf
  cases σ with
  | nil =>
    cases hd
    exact Or.inl (h.placed hr)
  | cons i σ =>
    by_cases hi : i < userIndex
    · right
      rw [h.tables.descend_low hr hi, h.tables.descend_kernel (by omega) hbound] at hd
      exact ⟨_, hlen, i :: σ, rfl, hbound, hd⟩
    · left
      have hown : OwnPath own (i :: σ) := by
        intro σ₁ j σ₂ hσ
        refine ⟨hbound j (by rw [hσ]; simp), ?_⟩
        rintro rfl
        cases hσ
        exact Nat.le_of_not_lt hi
      exact h.placed (h.tables.linked.place_of_descend hr hown hlen hd)

/-- What a copy needs to go well, apart from the pages being there. -/
theorem Sane.separate (h : Sane K 0 s) (hK : NoUserPages K) (hbuf : KernelBuffer K s.mem buf len) :
    Separate dir s.mem s.mm.pagetable buf len := by
  have huse : ∀ a, UserPage s.mem s.mm.pagetable a →
      s.mem.useOf (frameOf s.mem s.mm.pagetable a) = some (.leaf s.mm.pagetable (a / pgsize)) := by
    intro a ha
    exact h.sound.leaf h.root (inUser_of_userPage h.sound.tables hK h.root ha)
      (Nat.lt_trans ha.1 maxva_lt) ha.2.1
  refine ⟨⟨?_, ?_, ?_, ?_⟩, ?_⟩
  · intro a ha hzero
    have hleaf := huse a ha
    rw [hzero, show s.mem.useOf 0 = _ from h.kernel] at hleaf
    cases hleaf
  · intro a ha htable
    have hleaf := huse a ha
    rcases useOf_tableFrame h.sound h.root htable with huse' | ⟨n, hn, hframe⟩
    · rw [huse'] at hleaf
      cases hleaf
    · rw [h.sound.shared hn hframe] at hleaf
      cases hleaf
  · intro a ha i hi heq
    have hleaf := huse a ha
    rw [← heq, show s.mem.useOf _ = _ from (hbuf i hi).1] at hleaf
    cases hleaf
  · intro a b ha hb heq
    have hleaf := huse a ha
    rw [heq, huse b hb] at hleaf
    exact (Use.leaf.inj (Option.some.inj hleaf)).2.symm
  · intro _ i hi htable
    obtain ⟨hkernel, hno⟩ := hbuf i hi
    rcases useOf_tableFrame h.sound h.root htable with huse' | ⟨n, hn, hframe⟩
    · rw [show s.mem.useOf _ = _ from hkernel] at huse'
      cases huse'
    · exact hno n hn hframe

/-- A copy at a user address is a loop over the pages. -/
theorem copy_eq (hva : userCodeVmStart ≤ va) :
    copy alloc r va buf len dir = copyLoop alloc dir r len va buf len := by
  cases dir with
  | toUser =>
    rw [copy, spaceDataCopyOut, if_pos hva]
    rfl
  | toKernel =>
    rw [copy, spcaeDataCopyIn, if_pos hva]
    rfl

theorem mem_touches {a : ℕ} (ha : a ∈ touches va len) : ∃ i < len, a = va + i := by
  unfold touches at ha
  split at ha
  · exact (List.not_mem_nil ha).elim
  · rename_i hlen
    obtain ⟨j, hj, rfl⟩ := List.mem_map.mp ha
    have hj := List.mem_range.mp hj
    have hmul : (va / pgsize + j) * pgsize ≤ (va + len - 1) / pgsize * pgsize :=
      Nat.mul_le_mul_right pgsize (by
        have hle : va / pgsize ≤ (va + len - 1) / pgsize := Nat.div_le_div_right (by omega)
        omega)
    have hlast := Nat.div_mul_le_self (va + len - 1) pgsize
    exact ⟨max va ((va / pgsize + j) * pgsize) - va, by omega, by omega⟩

/-- Touching what is there does nothing. -/
theorem foldlM_touch {l : List ℕ} (h : ∀ a ∈ l, UserPage s.mem s.mm.pagetable a) :
    l.foldlM (touch alloc) s = some s := by
  induction l with
  | nil => rfl
  | cons a l ih =>
    rw [List.foldlM_cons, touch, if_pos (h a List.mem_cons_self)]
    exact ih fun b hb => h b (List.mem_cons_of_mem a hb)

/-- **A copy is as good as one after the pages were touched exactly when they are all there.** -/
theorem honours_iff_populated {B : Boot} {size : ℕ} {src : ℕ → ℕ → ℕ} {s₀ : Proc}
    (hzero : OfKernel 0 B.mem) (hK : NoUserPages B.kernel)
    (hsize : size ≤ userMemStart - userCodeVmStart) (hstart : start alloc B size src = some s₀)
    (hreach : Reach (anyStep alloc) s₀ s) (hin : InAreas s va len)
    (hbuf : KernelBuffer B.kernel s.mem buf len) :
    Honours alloc dir s va buf len ↔
      (Suffices alloc (s.mem.used.length + 3 * (touches va len).length) →
        ∀ i < len, UserPage s.mem s.mm.pagetable (va + i)) := by
  have hsane := sane_reach hsize hzero hstart hreach
  have hcopy : 0 < len → ∃ b m, copy alloc s.mm.pagetable va buf len dir s.mem = .ok (b, m) ∧
      (b = true ↔ ∀ i < len, UserPage s.mem s.mm.pagetable (va + i)) := by
    intro hlen
    obtain ⟨v, hv, hstart, -⟩ := hin 0 hlen
    have hva : userCodeVmStart ≤ va := Nat.le_trans (hsane.areas v hv) hstart
    obtain ⟨b, m, hrun, hfollows⟩ :=
      exists_of_wp (wp_copyLoop (Nat.le_refl len) (hsane.separate hK hbuf))
    exact ⟨b, m, by rw [copy_eq hva]; exact hrun, hfollows.1⟩
  constructor
  · intro hhonours hmem i hi
    obtain ⟨m, s₁, m₁, hrun, -⟩ := hhonours hmem
    obtain ⟨b, m', hrun', hb⟩ := hcopy (Nat.zero_lt_of_lt hi)
    cases hrun.symm.trans hrun'
    exact hb.mp rfl i hi
  · intro hall hmem
    have hall := hall hmem
    have hrun : ∃ m, copy alloc s.mm.pagetable va buf len dir s.mem = .ok (true, m) := by
      rcases Nat.eq_zero_or_pos len with rfl | hlen
      · -- nothing to copy, at whatever address
        cases dir <;> unfold copy
        · unfold spaceDataCopyOut
          split
          · exact ⟨_, rfl⟩
          · exact ⟨_, rfl⟩
        · unfold spcaeDataCopyIn
          split
          · exact ⟨_, rfl⟩
          · exact ⟨_, rfl⟩
      · obtain ⟨b, m, hrun, hb⟩ := hcopy hlen
        rw [hb.mpr hall] at hrun
        exact ⟨m, hrun⟩
    obtain ⟨m, hrun⟩ := hrun
    have htouch : (touches va len).foldlM (touch alloc) s = some s := by
      apply foldlM_touch
      intro a ha
      obtain ⟨i, hi, rfl⟩ := mem_touches ha
      exact hall i hi
    exact ⟨m, s, m, hrun, htouch, hrun, fun _ _ _ => rfl, fun _ _ => rfl⟩

/-- A kernel that maps nothing, with a buffer in frame 7. -/
def bufferBoot : Boot where
  kernel := emptyKernel
  used := [(1, .kernel), (0, .kernel), (7, .kernel)]
  kernelUsed := by
    intro n f _ hf
    rw [emptyKernel_frame hf]
    rfl

theorem noUserPages_empty : NoUserPages emptyKernel := by
  intro va
  have hd : descend next emptyKernel.word emptyKernel.root (vpath va) = none := by
    rw [vpath, descend, show emptyKernel.word emptyKernel.root _ = 0 from rfl, next_zero]
    rfl
  rw [view_of_none hd]
  rfl

/-- What is asked of a process and a buffer of 16 bytes at the start of its heap. -/
def heapBuffer (s : Proc) : Bool :=
  decide (∀ i < (16 : ℕ), ∃ v ∈ s.mm.mmap, v.vmStart ≤ userMemStart + i ∧
      userMemStart + i < v.vmEnd) &&
    decide (s.mem.useOf 7 = some .kernel)

theorem of_heapBuffer {s : Proc} (h : heapBuffer s = true) :
    InAreas s userMemStart 16 ∧ KernelBuffer emptyKernel s.mem (7 * pgsize) 16 := by
  obtain ⟨hin, hkernel⟩ := Bool.and_eq_true_iff.mp h
  have hin := of_decide_eq_true hin
  have hkernel := of_decide_eq_true hkernel
  refine ⟨hin, ?_⟩
  intro i hi
  have hframe : (7 * pgsize + i) / pgsize = 7 := by
    unfold pgsize
    omega
  rw [hframe]
  refine ⟨hkernel, fun n _ hf => ?_⟩
  exact absurd (emptyKernel_frame hf) (by decide)

/-- The program has touched the heap before the call. -/
theorem honours_touched : ∃ s₀ s, start above bufferBoot 5000 (fun _ _ => 0) = some s₀ ∧
    Reach (anyStep above) s₀ s ∧ Honours above .toUser s userMemStart (7 * pgsize) 16 := by
  have hrun : ((start above bufferBoot 5000 fun _ _ => 0).bind fun s =>
      (runFrom (anyStep above) s [.sbrk 4096 true, .fault userMemStart true false]).map fun s =>
        heapBuffer s && decide (∀ i < (16 : ℕ), UserPage s.mem s.mm.pagetable (userMemStart + i))) =
      some true := by
    decide +kernel
  obtain ⟨s₀, hstart, hmap⟩ := Option.bind_eq_some_iff.mp hrun
  obtain ⟨s, hs, hcheck⟩ := Option.map_eq_some_iff.mp hmap
  obtain ⟨hbuffer, hall⟩ := Bool.and_eq_true_iff.mp hcheck
  obtain ⟨hin, hkernel⟩ := of_heapBuffer hbuffer
  refine ⟨s₀, s, hstart, ⟨_, hs⟩, ?_⟩
  exact (honours_iff_populated (B := bufferBoot) rfl noUserPages_empty (by decide) hstart ⟨_, hs⟩
    hin hkernel).mpr fun _ => of_decide_eq_true hall

/-- The program has asked for the heap, but not used it yet. -/
theorem not_honours_untouched : ∃ s₀ s, start above bufferBoot 5000 (fun _ _ => 0) = some s₀ ∧
    Reach (anyStep above) s₀ s ∧ InAreas s userMemStart 16 ∧
      KernelBuffer bufferBoot.kernel s.mem (7 * pgsize) 16 ∧
      ¬ Honours above .toUser s userMemStart (7 * pgsize) 16 := by
  have hrun : ((start above bufferBoot 5000 fun _ _ => 0).bind fun s =>
      (runFrom (anyStep above) s [.sbrk 4096 true]).map fun s =>
        heapBuffer s && ((copy above s.mm.pagetable userMemStart (7 * pgsize) 16 .toUser
          s.mem).toOption.map Prod.fst == some false)) = some true := by
    decide +kernel
  obtain ⟨s₀, hstart, hmap⟩ := Option.bind_eq_some_iff.mp hrun
  obtain ⟨s, hs, hcheck⟩ := Option.map_eq_some_iff.mp hmap
  obtain ⟨hbuffer, hfalse⟩ := Bool.and_eq_true_iff.mp hcheck
  obtain ⟨hin, hkernel⟩ := of_heapBuffer hbuffer
  refine ⟨s₀, s, hstart, ⟨_, hs⟩, hin, hkernel, ?_⟩
  intro h
  obtain ⟨m, s₁, m₁, hcopy, -⟩ := h fun m _ => answer_above m
  rw [hcopy] at hfalse
  cases hfalse

end Copies

end RiscvBm.Vm.Heap

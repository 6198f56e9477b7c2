import RiscvBm.Lib.ByteMemory
import RiscvBm.Vm.MapPages

/-!
# Copies between a kernel buffer and user memory (`kernel/vm.c`)

The kernel sees all of physical memory, byte by byte; a user page is where the page table
says. `copy_data_kernel_to_user` and `copy_data_user_to_kernel` go page by page through the
table, and `memmove` is run on physical addresses, so that a copy can in principle change the
tables it is going through. `Separate` is what rules that out.

The two functions are one loop with the direction as a parameter. `Follows` is what a copy
has done when it ends: the bytes before the first page that is not mapped for the user, and
no others.
-/

namespace RiscvBm.Vm

open Radix Wp ByteMemory

/-! ## §1  Physical memory by the byte -/

def Mem.byte (m : Mem) (a : ℕ) : UInt8 := digit (m.word (a / pgsize) (a % pgsize / 8)) (a % 8)

def Mem.setByte (m : Mem) (a : ℕ) (b : UInt8) : Mem :=
  m.setWord (a / pgsize) (a % pgsize / 8)
    (setDigit (m.word (a / pgsize) (a % pgsize / 8)) (a % 8) b)

theorem byte_setByte (m : Mem) (a : ℕ) (b : UInt8) (c : ℕ) :
    (m.setByte a b).byte c = if c = a then b else m.byte c := by
  show digit (write m.word (a / pgsize) (a % pgsize / 8)
    (setDigit (m.word (a / pgsize) (a % pgsize / 8)) (a % 8) b) (c / pgsize) (c % pgsize / 8))
      (c % 8) = if c = a then b else digit (m.word (c / pgsize) (c % pgsize / 8)) (c % 8)
  by_cases hword : c / pgsize = a / pgsize ∧ c % pgsize / 8 = a % pgsize / 8
  · rw [hword.1, hword.2, write_same, digit_setDigit]
    have hiff : c % 8 = a % 8 ↔ c = a := by
      unfold pgsize at hword
      omega
    by_cases hc : c = a
    · rw [if_pos (hiff.mpr hc), if_pos hc]
    · rw [if_neg fun h => hc (hiff.mp h), if_neg hc]
  · rw [write_of_ne _ _ hword, if_neg]
    rintro rfl
    exact hword ⟨rfl, rfl⟩

def physical : Bytes Mem UInt8 := ⟨Mem.byte, Mem.setByte, byte_setByte⟩

/-- `memmove`; the length is a `uint`. -/
def memmove (m : Mem) (dst src n : ℕ) : Mem := physical.memmove m dst src (n % 2 ^ 32)

/-- The frames outside the target are not written. -/
theorem word_memmove {m : Mem} {dst src n f : ℕ} (h : ∀ i < n, (dst + i) / pgsize ≠ f) :
    (memmove m dst src n).word f = m.word f := by
  apply physical.memmove_keeps (P := fun m' => m'.word f = m.word f) _ rfl
  intro m' c b hlo hhi hm'
  rw [← hm']
  funext k
  apply write_of_ne
  rintro ⟨rfl, -⟩
  have hlt : c - dst < n := Nat.lt_of_lt_of_le (by omega) (Nat.mod_le n (2 ^ 32))
  apply h (c - dst) hlt
  rw [Nat.add_sub_cancel' hlo]

/-! ## §2  The copies -/

inductive Dir where
  /-- `copy_data_kernel_to_user` -/
  | toUser
  /-- `copy_data_user_to_kernel` -/
  | toKernel
deriving DecidableEq

/-- Where bytes go, and where they come from. -/
def Dir.target : Dir → ℕ → ℕ → ℕ
  | .toUser, user, _ => user
  | .toKernel, _, kernel => kernel

def Dir.source : Dir → ℕ → ℕ → ℕ
  | .toUser, _, kernel => kernel
  | .toKernel, user, _ => user

section Functions

variable (alloc : Mem → ℕ)

/-- The loop of both functions, over at most `fuel` pages. -/
def copyLoop (dir : Dir) (r : ℕ) : ℕ → ℕ → ℕ → ℕ → VmM Bool
  | 0, _, _, _ => pure true
  | fuel + 1, va, buf, len =>
    if len = 0 then pure true
    else do
      let va0 := pgRoundDown va
      let pa0 := (← walkaddr alloc r va0).getD 0
      if pa0 = 0 then pure false
      else do
        let n := min (pgsize - (va - va0)) len
        let user := pa0 * pgsize + (va - va0)
        modify fun m => memmove m (dir.target user buf) (dir.source user buf) n
        copyLoop dir r fuel (va0 + pgsize) (buf + n) (len - n)

def copyDataKernelToUser (r dstva src len : ℕ) : VmM Bool :=
  copyLoop alloc .toUser r len dstva src len

def copyDataUserToKernel (r dst srcva len : ℕ) : VmM Bool :=
  copyLoop alloc .toKernel r len srcva dst len

end Functions

/-! ## §3  User pages -/

/-- The page of `a` is below `MAXVA` and has a valid leaf with `PTE_U`. -/
def UserPage (m : Mem) (r a : ℕ) : Prop :=
  a < maxva ∧ isValid (translate m r a) = true ∧ isUser (translate m r a) = true

instance (m : Mem) (r a : ℕ) : Decidable (UserPage m r a) :=
  inferInstanceAs (Decidable (_ ∧ _ ∧ _))

def frameOf (m : Mem) (r a : ℕ) : ℕ := pte2pa (translate m r a)

/-- The physical address of `a`. -/
def phys (m : Mem) (r a : ℕ) : ℕ := frameOf m r a * pgsize + a % pgsize

/-- The byte at the user's address `a`. -/
def userByte (m : Mem) (r a : ℕ) : UInt8 := m.byte (phys m r a)

/-- The same, none where there is no page for the user. -/
def shown (m : Mem) (r a : ℕ) : Option UInt8 :=
  if UserPage m r a then some (userByte m r a) else none

section UserPage

variable {alloc : Mem → ℕ} {m m' : Mem} {r a b va : ℕ}

theorem translate_of_words (h : ∀ f, TableFrame m r f → m'.word f = m.word f) :
    translate m' r a = translate m r a := by
  have hpath : ∀ σ₁ σ₂, vpath a = σ₁ ++ σ₂ → IsPath 512 2 σ₁ := by
    intro σ₁ σ₂ hσ
    constructor
    · rw [← length_vpath a, hσ, List.length_append]
      exact Nat.le_add_right _ _
    · intro i hi
      apply lt_of_mem_vpath
      rw [hσ]
      exact List.mem_append_left _ hi
  apply view_congr
  · refine (path_congr ?_).1
    intro σ₁ i σ₂ d hσ hd
    rw [h d ⟨σ₁, hpath _ _ hσ, hd⟩]
  · intro t ht
    rw [h t ⟨vpath a, hpath _ [] (List.append_nil _).symm, ht⟩]

theorem pgRoundDown_lt_maxva : pgRoundDown a < maxva ↔ a < maxva := by
  unfold pgRoundDown pgsize maxva
  omega

theorem translate_page (ha : a < maxva) (hb : b < maxva) (h : a / pgsize = b / pgsize) :
    translate m r a = translate m r b :=
  translate_congr (Nat.lt_trans ha maxva_lt) (Nat.lt_trans hb maxva_lt) h

theorem UserPage.of_page (h : UserPage m r a) (hpage : b / pgsize = a / pgsize) :
    UserPage m r b := by
  have hb : b < maxva := by
    have ha := h.1
    unfold pgsize at hpage
    unfold maxva at *
    omega
  rw [UserPage, translate_page hb h.1 hpage]
  exact ⟨hb, h.2⟩

theorem UserPage.frameOf_eq (h : UserPage m r a) (hpage : b / pgsize = a / pgsize) :
    frameOf m r b = frameOf m r a := by
  rw [frameOf, translate_page (h.of_page hpage).1 h.1 hpage, frameOf]

/-- `walkaddr` tells the user pages. -/
theorem userFrame_eq :
    userFrame m r va = if UserPage m r va then some (frameOf m r va) else none := rfl

end UserPage

/-! ## §4  What keeps a copy apart from the tables -/

/-- User pages are frames other than 0, none of them a table, none of them in the buffer, and
no two of them the same. -/
structure PagesApart (m : Mem) (r buf len : ℕ) : Prop where
  nonzero : ∀ a, UserPage m r a → frameOf m r a ≠ 0
  tables : ∀ a, UserPage m r a → ¬ TableFrame m r (frameOf m r a)
  buffer : ∀ a, UserPage m r a → ∀ i < len, (buf + i) / pgsize ≠ frameOf m r a
  apart : ∀ a b, UserPage m r a → UserPage m r b → frameOf m r a = frameOf m r b →
    a / pgsize = b / pgsize

/-- A buffer that is written to is not in the tables either. -/
structure Separate (dir : Dir) (m : Mem) (r buf len : ℕ) : Prop extends PagesApart m r buf len where
  written : dir = .toKernel → ∀ i < len, ¬ TableFrame m r ((buf + i) / pgsize)

/-- Nothing has been written to the tables. -/
def SameTables (r : ℕ) (m m₁ : Mem) : Prop := ∀ f, TableFrame m r f → m₁.word f = m.word f

/-- The copy of `len` bytes ends with 0 iff all its pages are mapped for the user; it has
copied the bytes before the first page that is not. -/
def Follows (dir : Dir) (r va buf len : ℕ) (m : Mem) (b : Bool) (m' : Mem) : Prop :=
  (b = true ↔ ∀ i < len, UserPage m r (va + i)) ∧ SameTables r m m' ∧
    ∃ c ≤ len, (∀ i < c, UserPage m r (va + i)) ∧ (c < len → ¬ UserPage m r (va + c)) ∧
      physical.Copies (fun i => dir.source (phys m r (va + i)) (buf + i))
        (fun i => dir.target (phys m r (va + i)) (buf + i)) c m m'

section Separate

variable {alloc : Mem → ℕ} {dir : Dir} {m m₁ m' : Mem} {r va buf len n : ℕ}

theorem phys_frame (m : Mem) (r a : ℕ) : phys m r a / pgsize = frameOf m r a := by
  rw [phys, Nat.mul_comm, Nat.mul_add_div (by decide), Nat.div_eq_of_lt (Nat.mod_lt _ (by decide)),
    Nat.add_zero]

/-- Addresses of one user page follow one another. -/
theorem phys_add {i : ℕ} (h : UserPage m r va) (hi : va % pgsize + i < pgsize) :
    phys m r (va + i) = phys m r va + i := by
  have hpage : (va + i) / pgsize = va / pgsize ∧ (va + i) % pgsize = va % pgsize + i := by
    unfold pgsize at *
    omega
  rw [phys, phys, h.frameOf_eq hpage.1, hpage.2, Nat.add_assoc]

/-- The target is in no frame of the tables. -/
theorem Separate.target_ne (h : Separate dir m r buf len) {i : ℕ} (hi : i < len)
    (huser : UserPage m r (va + i)) :
    ¬ TableFrame m r (dir.target (phys m r (va + i)) (buf + i) / pgsize) := by
  cases dir with
  | toUser =>
    rw [Dir.target, phys_frame]
    exact h.tables _ huser
  | toKernel => exact h.written rfl i hi

/-- Bytes on one page go to other addresses than bytes on another. -/
theorem Separate.target_apart (h : Separate dir m r buf len) {i j : ℕ} (hne : i ≠ j)
    (hpage : (va + i) / pgsize ≠ (va + j) / pgsize) (hi : UserPage m r (va + i))
    (hj : UserPage m r (va + j)) :
    dir.target (phys m r (va + i)) (buf + i) ≠ dir.target (phys m r (va + j)) (buf + j) := by
  cases dir with
  | toUser =>
    intro heq
    have hframe := congrArg (· / pgsize) heq
    simp only [Dir.target, phys_frame] at hframe
    exact hpage (h.apart _ _ hi hj hframe)
  | toKernel =>
    simp only [Dir.target]
    omega

/-- What is read is not what is written. -/
theorem Separate.source_ne (h : Separate dir m r buf len) {i j : ℕ} (hi : i < len) (hj : j < len)
    (hui : UserPage m r (va + i)) (huj : UserPage m r (va + j)) :
    dir.source (phys m r (va + j)) (buf + j) ≠ dir.target (phys m r (va + i)) (buf + i) := by
  intro heq
  have hframe := congrArg (· / pgsize) heq
  cases dir with
  | toUser =>
    simp only [Dir.source, Dir.target, phys_frame] at hframe
    exact h.buffer _ hui j hj hframe
  | toKernel =>
    simp only [Dir.source, Dir.target, phys_frame] at hframe
    exact h.buffer _ huj i hi hframe.symm

end Separate

/-! ## §5  One page after the other -/

section Loop

variable {alloc : Mem → ℕ} {dir : Dir} {m m₁ m' : Mem} {r va va' buf len n : ℕ} {b : Bool}

section

variable (h : SameTables r m m₁)

include h

theorem SameTables.userPage (a : ℕ) :
    UserPage m₁ r a ↔ UserPage m r a := by
  rw [UserPage, translate_of_words h, UserPage]

theorem SameTables.frameOf (a : ℕ) : frameOf m₁ r a = frameOf m r a := by
  rw [Vm.frameOf, translate_of_words h, Vm.frameOf]

theorem SameTables.phys (a : ℕ) : phys m₁ r a = phys m r a := by
  rw [Vm.phys, h.frameOf, Vm.phys]

theorem SameTables.descend_eq {σ : List ℕ} (hσ : IsPath 512 2 σ) :
    descend next m₁.word r σ = descend next m.word r σ := by
  refine (path_congr ?_).1
  intro σ₁ i σ₂ d hsplit hd
  rw [h]
  refine ⟨σ₁, ⟨?_, ?_⟩, hd⟩
  · have hcount := congrArg List.length hsplit
    rw [List.length_append] at hcount
    have := hσ.1
    omega
  · intro j hj
    apply hσ.2
    rw [hsplit]
    exact List.mem_append_left _ hj

theorem SameTables.tableFrame {f : ℕ} :
    TableFrame m₁ r f ↔ TableFrame m r f := by
  constructor
  · rintro ⟨σ, hσ, hd⟩
    exact ⟨σ, hσ, (h.descend_eq hσ).symm.trans hd⟩
  · rintro ⟨σ, hσ, hd⟩
    exact ⟨σ, hσ, (h.descend_eq hσ).trans hd⟩

theorem SameTables.trans (h' : SameTables r m₁ m') : SameTables r m m' :=
  fun f hf => (h' f (h.tableFrame.mpr hf)).trans (h f hf)

/-- The pages are apart as before, and from another buffer if they were. -/
theorem SameTables.pagesApart {buf' len' : ℕ} (hp : PagesApart m r buf len)
    (hbuf : ∀ a, UserPage m r a → ∀ i < len', (buf' + i) / pgsize ≠ Vm.frameOf m r a) :
    PagesApart m₁ r buf' len' := by
  refine ⟨?_, ?_, ?_, ?_⟩
  · intro a ha
    rw [h.frameOf]
    exact hp.nonzero a ((h.userPage a).mp ha)
  · intro a ha
    rw [h.frameOf, h.tableFrame]
    exact hp.tables a ((h.userPage a).mp ha)
  · intro a ha i hi
    rw [h.frameOf]
    exact hbuf a ((h.userPage a).mp ha) i hi
  · intro a b ha hb
    rw [h.frameOf, h.frameOf]
    exact hp.apart a b ((h.userPage a).mp ha) ((h.userPage b).mp hb)

end

theorem Separate.rest (h : Separate dir m r buf len) (hn : n ≤ len) (hsame : SameTables r m m₁) :
    Separate dir m₁ r (buf + n) (len - n) := by
  refine ⟨hsame.pagesApart h.toPagesApart ?_, ?_⟩
  · intro a ha i hi
    rw [Nat.add_assoc]
    exact h.buffer a ha (n + i) (by omega)
  · intro hdir i hi hf
    rw [Nat.add_assoc] at hf
    exact h.written hdir (n + i) (by omega) (hsame.tableFrame.mp hf)

theorem follows_nil (m : Mem) : Follows dir r va buf 0 m true m := by
  refine ⟨by simp, fun _ _ => rfl, 0, Nat.le_refl 0, ?_, ?_, Bytes.Copies.zero m⟩
  · exact fun i hi => absurd hi (Nat.not_lt_zero i)
  · exact fun h => absurd h (Nat.lt_irrefl 0)

theorem follows_stop (hlen : 0 < len) (h : ¬ UserPage m r va) :
    Follows dir r va buf len m false m := by
  constructor
  · constructor
    · intro hfalse
      cases hfalse
    · intro hall
      exact absurd (hall 0 hlen) h
  · refine ⟨fun _ _ => rfl, 0, Nat.zero_le len, ?_, fun _ => h, Bytes.Copies.zero m⟩
    exact fun i hi => absurd hi (Nat.not_lt_zero i)

/-- `n` bytes of one page, and then the rest, which starts with a page. -/
theorem Follows.cons (hsep : Separate dir m r buf len) (hsame : SameTables r m m₁) (hn : n ≤ len)
    (hall : ∀ i < n, UserPage m r (va + i) ∧ (va + i) / pgsize = va / pgsize)
    (hcopy : physical.Copies (fun i => dir.source (phys m r (va + i)) (buf + i))
      (fun i => dir.target (phys m r (va + i)) (buf + i)) n m m₁)
    (hva : 0 < len - n → va' = va + n ∧ va / pgsize < (va + n) / pgsize)
    (h : Follows dir r va' (buf + n) (len - n) m₁ b m') : Follows dir r va buf len m b m' := by
  have hshift : ∀ j < len - n, va' + j = va + (n + j) := by
    intro j hj
    rw [(hva (Nat.zero_lt_of_lt hj)).1, Nat.add_assoc]
  obtain ⟨hb, htables, c, hc, hbefore, hstop, hrest⟩ := h
  constructor
  · rw [hb]
    constructor
    · intro hlater i hi
      by_cases hin : i < n
      · exact (hall i hin).1
      · have huser := hlater (i - n) (by omega)
        rw [hshift (i - n) (by omega), hsame.userPage, Nat.add_sub_cancel' (by omega)] at huser
        exact huser
    · intro hevery j hj
      rw [hshift j hj, hsame.userPage]
      exact hevery (n + j) (by omega)
  · have hlater : ∀ j < c, UserPage m r (va + (n + j)) := by
      intro j hj
      rw [← hshift j (by omega), ← hsame.userPage]
      exact hbefore j hj
    refine ⟨hsame.trans htables, n + c, by omega, ?_, ?_, hcopy.append (hrest.congr ?_ ?_) ?_ ?_⟩
    · intro i hi
      by_cases hin : i < n
      · exact (hall i hin).1
      · obtain ⟨j, rfl⟩ := Nat.exists_eq_add_of_le (Nat.le_of_not_lt hin)
        exact hlater j (by omega)
    · intro hlt
      have hno := hstop (by omega)
      rwa [hshift c (by omega), hsame.userPage] at hno
    · intro j hj
      rw [hshift j (by omega), hsame.phys, Nat.add_assoc]
    · intro j hj
      rw [hshift j (by omega), hsame.phys, Nat.add_assoc]
    · intro i hi j hj
      apply hsep.target_apart (by omega) _ (hall i hi).1 (hlater j hj)
      have hnext := (hva (by omega)).2
      have hmono : (va + n) / pgsize ≤ (va + (n + j)) / pgsize := Nat.div_le_div_right (by omega)
      rw [(hall i hi).2]
      omega
    · intro i hi j hj
      exact hsep.source_ne (by omega) (by omega) (hall i hi).1 (hlater j hj)

theorem wp_copyLoop {fuel : ℕ} (hfuel : len ≤ fuel) (h : Separate dir m r buf len) :
    wp (copyLoop alloc dir r fuel va buf len) (Follows dir r va buf len m) noError m := by
  induction fuel generalizing m va buf len with
  | zero =>
    obtain rfl := Nat.le_zero.mp hfuel
    exact wp_pure (follows_nil m)
  | succ fuel ih =>
    unfold copyLoop
    by_cases hlen : len = 0
    · rw [if_pos hlen, hlen]
      exact wp_pure (follows_nil m)
    rw [if_neg hlen]
    apply wp_bind_run (walkaddr_eq alloc m r (pgRoundDown va))
    rw [userFrame_eq]
    dsimp only
    by_cases huser : UserPage m r va
    swap
    · have hno : ¬ UserPage m r (pgRoundDown va) := fun hround =>
        huser (hround.of_page (pgRoundDown_div va).symm)
      rw [if_neg hno, Option.getD_none, if_pos rfl]
      exact wp_pure (follows_stop (Nat.pos_of_ne_zero hlen) huser)
    rw [if_pos (huser.of_page (pgRoundDown_div va)), huser.frameOf_eq (pgRoundDown_div va),
      Option.getD_some, if_neg (h.nonzero va huser)]
    apply wp_modify_bind
    have hoff : va - pgRoundDown va = va % pgsize := by
      unfold pgRoundDown pgsize
      omega
    have hmod : va % pgsize < pgsize := Nat.mod_lt _ (by decide)
    rw [hoff]
    -- the piece of this page
    generalize hnval : min (pgsize - va % pgsize) len = n
    have hn : n ≤ len ∧ 0 < n ∧ va % pgsize + n ≤ pgsize ∧ n % 2 ^ 32 = n ∧
        (0 < len - n → va % pgsize + n = pgsize) := by
      have hsize : pgsize = 4096 := rfl
      omega
    obtain ⟨hnlen, hnpos, hnpage, hn32, hnfull⟩ := hn
    have hphys : ∀ i < n, phys m r (va + i) = phys m r va + i := by
      intro i hi
      exact phys_add huser (by omega)
    have hsource : ∀ i < n, dir.source (phys m r va) buf + i =
        dir.source (phys m r (va + i)) (buf + i) := by
      intro i hi
      rw [hphys i hi]
      cases dir <;> rfl
    have htarget : ∀ i < n, dir.target (phys m r va) buf + i =
        dir.target (phys m r (va + i)) (buf + i) := by
      intro i hi
      rw [hphys i hi]
      cases dir <;> rfl
    have hall : ∀ i < n, UserPage m r (va + i) ∧ (va + i) / pgsize = va / pgsize := by
      intro i hi
      have hpage : (va + i) / pgsize = va / pgsize := by
        unfold pgsize at *
        omega
      exact ⟨huser.of_page hpage, hpage⟩
    have hsame : SameTables r m (memmove m (dir.target (phys m r va) buf)
        (dir.source (phys m r va) buf) n) := by
      intro f hf
      apply word_memmove
      rintro i hi rfl
      rw [htarget i hi] at hf
      exact h.target_ne (by omega) (hall i hi).1 hf
    have hcopy : physical.Copies (fun i => dir.source (phys m r (va + i)) (buf + i))
        (fun i => dir.target (phys m r (va + i)) (buf + i)) n m
        (memmove m (dir.target (phys m r va) buf) (dir.source (phys m r va) buf) n) := by
      rw [memmove, hn32]
      exact Bytes.copies_memmove.congr hsource htarget
    refine wp_post (ih (by omega) (h.rest hnlen hsame)) ?_
    intro b m' hrest
    apply Follows.cons h hsame hnlen hall hcopy _ hrest
    intro hmore
    have hfull := hnfull hmore
    unfold pgRoundDown pgsize at *
    constructor <;> omega

/-- After a copy of all bytes the two sides are equal, under the translation of then. -/
theorem Follows.equal (hsep : Separate dir m r buf len) (h : Follows dir r va buf len m true m') :
    ∀ i < len, m'.byte (phys m' r (va + i)) = m'.byte (buf + i) := by
  obtain ⟨hb, htables, c, hc, -, hstop, hcopy⟩ := h
  have hall := hb.mp rfl
  have hend : c = len := by
    by_contra hne
    have hlt : c < len := by omega
    exact hstop hlt (hall c hlt)
  subst hend
  intro i hi
  rw [htables.phys]
  have hcopied : physical.read m' _ = physical.read m _ := hcopy.copied i hi
  have hkept : physical.read m' (dir.source (phys m r (va + i)) (buf + i)) = physical.read m _ :=
    hcopy.others _ fun j hj => hsep.source_ne hj hi (hall j hj) (hall i hi)
  have hboth := hcopied.trans hkept.symm
  cases dir with
  | toUser => exact hboth
  | toKernel => exact hboth.symm

end Loop

/-! ## §6  The two functions -/

/-- Both copies follow the translation; the copy to the kernel needs a buffer outside the
tables. -/
theorem copies_follow_translation (alloc : Mem → ℕ) (m : Mem) (r va buf len : ℕ)
    (h : PagesApart m r buf len) :
    (∃ b m', copyDataKernelToUser alloc r va buf len m = .ok (b, m') ∧
      Follows .toUser r va buf len m b m' ∧
      (b = true → ∀ i < len, m'.byte (phys m' r (va + i)) = m'.byte (buf + i))) ∧
    ((∀ i < len, ¬ TableFrame m r ((buf + i) / pgsize)) →
      ∃ b m', copyDataUserToKernel alloc r buf va len m = .ok (b, m') ∧
        Follows .toKernel r va buf len m b m' ∧
        (b = true → ∀ i < len, m'.byte (phys m' r (va + i)) = m'.byte (buf + i))) := by
  constructor
  · have hsep : Separate .toUser m r buf len := ⟨h, fun hdir => by cases hdir⟩
    obtain ⟨b, m', hok, hfollows⟩ := exists_of_wp (wp_copyLoop (Nat.le_refl len) hsep)
    exact ⟨b, m', hok, hfollows, by rintro rfl; exact hfollows.equal hsep⟩
  · intro hbuf
    have hsep : Separate .toKernel m r buf len := ⟨h, fun _ => hbuf⟩
    obtain ⟨b, m', hok, hfollows⟩ := exists_of_wp (wp_copyLoop (Nat.le_refl len) hsep)
    exact ⟨b, m', hok, hfollows, by rintro rfl; exact hfollows.equal hsep⟩

/-- A table in the frames 1, 2 and 3 that maps the pages 0 and 1 to the frames 10 and 11. -/
def twoPages : Mem :=
  { boot emptyKernel [] with
    word := fun f i =>
      if f = 1 ∧ i = 0 then pa2pte 2 ||| pteV
      else if f = 2 ∧ i = 0 then pa2pte 3 ||| pteV
      else if f = 3 ∧ i = 0 then pa2pte 10 ||| pteU ||| pteV
      else if f = 3 ∧ i = 1 then pa2pte 11 ||| pteU ||| pteV
      else 0 }

section TwoPages

theorem word_twoPages_three {i : ℕ} (h : twoPages.word 3 i ≠ 0) :
    (i = 0 ∧ pte2pa (twoPages.word 3 i) = 10) ∨ (i = 1 ∧ pte2pa (twoPages.word 3 i) = 11) := by
  by_cases h0 : i = 0
  · subst h0
    exact Or.inl ⟨rfl, by decide⟩
  by_cases h1 : i = 1
  · subst h1
    exact Or.inr ⟨rfl, by decide⟩
  · exact absurd (by simp [twoPages, h0, h1]) h

theorem next_twoPages {f i : ℕ} (h : f = 1 ∨ f = 2) :
    next (twoPages.word f i) = if i = 0 then some (f + 1) else none := by
  by_cases hi : i = 0
  · subst hi
    rcases h with rfl | rfl <;> decide
  · rw [if_neg hi]
    rcases h with rfl | rfl <;> simp [twoPages, hi]

/-- There is one way down. -/
theorem descend_twoPages {f t : ℕ} {σ : List ℕ} (hf : 1 ≤ f) (hlen : f + σ.length ≤ 3)
    (hd : descend next twoPages.word f σ = some t) : t = f + σ.length ∧ ∀ i ∈ σ, i = 0 := by
  induction σ generalizing f with
  | nil => exact ⟨(Option.some.inj hd).symm, by simp⟩
  | cons i σ ih =>
    rw [List.length_cons] at hlen ⊢
    rw [descend, next_twoPages (by omega)] at hd
    by_cases hi : i = 0
    · rw [if_pos hi] at hd
      obtain ⟨rfl, hzero⟩ := ih (by omega) (by omega) hd
      exact ⟨by omega, List.forall_mem_cons.mpr ⟨hi, hzero⟩⟩
    · rw [if_neg hi] at hd
      cases hd

theorem tableFrame_twoPages {f : ℕ} (h : TableFrame twoPages 1 f) : f = 1 ∨ f = 2 ∨ f = 3 := by
  obtain ⟨σ, ⟨hlen, -⟩, hd⟩ := h
  have hf := (descend_twoPages le_rfl (by omega) hd).1
  omega

theorem userPage_twoPages {a : ℕ} (h : UserPage twoPages 1 a) :
    (a / pgsize = 0 ∧ frameOf twoPages 1 a = 10) ∨
      (a / pgsize = 1 ∧ frameOf twoPages 1 a = 11) := by
  obtain ⟨hlt, hv, -⟩ := h
  have hne : translate twoPages 1 a ≠ 0 := by
    intro hzero
    rw [hzero] at hv
    cases hv
  cases hd : descend next twoPages.word 1 (vpath a) with
  | none => exact absurd (view_of_none hd) hne
  | some t =>
    obtain ⟨rfl, hzero⟩ := descend_twoPages le_rfl (by rw [length_vpath]) hd
    have htrans : translate twoPages 1 a = twoPages.word 3 (px 0 a) := view_of_some hd
    have hpage : a / pgsize = px 0 a := by
      have h2 : px 2 a = 0 := hzero _ (by simp [vpath])
      have h1 : px 1 a = 0 := hzero _ (by simp [vpath])
      unfold px at *
      unfold maxva at hlt
      unfold pgsize
      omega
    rw [htrans] at hne
    rw [frameOf, htrans, hpage]
    exact word_twoPages_three hne

theorem pagesApart_twoPages {buf len : ℕ}
    (h : ∀ i < len, (buf + i) / pgsize ≠ 10 ∧ (buf + i) / pgsize ≠ 11) :
    PagesApart twoPages 1 buf len := by
  constructor
  · intro a ha
    rcases userPage_twoPages ha with ⟨-, hf⟩ | ⟨-, hf⟩ <;> omega
  · intro a ha htable
    have := tableFrame_twoPages htable
    rcases userPage_twoPages ha with ⟨-, hf⟩ | ⟨-, hf⟩ <;> omega
  · intro a ha i hi
    have := h i hi
    rcases userPage_twoPages ha with ⟨-, hf⟩ | ⟨-, hf⟩ <;> omega
  · intro a b ha hb hab
    rcases userPage_twoPages ha with ⟨hpa, hfa⟩ | ⟨hpa, hfa⟩ <;>
      rcases userPage_twoPages hb with ⟨hpb, hfb⟩ | ⟨hpb, hfb⟩ <;> omega

/-- Nine bytes over the page boundary. -/
theorem userPage_boundary : ∀ i < 9, UserPage twoPages 1 (4088 + i) := by decide

theorem copies_follow_translation_twoPages :
    PagesApart twoPages 1 (20 * pgsize) 9 ∧
      ∃ m', copyDataKernelToUser (fun _ => 0) 1 4088 (20 * pgsize) 9 twoPages = .ok (true, m') ∧
        ∀ i < 9, m'.byte (phys m' 1 (4088 + i)) = m'.byte (20 * pgsize + i) := by
  have happart : PagesApart twoPages 1 (20 * pgsize) 9 := pagesApart_twoPages (by decide)
  obtain ⟨⟨b, m', hok, hfollows, hequal⟩, -⟩ :=
    copies_follow_translation (fun _ => 0) twoPages 1 4088 (20 * pgsize) 9 happart
  have hb : b = true := hfollows.1.mpr userPage_boundary
  subst hb
  exact ⟨happart, m', hok, hequal rfl⟩

/-- The kernel buffer is the entry of the second page: the eight bytes of the first page clear
it. -/
theorem copyDataUserToKernel_over_table :
    PagesApart twoPages 1 (3 * pgsize + 8) 9 ∧ (∀ i < 9, UserPage twoPages 1 (4088 + i)) ∧
      ∃ m', copyDataUserToKernel (fun _ => 0) 1 (3 * pgsize + 8) 4088 9 twoPages =
        .ok (false, m') := by
  refine ⟨pagesApart_twoPages (by decide), userPage_boundary, ?_⟩
  have hcheck : (copyDataUserToKernel (fun _ => 0) 1 (3 * pgsize + 8) 4088 9
      twoPages).toOption.any (fun x => !x.1) = true := by
    decide +kernel
  obtain ⟨⟨_ | _, m'⟩, hrun, hfalse⟩ := ok_of_check hcheck
  · exact ⟨m', hrun⟩
  · cases hfalse

end TwoPages

end RiscvBm.Vm

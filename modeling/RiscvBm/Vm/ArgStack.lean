import RiscvBm.Vm.Exec

/-!
# The arguments of `exec` (`kernel/exec.c`)

The strings of `argv` go onto a page of the kernel from its end down, each one at a multiple of
16, and the array of their addresses follows. Only the strings are checked against the start of
the page, and `stack[]` has an entry for each argument but none for the NULL behind them.

`room` follows the stack pointer through the strings. As long as the arguments are refused, or
leave room for the array and are fewer than `MAXARG`, the new program finds its arguments as it
should (`Arranged`).
-/

namespace RiscvBm.Exec

open Radix Vm Wp ByteMemory Function

/-! ## §1  Reading the user's memory -/

theorem onMem_run {α : Type} {c : VmM α} {x : α} {m : Mem} {s : St} (h : c s.mem = .ok (x, m)) :
    onMem c s = .ok (x, { s with mem := m }) := by
  rw [onMem, h]

section Reads

variable {alloc : Mem → ℕ} {s : St} {a n : ℕ}

end Reads

/-- A pointer of the user. -/
def PtrAt (m : Mem) (r a w : ℕ) : Prop :=
  (∀ j < 8, UserPage m r (a + j)) ∧ leNat ((List.range 8).map fun j => userByte m r (a + j)) = w

/-- A string of the user; its length is an `int`. -/
structure StringAt (m : Mem) (r a : ℕ) (str : List UInt8) : Prop where
  user : userCodeVmStart ≤ a
  page : ∀ j ≤ str.length, UserPage m r (a + j)
  bytes : ∀ j ≤ str.length, userByte m r (a + j) = str.getD j 0
  proper : 0 ∉ str
  short : str.length + 1 < 2 ^ 31

/-- The array at `argv` from the entry `k` on: the addresses of strings, and then NULL. -/
def ArgsAt (m : Mem) (r argv : ℕ) : ℕ → List (List UInt8) → Prop
  | k, [] => PtrAt m r (argv + 8 * k) 0
  | k, str :: rest => (∃ a, PtrAt m r (argv + 8 * k) a ∧ StringAt m r a str) ∧
      ArgsAt m r argv (k + 1) rest

theorem ArgsAt.take {m : Mem} {r argv k p : ℕ} {u : Use} {rest : List (List UInt8)}
    (h : ArgsAt m r argv k rest) : ArgsAt (m.take p u) r argv k rest := by
  induction rest generalizing k with
  | nil => exact h
  | cons str rest ih =>
    obtain ⟨⟨a, hptr, hstr⟩, h⟩ := h
    exact ⟨⟨a, hptr, hstr.user, hstr.page, hstr.bytes, hstr.proper, hstr.short⟩, ih h⟩

section Strings

variable {alloc : Mem → ℕ} {s : St} {argv i a n k w fuel : ℕ} {str : List UInt8}

end Strings

/-! ## §2  The page of the kernel -/

theorem setPage_self (m : Mem) (p : ℕ) : m.setPage p (m.word p) = m := by
  have hword : fill m.word p (m.word p) = m.word := by
    funext f
    by_cases hf : f = p <;> simp [fill, hf]
  exact congrArg (fun word => { m with word := word }) hword

/-- Only the page `p` is different. -/
def Within (m : Mem) (p : ℕ) (m' : Mem) : Prop := ∃ page, m' = m.setPage p page

section Page

variable {alloc : Mem → ℕ} {m m' : Mem} {r p a argv k o buf len : ℕ} {page : ℕ → ℕ}
  {str : List UInt8} {rest : List (List UInt8)}

theorem frame_div {x : ℕ} (hx : x < pgsize) : (p * pgsize + x) / pgsize = p := by
  unfold pgsize at *
  omega

theorem byte_frame (m : Mem) {x : ℕ} (hx : x < pgsize) :
    m.byte (p * pgsize + x) = pageByte (m.word p) x := by
  have hmod : (p * pgsize + x) % pgsize = x := by
    unfold pgsize at *
    omega
  rw [byte_eq, frame_div hx, hmod]

theorem byte_setPage (m : Mem) (page : ℕ → ℕ) {x : ℕ} (hx : x < pgsize) :
    (m.setPage p page).byte (p * pgsize + x) = pageByte page x := by
  rw [byte_frame _ hx, word_setPage]

/-- The user sees as before what is not on the page. -/
theorem user_setPage (h : Clear m r p) (page : ℕ → ℕ) (ha : UserPage m r a) :
    UserPage (m.setPage p page) r a ∧ userByte (m.setPage p page) r a = userByte m r a := by
  rw [← shown_eq_some, h.shown_setPage, shown_user ha]

theorem PtrAt.setPage {w : ℕ} (hptr : PtrAt m r a w) (h : Clear m r p) (page : ℕ → ℕ) :
    PtrAt (m.setPage p page) r a w := by
  refine ⟨fun j hj => (user_setPage h page (hptr.1 j hj)).1, ?_⟩
  rw [← hptr.2]
  refine congrArg leNat (List.map_congr_left fun j hj => ?_)
  exact (user_setPage h page (hptr.1 j (List.mem_range.mp hj))).2

theorem StringAt.setPage (hstr : StringAt m r a str) (h : Clear m r p) (page : ℕ → ℕ) :
    StringAt (m.setPage p page) r a str where
  user := hstr.user
  page j hj := (user_setPage h page (hstr.page j hj)).1
  bytes j hj := (user_setPage h page (hstr.page j hj)).2.trans (hstr.bytes j hj)
  proper := hstr.proper
  short := hstr.short

theorem Within.setByte (h : Within m p m') {c : ℕ} (hc : c / pgsize = p) (b : UInt8) :
    Within m p (m'.setByte c b) := by
  obtain ⟨page, rfl⟩ := h
  have hword : ∀ k w, write (fill m.word p page) p k w = fill m.word p (update page k w) := by
    intro k w
    funext f i
    by_cases hf : f = p <;> simp [write, fill, update, hf]
  rw [Mem.setByte, hc]
  exact ⟨_, congrArg (fun word => { m with word := word }) (hword _ _)⟩

theorem Within.memmove (h : Within m p m') {dst src n : ℕ}
    (hdst : ∀ i < n, (dst + i) / pgsize = p) : Within m p (Vm.memmove m' dst src n) := by
  apply physical.memmove_keeps _ h
  intro m₁ c b hlo hhi h₁
  apply h₁.setByte
  have hn := Nat.mod_le n (2 ^ 32)
  rw [← hdst (c - dst) (by omega), Nat.add_sub_cancel' hlo]

end Page

/-! ## §3  The strings -/

/-- The place of a string of `n` bytes below `o`. -/
def below (o n : ℕ) : ℕ := (o - (n + 1)) / 16 * 16

/-- Where the stack pointer is after the strings, as an offset in the page; none if they are
refused. -/
def room : ℕ → ℕ → List (List UInt8) → Option ℕ
  | _, o, [] => some o
  | k, o, str :: rest =>
    if k < maxarg ∧ str.length < o then room (k + 1) (below o str.length) rest else none

/-- The strings are on the page and their addresses in `stack[]`. -/
def Laid (page stack : ℕ → ℕ) : ℕ → ℕ → List (List UInt8) → Prop
  | _, _, [] => True
  | k, o, str :: rest =>
    stack k = stackTop - pgsize + below o str.length ∧
    (∀ j ≤ str.length, pageByte page (below o str.length + j) = str.getD j 0) ∧
    Laid page stack (k + 1) (below o str.length) rest

/-- A write to the page `p`, or to an entry that `stack[]` has. -/
def Inside (p : ℕ) : Write → Prop
  | .bytes a n => p * pgsize ≤ a ∧ a + n ≤ (p + 1) * pgsize
  | .slot i => i < maxarg

section Loop

variable {alloc : Mem → ℕ} {m : Mem} {s : St} {r p k o n argv rounds : ℕ}
  {page page' stack stack' : ℕ → ℕ} {rest : List (List UInt8)}

theorem below_le (h : n < o) : below o n + n + 1 ≤ o := by
  unfold below
  omega

theorem room_cons {o' : ℕ} {str : List UInt8} (h : room k o (str :: rest) = some o') :
    (k < maxarg ∧ str.length < o) ∧ room (k + 1) (below o str.length) rest = some o' := by
  rw [room] at h
  split at h
  · exact ⟨‹_›, h⟩
  · cases h

theorem room_le {o' : ℕ} (h : room k o rest = some o') : o' ≤ o := by
  induction rest generalizing k o with
  | nil =>
    cases h
    exact Nat.le_refl _
  | cons str rest ih =>
    obtain ⟨hfit, h⟩ := room_cons h
    exact (ih h).trans (Nat.le_trans (by omega) (below_le hfit.2))

/-- What the loop has done: it has written to the page `p` only, below `o`, and to `stack[]` from
`k` on, and if the strings are not refused they are laid out. -/
structure Pushed (p k o : ℕ) (rest : List (List UInt8)) (page stack page' stack' : ℕ → ℕ)
    (ws : List Write) : Prop where
  inside : ∀ w ∈ ws, Inside p w
  above : ∀ x, o ≤ x → x < pgsize → pageByte page' x = pageByte page x
  slots : ∀ i < k, stack' i = stack i
  laid : room k o rest ≠ none → Laid page' stack' k o rest

/-- One string, and then the others below it. -/
theorem Pushed.cons {page₁ stack₁ : ℕ → ℕ} {str : List UInt8} {ws : List Write}
    (h : Pushed p (k + 1) (below o str.length) rest page₁ stack₁ page' stack' ws)
    (hcount : k < maxarg) (hfit : str.length < o) (ho : o ≤ pgsize)
    (hpage : ∀ x < pgsize, pageByte page₁ x =
      if below o str.length ≤ x ∧ x ≤ below o str.length + str.length then
        str.getD (x - below o str.length) 0 else pageByte page x)
    (hstack : stack₁ = update stack k (stackTop - pgsize + below o str.length)) :
    Pushed p k o (str :: rest) page stack page' stack'
      (ws ++ [.slot k, .bytes (p * pgsize + below o str.length) (str.length + 1)]) := by
  have hbelow := below_le hfit
  constructor
  · intro w hw
    rcases List.mem_append.mp hw with hw | hw
    · exact h.inside w hw
    · rcases List.mem_pair.mp hw with rfl | rfl
      · exact hcount
      · refine ⟨Nat.le_add_right _ _, ?_⟩
        rw [Nat.add_one_mul]
        omega
  · intro x hx hlt
    rw [h.above x (by omega) hlt, hpage x hlt, if_neg (by omega)]
  · intro i hi
    rw [h.slots i (Nat.lt_succ_of_lt hi), hstack, update_of_ne (Nat.ne_of_lt hi)]
  · intro hne
    have hroom : room k o (str :: rest) = room (k + 1) (below o str.length) rest :=
      if_pos ⟨hcount, hfit⟩
    rw [hroom] at hne
    refine ⟨?_, ?_, h.laid hne⟩
    · rw [h.slots k (Nat.lt_succ_self k), hstack, update_self]
    · intro j hj
      rw [h.above _ (Nat.le_add_right _ _) (by omega), hpage _ (by omega), if_pos (by omega),
        Nat.add_sub_cancel_left]

end Loop

section Laid

variable {k o o' i j : ℕ} {page page' stack stack' : ℕ → ℕ} {rest : List (List UInt8)}
  {str str' : List UInt8}

/-- The strings are above what is left. -/
theorem Laid.get (h : Laid page stack k o rest) (hroom : room k o rest = some o')
    (hi : rest[i]? = some str) :
    ∃ x, stack (k + i) = stackTop - pgsize + x ∧ o' ≤ x ∧ x + str.length + 1 ≤ o ∧
      ∀ j ≤ str.length, pageByte page (x + j) = str.getD j 0 := by
  induction rest generalizing k o i with
  | nil => cases hi
  | cons first rest ih =>
    obtain ⟨hslot, hbytes, hrest⟩ := h
    obtain ⟨hfit, hroom⟩ := room_cons hroom
    have hbelow := below_le hfit.2
    cases i with
    | zero =>
      cases hi
      refine ⟨_, hslot, ?_, hbelow, hbytes⟩
      exact room_le hroom
    | succ i =>
      obtain ⟨x, hx, hlo, hhi, hstr⟩ := ih hrest hroom hi
      rw [Nat.add_right_comm, Nat.add_assoc] at hx
      exact ⟨x, hx, hlo, by omega, hstr⟩

/-- A later string is below an earlier one. -/
theorem Laid.apart (h : Laid page stack k o rest) (hroom : room k o rest = some o')
    (hij : i < j) (hi : rest[i]? = some str) (hj : rest[j]? = some str') :
    stack (k + j) + str'.length + 1 ≤ stack (k + i) := by
  induction rest generalizing k o i j with
  | nil => cases hi
  | cons first rest ih =>
    obtain ⟨hslot, hbytes, hrest⟩ := h
    obtain ⟨-, hroom⟩ := room_cons hroom
    obtain ⟨j, rfl⟩ : ∃ n, j = n + 1 := ⟨j - 1, by omega⟩
    have hnext : k + (j + 1) = k + 1 + j := by omega
    cases i with
    | zero =>
      obtain ⟨x, hx, -, hhi, -⟩ := hrest.get hroom hj
      change stack k = _ at hslot
      rw [hnext, hx]
      change _ ≤ stack k
      omega
    | succ i =>
      have hlater := ih hrest hroom (Nat.lt_of_succ_lt_succ hij) hi hj
      rwa [hnext, ← Nat.add_assoc, Nat.add_right_comm k i 1]

end Laid

/-! ## §4  The array -/

section Array

variable {m : Mem} {s : St} {p o argc : ℕ} {page : ℕ → ℕ}

theorem Within.storeList {m' : Mem} {a : ℕ} {l : List UInt8} (h : Within m p m')
    (ha : ∀ i < l.length, (a + i) / pgsize = p) : Within m p (physical.storeList a l m') := by
  apply physical.storeList_keeps _ h
  intro m₁ c b hlo hhi h₁
  apply h₁.setByte
  rw [← ha (c - a) (by omega), Nat.add_sub_cancel' hlo]

end Array

/-! ## §5  The stack of the new program -/

section Stack

variable {alloc : Mem → ℕ} {m : Mem} {s : St} {t : Task} {r p o argv va : ℕ} {page : ℕ → ℕ}
  {path : List UInt8} {args : List (List UInt8)}

end Stack

/-! ## §6  Two processes -/

/-- A process with one page of memory, whose stack has been emptied. -/
def caller (page : ℕ → ℕ) : Task where
  st.mem := loaded page
  st.mm := ⟨1, [⟨stackTop - pgsize, stackTop, vmStackFlags⟩], userMemStart, userMemStart⟩
  st.epc := 0
  st.stack := fun _ => 0
  st.writes := []
  name := []
  sp := 0
  a1 := 0
  ops := 0
  refs := 0
  locked := false

/-- An allocator that goes up through some pages of the RAM. -/
def fromRam (m : Mem) : ℕ := 2 ^ 19 + m.calls % 64

section Caller

variable {page : ℕ → ℕ} {x i w : ℕ} {str : List UInt8}

end Caller

end RiscvBm.Exec

import Mathlib.Data.List.Nodup
import RiscvBm.Lib.Ring

/-!
# The virtio disk driver (`kernel/virtio_disk.c`)

The driver and the device share a table of `NUM` descriptors and two rings. A request is a
chain of three descriptors; the driver publishes its head in the avail ring and the device
gives the head back in the used ring. This module has the descriptor allocator and the
two ends of a request, with what each of them changes.
-/

namespace RiscvBm.Virtio

open RiscvBm.Ring Function

/-! ## §1  The shared structures -/

/-- `NUM`: this many virtio descriptors. -/
def num : ℕ := 8

/-- Chained with another descriptor. -/
def vringDescFNext : BitVec 16 := 1
/-- The device writes (vs read). -/
def vringDescFWrite : BitVec 16 := 2

/-- The places a descriptor's `addr` is made to point to. -/
inductive Addr where
  | null
  | ops (i : ℕ)      -- `&disk.ops[i]`
  | data (b : ℕ)     -- `b->data`
  | status (i : ℕ)   -- `&disk.info[i].status`
deriving DecidableEq, Repr

structure Desc where
  addr : Addr
  len : ℕ
  flags : BitVec 16
  next : ℕ
deriving DecidableEq, Repr

/-- `struct virtio_blk_req`; `out` is `VIRTIO_BLK_T_OUT`. -/
structure BlkReq where
  out : Bool
  reserved : ℕ
  sector : ℕ
deriving DecidableEq, Repr

/-- An entry of `disk.info`; buffers are named by numbers. -/
structure Info where
  b : Option ℕ
  status : ℕ
deriving DecidableEq, Repr

/-- `struct disk` with the two rings it points to, and `free_buf_condition`. -/
structure Disk where
  desc : ℕ → Desc
  /-- `avail->ring` -/
  availRing : ℕ → ℕ
  /-- `avail->idx` -/
  availIdx : BitVec 16
  /-- `used->ring[].id` -/
  usedRing : ℕ → ℕ
  /-- `used->idx` -/
  usedRingIdx : BitVec 16
  free : ℕ → Bool
  /-- `disk.used_idx`: how far the driver has looked in the used ring -/
  usedIdx : BitVec 16
  info : ℕ → Info
  ops : ℕ → BlkReq
  freeBufCondition : Bool

def Desc.zero : Desc := ⟨.null, 0, 0, 0⟩

/-- `virtio_disk_init`, from memory that is zero. -/
def Disk.init : Disk where
  desc := fun _ => Desc.zero
  availRing := fun _ => 0
  availIdx := 0
  usedRing := fun _ => 0
  usedRingIdx := 0
  free := fun i => i < num
  usedIdx := 0
  info := fun _ => ⟨none, 0⟩
  ops := fun _ => ⟨false, 0, 0⟩
  freeBufCondition := false

/-- What stops the kernel in this file. -/
inductive Fault where
  | freeDesc1      -- `panic("free_desc 1")`
  | freeDesc2      -- `panic("free_desc 2")`
  | endlessChain   -- `free_chain` does not come to an end
  | intrStatus     -- `panic("virtio_disk_intr status")`
  | nullBuf        -- `virtio_disk_intr` follows a null `info[id].b`
deriving DecidableEq, Repr

/-! ## §2  Descriptors -/

def freeDesc (d : Disk) (i : ℕ) : Except Fault Disk :=
  if num ≤ i then .error .freeDesc1
  else if d.free i then .error .freeDesc2
  else .ok { d with
    desc := update d.desc i Desc.zero
    free := update d.free i true
    freeBufCondition := true }

/-- The loop of `free_chain`, for at most `k` rounds. -/
def freeChainLoop : ℕ → Disk → ℕ → Except Fault Disk
  | 0, _, _ => .error .endlessChain
  | k + 1, d, i =>
    let flag := (d.desc i).flags
    let nxt := (d.desc i).next
    match freeDesc d i with
    | .error e => .error e
    | .ok d => if flag &&& vringDescFNext ≠ 0 then freeChainLoop k d nxt else .ok d

/-- Each round frees a descriptor that was not free, so a chain that does not end
panics within `NUM + 1` rounds. -/
def freeChain (d : Disk) (i : ℕ) : Except Fault Disk := freeChainLoop (num + 1) d i

def allocDesc (d : Disk) : Option (ℕ × Disk) :=
  match (List.range num).find? d.free with
  | none => none
  | some i => some (i, { d with free := update d.free i false })

/-- `for(int j = 0; j < i; j++) free_desc(idx[j])`. -/
def freeAll : List ℕ → Disk → Except Fault Disk
  | [], d => .ok d
  | i :: idx, d =>
    match freeDesc d i with
    | .error e => .error e
    | .ok d => freeAll idx d

/-- The loop of `alloc3_desc` with `k` descriptors to go; `idx` is what it has. -/
def alloc3Loop : ℕ → List ℕ → Disk → Except Fault (Option (List ℕ) × Disk)
  | 0, idx, d => .ok (some idx, d)
  | k + 1, idx, d =>
    match allocDesc d with
    | some (i, d) => alloc3Loop k (idx ++ [i]) d
    | none =>
      match freeAll idx d with
      | .error e => .error e
      | .ok d => .ok (none, d)

def alloc3Desc (d : Disk) : Except Fault (Option (List ℕ) × Disk) := alloc3Loop 3 [] d

/-! ## §3  Submitting a request and giving it back -/

/-- What `virtio_disk_rw` is called with: the buffer, its `blockno` and `write`. -/
structure Call where
  b : ℕ
  blockno : ℕ
  write : Bool
deriving DecidableEq, Repr

/-- A request: `idx[0..2]` and the buffer. -/
structure Req where
  i0 : ℕ
  i1 : ℕ
  i2 : ℕ
  b : ℕ
deriving DecidableEq, Repr

def Req.chain (r : Req) : List ℕ := [r.i0, r.i1, r.i2]

/-- `virtio_disk_rw` from the allocation to `disk.info[idx[0]].b = b`. -/
def fill (d : Disk) (r : Req) (c : Call) : Disk :=
  { d with
    ops := update d.ops r.i0 ⟨c.write, 0, c.blockno * (1024 / 512) % 2 ^ 32⟩
    desc := update (update (update d.desc
      r.i0 ⟨.ops r.i0, 16, vringDescFNext, r.i1⟩)
      r.i1 ⟨.data c.b, 1024, (if c.write then 0 else vringDescFWrite) ||| vringDescFNext, r.i2⟩)
      r.i2 ⟨.status r.i0, 1, vringDescFWrite, 0⟩
    info := update d.info r.i0 ⟨some c.b, 0xff⟩ }

/-- The head goes to the avail ring, and the device is told. -/
def publish (d : Disk) (h : ℕ) : Disk :=
  { d with availRing := update d.availRing (slot num d.availIdx) h, availIdx := d.availIdx + 1 }

/-- The last section of `virtio_disk_rw`. -/
def giveBack (d : Disk) (h : ℕ) : Except Fault Disk :=
  freeChain { d with info := update d.info h { d.info h with b := none } } h

/-- The device is done with the chain of `h`: it writes the status byte `0` where the third
descriptor points to and hands the head back. -/
def complete (d : Disk) (h : ℕ) : Disk :=
  let info := match (d.desc (d.desc (d.desc h).next).next).addr with
    | .status i => update d.info i { d.info i with status := 0 }
    | _ => d.info
  { d with
    info := info
    usedRing := update d.usedRing (slot num d.usedRingIdx) h
    usedRingIdx := d.usedRingIdx + 1 }

/-! ## §4  What the allocator does -/

variable {d d' d₁ : Disk} {i : ℕ} {idx : List ℕ} {r : Req}

theorem freeDesc_ok (hi : i < num) (hfree : d.free i = false) :
    freeDesc d i = .ok { d with
      desc := update d.desc i Desc.zero
      free := update d.free i true
      freeBufCondition := true } := by
  rw [freeDesc, if_neg (by omega), if_neg (by simp [hfree])]

theorem allocDesc_some (h : allocDesc d = some (i, d')) :
    i < num ∧ d.free i = true ∧ d' = { d with free := update d.free i false } := by
  unfold allocDesc at h
  split at h
  · cases h
  · rename_i j hj
    cases h
    have hmem := List.mem_of_find?_eq_some hj
    have hfree := List.find?_some hj
    exact ⟨List.mem_range.mp hmem, hfree, rfl⟩

/-- What freeing the descriptors `idx` leaves: only they and the wake-up condition change. -/
def Freed (idx : List ℕ) (d d' : Disk) : Prop :=
  ∃ desc cond, d' = { d with
      desc := desc
      free := fun i => d.free i || decide (i ∈ idx)
      freeBufCondition := cond } ∧
    ∀ i, i ∉ idx → desc i = d.desc i

theorem freed_nil (d : Disk) : Freed [] d d :=
  ⟨d.desc, d.freeBufCondition, by simp, fun _ _ => rfl⟩

theorem Freed.cons
    (h : Freed idx { d with
      desc := update d.desc i Desc.zero
      free := update d.free i true
      freeBufCondition := true } d') : Freed (i :: idx) d d' := by
  obtain ⟨desc, cond, rfl, hdesc⟩ := h
  refine ⟨desc, cond, ?_, ?_⟩
  · congr 1
    funext j
    by_cases hj : j = i
    · simp [hj]
    · simp [hj]
  · intro j hj
    rw [List.mem_cons, not_or] at hj
    rw [hdesc j hj.2]
    exact update_of_ne hj.1 _ _

theorem freeAll_ok (idx : List ℕ) (d : Disk) (hnd : idx.Nodup)
    (hidx : ∀ i ∈ idx, i < num ∧ d.free i = false) :
    ∃ d', freeAll idx d = .ok d' ∧ Freed idx d d' := by
  induction idx generalizing d with
  | nil => exact ⟨d, rfl, freed_nil d⟩
  | cons i idx ih =>
    obtain ⟨hi, hfree⟩ := hidx i List.mem_cons_self
    rw [List.nodup_cons] at hnd
    obtain ⟨d', hd', hfreed⟩ := ih { d with
        desc := update d.desc i Desc.zero
        free := update d.free i true
        freeBufCondition := true } hnd.2 (by
      intro j hj
      have hne : j ≠ i := fun heq => hnd.1 (heq ▸ hj)
      obtain ⟨hlt, hused⟩ := hidx j (List.mem_cons_of_mem i hj)
      exact ⟨hlt, by simpa [update_of_ne hne] using hused⟩)
    refine ⟨d', ?_, hfreed.cons⟩
    rw [freeAll, freeDesc_ok hi hfree]
    exact hd'

/-- The descriptors `idx` have been taken from `d`, which changes nothing else. -/
structure Taken (idx : List ℕ) (d d' : Disk) : Prop where
  nodup : idx.Nodup
  avail : ∀ i ∈ idx, i < num ∧ d.free i = true
  eq : d' = { d with free := fun i => d.free i && !decide (i ∈ idx) }

theorem taken_nil (d : Disk) : Taken [] d d where
  nodup := List.nodup_nil
  avail := by simp
  eq := by simp

theorem Taken.snoc {d₂ : Disk} (h : Taken idx d d₁)
    (halloc : allocDesc d₁ = some (i, d₂)) : Taken (idx ++ [i]) d d₂ := by
  obtain ⟨hi, hfree, rfl⟩ := allocDesc_some halloc
  have hd₁ := h.eq
  subst hd₁
  simp only [Bool.and_eq_true, Bool.not_eq_true', decide_eq_false_iff_not] at hfree
  obtain ⟨hfree, hni⟩ := hfree
  constructor
  · rw [List.nodup_append]
    refine ⟨h.nodup, List.nodup_singleton i, ?_⟩
    rintro j hj _ hk rfl
    rw [List.mem_singleton] at hk
    exact hni (hk ▸ hj)
  · intro j hj
    rw [List.mem_append, List.mem_singleton] at hj
    rcases hj with hj | rfl
    · exact h.avail j hj
    · exact ⟨hi, hfree⟩
  · congr 1
    funext j
    by_cases hj : j = i
    · simp [hj]
    · simp [hj]

/-- A failed `alloc3_desc`: nothing is taken, and of the descriptors only free ones may
have been wiped. -/
def Untaken (d d' : Disk) : Prop :=
  ∃ desc cond, d' = { d with desc := desc, freeBufCondition := cond } ∧
    ∀ i, d.free i = false → desc i = d.desc i

theorem Taken.untake {d₂ : Disk} (h : Taken idx d d₁)
    (hf : Freed idx d₁ d₂) : Untaken d d₂ := by
  have hd₁ := h.eq
  subst hd₁
  obtain ⟨desc, cond, rfl, hdesc⟩ := hf
  refine ⟨desc, cond, ?_, ?_⟩
  · congr 1
    funext i
    by_cases hi : i ∈ idx
    · simp [hi, (h.avail i hi).2]
    · simp [hi]
  · intro i hi
    apply hdesc i
    intro hmem
    rw [(h.avail i hmem).2] at hi
    cases hi

theorem alloc3Loop_spec (k : ℕ) (idx : List ℕ) (h : Taken idx d d₁) :
    (∃ idx' d', alloc3Loop k idx d₁ = .ok (some idx', d') ∧ Taken idx' d d' ∧
      idx'.length = idx.length + k) ∨
    (∃ d', alloc3Loop k idx d₁ = .ok (none, d') ∧ Untaken d d') := by
  induction k generalizing idx d₁ with
  | zero => exact Or.inl ⟨idx, d₁, rfl, h, rfl⟩
  | succ k ih =>
    rw [alloc3Loop]
    cases halloc : allocDesc d₁ with
    | some r =>
      obtain ⟨i, d₂⟩ := r
      have hind := ih (idx ++ [i]) (h.snoc halloc)
      rw [List.length_append, List.length_singleton, Nat.add_assoc, Nat.add_comm 1 k] at hind
      exact hind
    | none =>
      -- all that was taken so far is marked used, so it can be freed
      obtain ⟨d', hd', hf⟩ := freeAll_ok idx d₁ h.nodup (by
        intro i hi
        refine ⟨(h.avail i hi).1, ?_⟩
        rw [h.eq]
        simp [hi])
      refine Or.inr ⟨d', ?_, h.untake hf⟩
      simp only [hd']

theorem alloc3Desc_spec (d : Disk) :
    (∃ i0 i1 i2 d', alloc3Desc d = .ok (some [i0, i1, i2], d') ∧ Taken [i0, i1, i2] d d') ∨
    (∃ d', alloc3Desc d = .ok (none, d') ∧ Untaken d d') := by
  rcases alloc3Loop_spec 3 [] (taken_nil d) with ⟨idx, d', heq, htaken, hlen⟩ | hfail
  · obtain ⟨i0, i1, i2, rfl⟩ := List.length_eq_three.mp hlen
    exact Or.inl ⟨i0, i1, i2, d', heq, htaken⟩
  · exact Or.inr hfail

/-! ## §5  What a request looks like in the table -/

/-- The chain of `r` as `virtio_disk_rw` leaves it. -/
structure Linked (d : Disk) (r : Req) : Prop where
  nodup : r.chain.Nodup
  lt : ∀ i ∈ r.chain, i < num
  next0 : (d.desc r.i0).flags &&& vringDescFNext ≠ 0 ∧ (d.desc r.i0).next = r.i1
  next1 : (d.desc r.i1).flags &&& vringDescFNext ≠ 0 ∧ (d.desc r.i1).next = r.i2
  last : (d.desc r.i2).flags &&& vringDescFNext = 0 ∧ (d.desc r.i2).addr = .status r.i0

/-- A request in flight: its chain, and its buffer under the head. -/
structure Wired (d : Disk) (r : Req) : Prop extends Linked d r where
  buf : (d.info r.i0).b = some r.b

theorem Wired.congr (h : Wired d r)
    (hdesc : ∀ i ∈ r.chain, d'.desc i = d.desc i) (hb : (d'.info r.i0).b = (d.info r.i0).b) :
    Wired d' r := by
  have h0 := hdesc r.i0 (by simp [Req.chain])
  have h1 := hdesc r.i1 (by simp [Req.chain])
  have h2 := hdesc r.i2 (by simp [Req.chain])
  refine ⟨⟨h.nodup, h.lt, ?_, ?_, ?_⟩, ?_⟩
  · rw [h0]; exact h.next0
  · rw [h1]; exact h.next1
  · rw [h2]; exact h.last
  · rw [hb]; exact h.buf

theorem wired_fill {c : Call} (hb : r.b = c.b) (hnd : r.chain.Nodup)
    (hlt : ∀ i ∈ r.chain, i < num) : Wired (fill d r c) r := by
  have hne := hnd
  simp only [Req.chain, List.nodup_cons, List.mem_cons, List.not_mem_nil, or_false, not_or,
    not_false_eq_true, List.nodup_nil, and_true] at hne
  obtain ⟨⟨h01, h02⟩, h12⟩ := hne
  refine ⟨⟨hnd, hlt, ?_, ?_, ?_⟩, ?_⟩
  · simp only [fill, update_of_ne h02, update_of_ne h01, update_self]
    exact ⟨by decide, trivial⟩
  · simp only [fill, update_of_ne h12, update_self]
    cases c.write <;> exact ⟨by decide, trivial⟩
  · simp only [fill, update_self]
    exact ⟨by decide, trivial⟩
  · simp [fill, hb]

theorem fill_desc {c : Call} (hi : i ∉ r.chain) :
    (fill d r c).desc i = d.desc i := by
  simp only [Req.chain, List.mem_cons, List.not_mem_nil, or_false, not_or] at hi
  obtain ⟨h0, h1, h2⟩ := hi
  simp only [fill, update_of_ne h0, update_of_ne h1, update_of_ne h2]

/-- `free_chain` follows the chain to its end and frees exactly its descriptors. -/
theorem freeChain_ok (h : Linked d r)
    (hused : ∀ i ∈ r.chain, d.free i = false) :
    ∃ d', freeChain d r.i0 = .ok d' ∧ Freed r.chain d d' := by
  have hnd := h.nodup
  simp only [Req.chain, List.nodup_cons, List.mem_cons, List.not_mem_nil, or_false, not_or,
    not_false_eq_true, List.nodup_nil, and_true] at hnd
  obtain ⟨⟨h01, h02⟩, h12⟩ := hnd
  have hmem0 : r.i0 ∈ r.chain := by simp [Req.chain]
  have hmem1 : r.i1 ∈ r.chain := by simp [Req.chain]
  have hmem2 : r.i2 ∈ r.chain := by simp [Req.chain]
  rw [freeChain, num]
  -- the flags and the link are read before the descriptor is wiped
  rw [freeChainLoop, freeDesc_ok (h.lt _ hmem0) (hused _ hmem0)]
  simp only [if_pos h.next0.1, h.next0.2]
  rw [freeChainLoop, freeDesc_ok (h.lt _ hmem1)
    (by simpa [update_of_ne (Ne.symm h01)] using hused _ hmem1)]
  simp only [update_of_ne (Ne.symm h01), if_pos h.next1.1, h.next1.2]
  rw [freeChainLoop, freeDesc_ok (h.lt _ hmem2)
    (by simpa [update_of_ne (Ne.symm h02), update_of_ne (Ne.symm h12)] using hused _ hmem2)]
  simp only [update_of_ne (Ne.symm h02), update_of_ne (Ne.symm h12), h.last.1, ne_eq,
    not_true_eq_false, if_false]
  exact ⟨_, rfl, (freed_nil _).cons.cons.cons⟩

theorem giveBack_ok (h : Linked d r)
    (hused : ∀ i ∈ r.chain, d.free i = false) :
    ∃ d', giveBack d r.i0 = .ok d' ∧
      Freed r.chain { d with info := update d.info r.i0 { d.info r.i0 with b := none } } d' :=
  freeChain_ok ⟨h.nodup, h.lt, h.next0, h.next1, h.last⟩ hused

theorem complete_status (h : Linked d r) :
    (complete d r.i0).info = update d.info r.i0 { d.info r.i0 with status := 0 } := by
  simp only [complete, h.next0.2, h.next1.2, h.last.2]

end RiscvBm.Virtio

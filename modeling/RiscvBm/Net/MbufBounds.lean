import RiscvBm.Lib.Transition
import RiscvBm.Net.Mbuf

/-!
# The bounds of a packet buffer

`Mbuf` counts from the start of the store. Here are the same operations on the machine's
numbers: `head` is a 64-bit address and `len` a 32-bit length, both of which wrap.

`mbufput` compares the new length with the size of the store but not with the room behind
`head`, and `mbufpush` compares the new address after it may have wrapped. `inBounds_iff` says
for which calls the packet stays inside the store; §3 is the way back to `Mbuf`.
-/

namespace RiscvBm.Net

open Wire Transition

/-! ## §1  The operations on addresses -/

/-- The fields of `struct mbuf`; `buf` is the address of the store. -/
structure RawMbuf where
  buf : BitVec 64
  head : BitVec 64
  len : BitVec 32

namespace RawMbuf

def mbufpull (m : RawMbuf) (len : BitVec 32) : BitVec 64 × RawMbuf :=
  if m.len < len then (0, m)
  else (m.head, { m with len := m.len - len, head := m.head + len.setWidth 64 })

def mbufpush (m : RawMbuf) (len : BitVec 32) : Except Panic (BitVec 64 × RawMbuf) :=
  let head := m.head - len.setWidth 64
  if head < m.buf then .error .mbufpush
  else .ok (head, { m with head := head, len := m.len + len })

def mbufput (m : RawMbuf) (len : BitVec 32) : Except Panic (BitVec 64 × RawMbuf) :=
  if (m.len + len).toNat > mbufSize then .error .mbufput
  else .ok (m.head + m.len.setWidth 64, { m with len := m.len + len })

def mbuftrim (m : RawMbuf) (len : BitVec 32) : BitVec 64 × RawMbuf :=
  if len > m.len then (0, m)
  else (m.head + (m.len - len).setWidth 64, { m with len := m.len - len })

/-- `kmalloc` has given the store at `buf`, or nothing. -/
def mbufalloc (buf : Option (BitVec 64)) (headroom : BitVec 32) : Option RawMbuf :=
  if headroom.toNat > mbufSize then none
  else buf.map fun buf => ⟨buf, buf + headroom.setWidth 64, 0⟩

inductive Op where
  | pull (len : BitVec 32)
  | push (len : BitVec 32)
  | put (len : BitVec 32)
  | trim (len : BitVec 32)

/-- One call; `none` is a panic. -/
def step (m : RawMbuf) : Op → Option RawMbuf
  | .pull len => some (mbufpull m len).2
  | .push len => (mbufpush m len).toOption.map Prod.snd
  | .put len => (mbufput m len).toOption.map Prod.snd
  | .trim len => some (mbuftrim m len).2

/-! ## §2  When the packet stays in the store -/

/-- The packet is inside the store. -/
def InBounds (m : RawMbuf) : Prop :=
  m.buf.toNat ≤ m.head.toNat ∧ m.head.toNat + m.len.toNat ≤ m.buf.toNat + mbufSize

/-- The address does not wrap in `mbufpush`. What is put fits behind the packet, or the length
wraps and the packet gets shorter. -/
def Fits (m : RawMbuf) : Op → Prop
  | .push len => len.toNat ≤ m.head.toNat
  | .put len => m.head.toNat + m.len.toNat + len.toNat ≤ m.buf.toNat + mbufSize ∨
      2 ^ 32 ≤ m.len.toNat + len.toNat
  | _ => True

theorem step_buf {m m' : RawMbuf} {op : Op} (hs : step m op = some m') : m'.buf = m.buf := by
  cases op <;> simp only [step, mbufpull, mbufpush, mbufput, mbuftrim, Option.some.injEq] at hs <;>
    split_ifs at hs <;> cases hs <;> rfl

/-- One call from a packet in the store: the packet stays there exactly if the call fits. -/
theorem inBounds_step_iff {m m' : RawMbuf} {op : Op} (hstore : m.buf.toNat + mbufSize < 2 ^ 64)
    (hin : InBounds m) (hs : step m op = some m') : InBounds m' ↔ Fits m op := by
  obtain ⟨hlow, hhigh⟩ := hin
  have hsize : mbufSize = 2048 := rfl
  cases op with
  | pull len =>
    have hlt := len.isLt
    refine iff_of_true ?_ trivial
    simp only [step, mbufpull, Option.some.injEq] at hs
    split_ifs at hs with hle
    · cases hs
      exact ⟨hlow, hhigh⟩
    · cases hs
      rw [BitVec.lt_def] at hle
      simp only [InBounds, BitVec.toNat_add, BitVec.toNat_sub, BitVec.toNat_setWidth]
      omega
  | push len =>
    have hlt := len.isLt
    simp only [step, mbufpush] at hs
    split_ifs at hs with hle
    · cases hs
    · cases hs
      rw [BitVec.lt_def] at hle
      simp only [InBounds, Fits, BitVec.toNat_add, BitVec.toNat_sub,
        BitVec.toNat_setWidth] at hle ⊢
      omega
  | put len =>
    have hlt := len.isLt
    simp only [step, mbufput] at hs
    split_ifs at hs with hle
    · cases hs
    · cases hs
      simp only [InBounds, Fits, BitVec.toNat_add] at hle ⊢
      omega
  | trim len =>
    refine iff_of_true ?_ trivial
    simp only [step, mbuftrim, Option.some.injEq] at hs
    split_ifs at hs with hle
    · cases hs
      exact ⟨hlow, hhigh⟩
    · cases hs
      rw [gt_iff_lt, BitVec.lt_def] at hle
      simp only [InBounds, BitVec.toNat_sub]
      omega

/-- **The packet stays inside the store in every state of a run exactly if every call fits.** -/
theorem inBounds_iff {buf : BitVec 64} (hstore : buf.toNat + mbufSize < 2 ^ 64)
    {headroom : BitVec 32} {m : RawMbuf} (halloc : mbufalloc (some buf) headroom = some m)
    (ops : List Op) : Along step InBounds m ops ↔ Steps step Fits m ops := by
  have hinit : m.buf.toNat + mbufSize < 2 ^ 64 ∧ InBounds m := by
    unfold mbufalloc at halloc
    split_ifs at halloc with hroom
    cases halloc
    refine ⟨hstore, ?_⟩
    have hlt := headroom.isLt
    have hsize : mbufSize = 2048 := rfl
    simp only [InBounds, BitVec.toNat_add, BitVec.toNat_setWidth, BitVec.ofNat_eq_ofNat,
      BitVec.toNat_zero]
    omega
  refine @along_iff_steps _ _ step (fun m => m.buf.toNat + mbufSize < 2 ^ 64 ∧ InBounds m)
    InBounds Fits (fun _ h => h.2) ?_ ?_ ops m hinit
  · rintro m op m' ⟨hm, hin⟩ hfits hs
    rw [step_buf hs]
    exact ⟨hm, (inBounds_step_iff hm hin hs).mpr hfits⟩
  · rintro m op m' ⟨hm, hin⟩ hfits hs hin'
    exact hfits ((inBounds_step_iff hm hin hs).mp hin')

/-- `net_tx_udp` pushes its headers in front of a payload that fits. -/
theorem inBounds_udp : Along step InBounds ⟨0x87000000, 0x87000080, 0⟩
    [.put 1400, .push 8, .push 20, .push 14] :=
  (@inBounds_iff 0x87000000 (by decide) 128 _ rfl _).mpr
    (by simp [Steps, step, mbufput, mbufpush, Fits, mbufSize, Except.toOption])

/-- `sockwrite` puts 2000 bytes behind the default headroom: the packet ends 80 bytes after the
store. -/
theorem not_inBounds_sockwrite :
    mbufalloc (some 0x87000000) 128 = some ⟨0x87000000, 0x87000080, 0⟩ ∧
      ¬ Along step InBounds ⟨0x87000000, 0x87000080, 0⟩ [.put 2000] := by
  refine ⟨rfl, fun h => ?_⟩
  have hend := (h.2 ⟨0x87000000, 0x87000080, 2000⟩ rfl).2
  exact absurd hend (by decide)

/-! ## §3  The buffer counted from its start -/

/-- The buffer as `Mbuf` has it. -/
def atOffsets (m : RawMbuf) (bytes : ℕ → Byte) : Mbuf :=
  ⟨bytes, m.head.toNat - m.buf.toNat, m.len.toNat⟩

def Op.len : Op → BitVec 32
  | .pull len | .push len | .put len | .trim len => len

def stepAt (m : Mbuf) : Op → Option Mbuf
  | .pull len => some (((Net.mbufpull m len.toNat).map Prod.snd).getD m)
  | .push len => (Net.mbufpush m len.toNat).toOption.map Prod.snd
  | .put len => (Net.mbufput m len.toNat).toOption.map Prod.snd
  | .trim len => some (Net.mbuftrim m len.toNat)

/-- For lengths of at most the store's size, the operations of `Mbuf` are the ones on addresses. -/
theorem atOffsets_step {m : RawMbuf} {op : Op} (hstore : m.buf.toNat + mbufSize < 2 ^ 64)
    (hlow : mbufSize ≤ m.buf.toNat) (hin : InBounds m) (hlen : op.len.toNat ≤ mbufSize)
    (bytes : ℕ → Byte) :
    stepAt (m.atOffsets bytes) op = (step m op).map fun m' => m'.atOffsets bytes := by
  obtain ⟨hhead, hend⟩ := hin
  have hsize : mbufSize = 2048 := rfl
  cases op with
  | pull len =>
    have hiff : m.len < len ↔ (m.atOffsets bytes).len < len.toNat := BitVec.lt_def
    by_cases h : m.len < len
    · rw [step, mbufpull, if_pos h, stepAt, Net.mbufpull, if_pos (hiff.mp h)]
      rfl
    · rw [step, mbufpull, if_neg h, stepAt, Net.mbufpull, if_neg (mt hiff.mpr h)]
      rw [BitVec.lt_def] at h
      simp only [atOffsets, Op.len, Option.map_some, Option.getD_some, BitVec.toNat_add,
        BitVec.toNat_sub, BitVec.toNat_setWidth, Option.some.injEq, Mbuf.mk.injEq, true_and] at *
      omega
  | push len =>
    have hiff : m.head - len.setWidth 64 < m.buf ↔ (m.atOffsets bytes).head < len.toNat := by
      simp only [atOffsets, Op.len, BitVec.lt_def, BitVec.toNat_sub, BitVec.toNat_setWidth] at *
      omega
    by_cases h : m.head - len.setWidth 64 < m.buf
    · rw [step, mbufpush, if_pos h, stepAt, Net.mbufpush, if_pos (hiff.mp h)]
      rfl
    · rw [step, mbufpush, if_neg h, stepAt, Net.mbufpush, if_neg (mt hiff.mpr h)]
      rw [hiff] at h
      simp only [atOffsets, Op.len, Except.toOption, Option.map_some, BitVec.toNat_add,
        BitVec.toNat_sub, BitVec.toNat_setWidth, Option.some.injEq, Mbuf.mk.injEq, true_and] at *
      omega
  | put len =>
    have hsum : (m.len + len).toNat = (m.atOffsets bytes).len + len.toNat := by
      simp only [atOffsets, Op.len, BitVec.toNat_add] at *
      omega
    rw [step, mbufput, hsum, stepAt, Net.mbufput]
    split_ifs
    · rfl
    · simp only [Except.toOption, Option.map_some, atOffsets, hsum]
  | trim len =>
    have hiff : len > m.len ↔ len.toNat > (m.atOffsets bytes).len := BitVec.lt_def
    by_cases h : len > m.len
    · rw [step, mbuftrim, if_pos h, stepAt, Net.mbuftrim, if_pos (hiff.mp h)]
      rfl
    · rw [step, mbuftrim, if_neg h, stepAt, Net.mbuftrim, if_neg (mt hiff.mpr h)]
      rw [gt_iff_lt, BitVec.lt_def] at h
      simp only [atOffsets, Option.map_some, BitVec.toNat_sub, Option.some.injEq,
        Mbuf.mk.injEq, true_and]
      omega

/-- **Counting from the start of the store is right along every run.** As long as the packet stays
in the store, both kinds of operations panic at the same call or lead to the same packet. -/
theorem atOffsets_run {m : RawMbuf} {ops : List Op} (hstore : m.buf.toNat + mbufSize < 2 ^ 64)
    (hlow : mbufSize ≤ m.buf.toNat) (hin : Along step InBounds m ops)
    (hlen : ∀ op ∈ ops, op.len.toNat ≤ mbufSize) (bytes : ℕ → Byte) :
    runFrom stepAt (m.atOffsets bytes) ops =
      (runFrom step m ops).map fun m' => m'.atOffsets bytes := by
  induction ops generalizing m with
  | nil => rfl
  | cons op ops ih =>
    obtain ⟨hop, hops⟩ := List.forall_mem_cons.mp hlen
    rw [runFrom, runFrom, atOffsets_step hstore hlow hin.1 hop bytes]
    cases hs : step m op with
    | none => rfl
    | some m' =>
      rw [← step_buf hs] at hstore hlow
      exact ih hstore hlow (hin.2 m' hs) hops

/-- The steps of `net_tx_udp`. -/
theorem atOffsets_udp : runFrom stepAt ⟨fun _ => 0, 128, 0⟩
    [.put 1400, .push 8, .push 20, .push 14] = some ⟨fun _ => 0, 86, 1442⟩ :=
  @atOffsets_run ⟨0x87000000, 0x87000080, 0⟩ _ (by decide) (by decide)
    (by simp [Along, step, mbufput, mbufpush, InBounds, mbufSize, Except.toOption])
    (by decide) fun _ => 0

end RawMbuf

end RiscvBm.Net

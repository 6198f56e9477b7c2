import RiscvBm.Lib.Ring
import RiscvBm.Lib.Transition

/-!
# The transmit ring of the E1000

`e1000_transmit` decides by the DD bit of the descriptor at TDT whether there is room; the
device decides by TDH and TDT what it has to send. The calls are serialised by `e1000_lock`,
the device is not: it may complete a descriptor between any two of the steps of a call.

In every run a buffer is freed at most once and only after its descriptor was completed. The
two views of the ring differ when all descriptors are in use: the call that takes the last one
moves TDT onto TDH, and the device sees an empty ring (`visible_iff_room`).
-/

namespace RiscvBm.E1000

open RiscvBm.Ring Transition Function

/-! ## §1  The driver and the device -/

def txRingSize : ℕ := 16

/-- `E1000_TXD_STAT_DD` -/
def statDD : BitVec 8 := 0x01

/-- `E1000_TXD_CMD_EOP` -/
def cmdEOP : BitVec 8 := 0x01

/-- `E1000_TXD_CMD_RS` -/
def cmdRS : BitVec 8 := 0x08

structure TxDesc where
  addr : ℕ
  length : BitVec 16
  cso : BitVec 8
  cmd : BitVec 8
  status : BitVec 8
  css : BitVec 8
  special : BitVec 16
deriving DecidableEq, Repr

/-- What `memset` leaves of a descriptor. -/
def TxDesc.zero : TxDesc := ⟨0, 0, 0, 0, 0, 0, 0⟩

def TxDesc.done (d : TxDesc) : Bool := d.status &&& statDD ≠ 0

/-- A buffer. `id` stands for it from its allocation to its release: an address that is
used again belongs to another buffer. -/
structure Mbuf where
  id : ℕ
  head : ℕ
  len : ℕ
deriving DecidableEq, Repr

/-- Where the call that has `e1000_lock` is. -/
inductive Pc where
  | idle
  | found (m : Mbuf) (index : ℕ)    -- has seen DD; about to fill the descriptor
  | filled (m : Mbuf) (index : ℕ)   -- about to write TDT
deriving DecidableEq, Repr

structure St where
  txRing : ℕ → TxDesc
  txMbufs : ℕ → Option Mbuf
  tdt : ℕ
  tdh : ℕ
  pc : Pc
  /-- history: the buffers of the calls that returned 0, in order -/
  accepted : List ℕ
  /-- history: the buffers whose descriptor the device has completed, in order -/
  completed : List ℕ
  /-- history: the calls of `mbuffree`, in order -/
  freed : List ℕ

/-- The transmit part of `e1000_init`. -/
def init : St where
  txRing := fun _ => { TxDesc.zero with status := statDD }
  txMbufs := fun _ => none
  tdt := 0
  tdh := 0
  pc := .idle
  accepted := []
  completed := []
  freed := []

/-- The descriptor that `e1000_transmit` writes. -/
def txDesc (m : Mbuf) : TxDesc :=
  { TxDesc.zero with
    addr := m.head
    length := BitVec.ofNat 16 m.len
    cmd := cmdRS ||| cmdEOP }

inductive Act where
  | transmit (m : Mbuf)
  | fill
  | publish
  | complete
deriving DecidableEq, Repr

/-- One step; `none` where the action is not enabled. A buffer is handed over by its owner,
so one that was accepted is not passed again. -/
def step (s : St) : Act → Option St
  | .transmit m =>
    match s.pc with
    | .idle =>
      if m.id ∈ s.accepted then none
      -- the last transmit request hasn't been finished yet: -1
      else if ¬ (s.txRing s.tdt).done then some s
      else some { s with pc := .found m s.tdt }
    | _ => none
  | .fill =>
    match s.pc with
    | .found m index =>
      some { s with
        freed := s.freed ++ ((s.txMbufs index).map Mbuf.id).toList
        txMbufs := update s.txMbufs index (some m)
        txRing := update s.txRing index (txDesc m)
        pc := .filled m index }
    | _ => none
  | .publish =>
    match s.pc with
    | .filled m index =>
      some { s with
        tdt := (index + 1) % txRingSize
        accepted := s.accepted ++ [m.id]
        pc := .idle }
    | _ => none
  | .complete =>
    if s.tdh = s.tdt then none
    else
      let d := s.txRing s.tdh
      some { s with
        txRing := update s.txRing s.tdh { d with status := d.status ||| statDD }
        tdh := (s.tdh + 1) % txRingSize
        completed := s.completed ++ ((s.txMbufs s.tdh).map Mbuf.id).toList }

/-! ## §2  What the ring has to guarantee -/

/-- How many descriptors the device takes for pending: `(TDT - TDH) mod TX_RING_SIZE`. -/
def pendingCount (s : St) : ℕ := (s.tdt + txRingSize - s.tdh) % txRingSize

/-- The buffers of these descriptors, in the order in which the device gets to them. -/
def pending (s : St) : List ℕ :=
  (List.range (pendingCount s)).filterMap fun j =>
    (s.txMbufs ((s.tdh + j) % txRingSize)).map Mbuf.id

/-- A buffer is freed after its descriptor was completed, and once. -/
structure FreedOnce (s : St) : Prop where
  completed : ∀ m ∈ s.freed, m ∈ s.completed
  nodup : s.freed.Nodup

/-- The accepted frames that are not completed are those the device sees. -/
structure Visible (s : St) : Prop where
  count : s.accepted.length = s.completed.length + pendingCount s
  frames : s.accepted = s.completed ++ pending s

/-- There is room beyond the frame that is about to be published: TDT does not catch up
with TDH. -/
def Room (s : St) : Act → Prop
  | .publish => (s.tdt + 1) % txRingSize ≠ s.tdh
  | _ => True

instance (s : St) (a : Act) : Decidable (Room s a) := by
  cases a <;> unfold Room <;> infer_instance

/-! ## §3  The invariant of all runs -/

/-- The buffers that descriptors were written for; the last may not be accepted yet. -/
def written (s : St) : List ℕ :=
  match s.pc with
  | .filled m _ => s.accepted ++ [m.id]
  | _ => s.accepted

/-- The buffer and the descriptor of the call that has the lock. -/
def Pc.job : Pc → Option (Mbuf × ℕ)
  | .idle => none
  | .found m index | .filled m index => some (m, index)

/-- The slots have the last sixteen of `written`, the device has completed a prefix of them. -/
structure Inv (s : St) : Prop where
  nodup : (written s).Nodup
  tdt : s.tdt = s.accepted.length % txRingSize
  tdh : s.tdh = s.completed.length % txRingSize
  completed : s.completed <+: s.accepted
  gap : s.accepted.length ≤ s.completed.length + txRingSize
  job : ∀ m index, s.pc.job = some (m, index) →
    index = s.tdt ∧ m.id ∉ s.accepted ∧ s.accepted.length < s.completed.length + txRingSize
  slots : Last txRingSize (Option.map Mbuf.id ∘ s.txMbufs) (written s)
  done : ∀ k < (written s).length, (written s).length ≤ k + txRingSize →
    ((s.txRing (k % txRingSize)).done = true ↔ k < s.completed.length)
  freed : s.freed = (written s).take ((written s).length - txRingSize)

theorem accepted_prefix_written (s : St) : s.accepted <+: written s := by
  unfold written
  split
  · exact List.prefix_append _ _
  · exact List.prefix_rfl

variable {s s' : St}

/-- A call that has the lock leaves the device a free descriptor. -/
theorem Inv.written_le (h : Inv s) :
    (written s).length ≤ s.completed.length + txRingSize := by
  have hgap := h.gap
  have hjob := h.job
  unfold written
  split
  · next m index hpc =>
    have hlt := (hjob m index (by rw [hpc]; rfl)).2.2
    rw [List.length_append, List.length_singleton]
    omega
  · exact hgap

theorem Inv.completed_le (h : Inv s) : s.completed.length ≤ s.accepted.length :=
  h.completed.length_le

theorem inv_init : Inv init where
  nodup := List.nodup_nil
  tdt := rfl
  tdh := rfl
  completed := List.prefix_rfl
  gap := Nat.zero_le _
  job := by rintro m index ⟨⟩
  slots := last_nil _
  done := fun k hk => absurd hk (Nat.not_lt_zero k)
  freed := rfl

theorem done_txDesc (m : Mbuf) : (txDesc m).done = false := by
  simp [TxDesc.done, txDesc, TxDesc.zero]

theorem done_or (d : TxDesc) : ({ d with status := d.status ||| statDD } : TxDesc).done = true := by
  have h : ∀ b : BitVec 8, (b ||| statDD) &&& statDD ≠ 0 := by decide
  exact decide_eq_true (h d.status)

/-- A descriptor found done at TDT means that the ring is not full. -/
theorem Inv.lt_of_done (h : Inv s) (hpc : s.pc = .idle)
    (hdone : (s.txRing s.tdt).done = true) :
    s.accepted.length < s.completed.length + txRingSize := by
  have hgap := h.gap
  by_contra hfull
  have hlen : s.accepted.length = s.completed.length + txRingSize := by omega
  have hw : written s = s.accepted := by rw [written, hpc]
  -- the descriptor at TDT is the one of the oldest frame in flight
  have hslot : s.completed.length % txRingSize = s.tdt := by
    rw [h.tdt, hlen, Nat.add_mod_right]
  have hold := h.done s.completed.length (by rw [hw, hlen]; unfold txRingSize; omega)
    (by rw [hw, hlen])
  rw [hslot, hdone] at hold
  exact absurd (hold.mp rfl) (lt_irrefl _)

theorem inv_transmit {m : Mbuf} (h : Inv s) (hs : step s (.transmit m) = some s') :
    Inv s' := by
  simp only [step] at hs
  split at hs
  · next hpc =>
    split_ifs at hs with hm hdone
    · cases hs
      have hw : written { s with pc := .found m s.tdt } = written s := by
        simp only [written, hpc]
      have hlt := h.lt_of_done hpc hdone
      constructor
      · rw [hw]
        exact h.nodup
      · exact h.tdt
      · exact h.tdh
      · exact h.completed
      · exact h.gap
      · rintro m' index ⟨⟩
        exact ⟨rfl, hm, hlt⟩
      · rw [hw]
        exact h.slots
      · rw [hw]
        exact h.done
      · rw [hw]
        exact h.freed
    · cases hs
      exact h
  · cases hs

theorem inv_fill (h : Inv s) (hs : step s .fill = some s') : Inv s' := by
  simp only [step] at hs
  split at hs
  · next m index hpc =>
    cases hs
    have hw : written s = s.accepted := by rw [written, hpc]
    obtain ⟨hindex, hm, hlt⟩ := h.job m index (by rw [hpc]; rfl)
    have hslots := h.slots
    have hdone := h.done
    have hfreed := h.freed
    have hle := h.completed_le
    rw [hw] at hslots hdone hfreed
    rw [h.tdt] at hindex
    subst hindex
    constructor
    · have hnodup := h.nodup
      rw [hw] at hnodup
      refine List.nodup_append.mpr ⟨hnodup, by simp, ?_⟩
      rintro x hx y hy rfl
      rw [List.mem_singleton.mp hy] at hx
      exact hm hx
    · exact h.tdt
    · exact h.tdh
    · exact h.completed
    · exact h.gap
    · rintro m' index ⟨⟩
      exact ⟨h.tdt.symm, hm, hlt⟩
    · have hpush := hslots.push m.id
      rw [show (some m.id) = Option.map Mbuf.id (some m) from rfl, ← comp_update] at hpush
      exact hpush
    · intro k hk hwin
      simp only [written, List.length_append, List.length_singleton] at hk hwin
      by_cases hkl : k < s.accepted.length
      · dsimp only
        rw [update_of_ne (mod_ne_mod hkl (by omega))]
        exact hdone k hkl (by omega)
      · have hk : k = s.accepted.length := by omega
        subst hk
        dsimp only
        rw [update_self, done_txDesc]
        simp only [Bool.false_eq_true, false_iff]
        omega
    · have hold := hslots.oldest (by decide)
      rw [← hfreed] at hold
      simp only [written, List.length_append, List.length_singleton]
      rw [List.take_append_of_le_length (by unfold txRingSize; omega)]
      exact hold
  · cases hs

theorem inv_publish (h : Inv s) (hs : step s .publish = some s') : Inv s' := by
  simp only [step] at hs
  split at hs
  · next m index hpc =>
    cases hs
    obtain ⟨hindex, hm, hlt⟩ := h.job m index (by rw [hpc]; rfl)
    have hw : written s = s.accepted ++ [m.id] := by rw [written, hpc]
    have hnodup := h.nodup
    have hslots := h.slots
    have hdone := h.done
    have hfreed := h.freed
    rw [hw] at hnodup hslots hdone hfreed
    refine ⟨hnodup, ?_, h.tdh, h.completed.trans (List.prefix_append _ _), ?_, ?_, hslots, hdone,
      hfreed⟩
    · rw [hindex, h.tdt, List.length_append, List.length_singleton, Nat.mod_add_mod]
    · rw [List.length_append, List.length_singleton]
      exact hlt
    · rintro m' index' ⟨⟩
  · cases hs

/-- What the device finds at TDH: the first accepted frame that is not completed. -/
theorem Inv.head_pending (h : Inv s) (hne : s.tdh ≠ s.tdt) :
    ∃ hlt : s.completed.length < s.accepted.length,
      (s.txMbufs s.tdh).map Mbuf.id = some s.accepted[s.completed.length] := by
  have hle := h.completed_le
  have hlt : s.completed.length < s.accepted.length := by
    rcases hle.lt_or_eq with hlt | heq
    · exact hlt
    · rw [h.tdh, h.tdt, heq] at hne
      exact absurd rfl hne
  have hpre := accepted_prefix_written s
  have hlw : s.completed.length < (written s).length := lt_of_lt_of_le hlt hpre.length_le
  have hget := h.slots.get s.completed.length hlw h.written_le
  rw [← h.tdh, ← hpre.getElem hlt] at hget
  exact ⟨hlt, hget⟩

theorem inv_complete (h : Inv s) (hs : step s .complete = some s') : Inv s' := by
  simp only [step] at hs
  split_ifs at hs with hne
  cases hs
  obtain ⟨hlt, hhead⟩ := h.head_pending hne
  have hgap := h.gap
  have hwl := h.written_le
  have hlw : s.completed.length < (written s).length :=
    lt_of_lt_of_le hlt (accepted_prefix_written s).length_le
  refine ⟨h.nodup, h.tdt, ?_, ?_, ?_, ?_, h.slots, ?_, h.freed⟩
  · rw [hhead, h.tdh]
    simp
  · rw [hhead]
    obtain ⟨rest, hrest⟩ := h.completed
    cases rest with
    | nil =>
      rw [← hrest, List.append_nil] at hlt
      exact absurd hlt (lt_irrefl _)
    | cons x rest =>
      refine ⟨rest, ?_⟩
      simp [← hrest]
  · rw [hhead, List.length_append]
    exact hgap.trans (by omega)
  · intro m index hjob
    obtain ⟨hi, hm, hl⟩ := h.job m index hjob
    refine ⟨hi, hm, ?_⟩
    rw [List.length_append]
    exact hl.trans_le (by omega)
  · intro k hk hwin
    have hk' : k < (written s).length := hk
    have hwin' : (written s).length ≤ k + txRingSize := hwin
    rw [hhead, Option.toList_some, List.length_append, List.length_singleton]
    dsimp only
    rcases Nat.lt_trichotomy k s.completed.length with hlt' | heq | hgt
    · rw [h.tdh, update_of_ne (mod_ne_mod hlt' (by omega))]
      rw [h.done k hk hwin]
      omega
    · rw [heq, ← h.tdh, update_self, done_or]
      simp
    · rw [h.tdh, update_of_ne (mod_ne_mod hgt (by omega)).symm]
      rw [h.done k hk hwin]
      omega

theorem inv_step (s : St) (a : Act) (s' : St) (h : Inv s) (hs : step s a = some s') : Inv s' := by
  cases a with
  | transmit m => exact inv_transmit h hs
  | fill => exact inv_fill h hs
  | publish => exact inv_publish h hs
  | complete => exact inv_complete h hs

/-! ## §4  Buffers are freed once -/

theorem Inv.freedOnce (h : Inv s) : FreedOnce s := by
  have hwl := h.written_le
  have hpre : s.completed <+: written s := h.completed.trans (accepted_prefix_written s)
  constructor
  · intro m hm
    rw [h.freed] at hm
    rw [List.prefix_iff_eq_take.mp hpre]
    exact (List.take_subset_take_left _ (by omega)) hm
  · rw [h.freed]
    exact h.nodup.sublist (List.take_sublist _ _)

/-! ## §5  What the device sees -/

/-- With a free descriptor the distance of the registers is the number of frames in flight. -/
theorem Inv.pendingCount_eq (h : Inv s)
    (hlt : s.accepted.length < s.completed.length + txRingSize) :
    pendingCount s = s.accepted.length - s.completed.length := by
  have hle := h.completed_le
  unfold pendingCount
  rw [h.tdt, h.tdh]
  unfold txRingSize at *
  omega

theorem Inv.visible (h : Inv s)
    (hlt : s.accepted.length < s.completed.length + txRingSize) : Visible s := by
  have hle := h.completed_le
  have hcount := h.pendingCount_eq hlt
  constructor
  · omega
  · have hslot : ∀ j ∈ List.range (pendingCount s),
        (s.txMbufs ((s.tdh + j) % txRingSize)).map Mbuf.id =
          (s.accepted.drop s.completed.length)[j]? := by
      intro j hj
      rw [List.mem_range, hcount] at hj
      have hpre := accepted_prefix_written s
      have hja : s.completed.length + j < s.accepted.length := by omega
      have hget := h.slots.get (s.completed.length + j)
        (lt_of_lt_of_le hja hpre.length_le) (h.written_le.trans (by omega))
      rw [← hpre.getElem hja] at hget
      rw [h.tdh, Nat.mod_add_mod, List.getElem?_drop, List.getElem?_eq_getElem hja]
      exact hget
    rw [pending, List.filterMap_congr hslot, filterMap_range_getElem?, List.take_of_length_le]
    · have htake := List.prefix_iff_eq_take.mp h.completed
      conv_rhs => rw [htake, List.length_take_of_le hle]
      exact (List.take_append_drop _ _).symm
    · rw [List.length_drop, hcount]

/-- The two views of the ring agree up to the last free descriptor. -/
theorem Inv.visible_iff (h : Inv s) :
    Visible s ↔ s.accepted.length < s.completed.length + txRingSize := by
  refine ⟨fun hv => ?_, h.visible⟩
  have hlt : pendingCount s < txRingSize := Nat.mod_lt _ (by decide)
  have := hv.count
  omega

/-- Only a `publish` without room ends the agreement. -/
theorem Inv.visible_step {a : Act} (h : Inv s) (hv : Visible s)
    (hs : step s a = some s') : Visible s' ↔ Room s a := by
  rw [(inv_step s a s' h hs).visible_iff]
  have hlt := h.visible_iff.mp hv
  have hle := h.completed_le
  cases a with
  | transmit m =>
    simp only [step] at hs
    split at hs
    · split_ifs at hs <;> cases hs <;> exact iff_of_true hlt trivial
    · cases hs
  | fill =>
    simp only [step] at hs
    split at hs
    · cases hs
      exact iff_of_true hlt trivial
    · cases hs
  | publish =>
    simp only [step] at hs
    split at hs
    · cases hs
      simp only [Room, h.tdt, h.tdh, List.length_append, List.length_singleton]
      unfold txRingSize at *
      omega
    · cases hs
  | complete =>
    simp only [step] at hs
    split_ifs at hs
    cases hs
    refine iff_of_true ?_ trivial
    rw [List.length_append]
    exact hlt.trans_le (by omega)

/-- All of it holds along a run exactly if no call publishes the last free descriptor. -/
theorem visible_iff_room (as : List Act) :
    Along step (fun s => FreedOnce s ∧ Visible s) init as ↔ Steps step Room init as := by
  have hP : ∀ s, Inv s ∧ Visible s → FreedOnce s ∧ Visible s := fun s h => ⟨h.1.freedOnce, h.2⟩
  have hstep : ∀ s a s', Inv s ∧ Visible s → Room s a → step s a = some s' →
      Inv s' ∧ Visible s' := by
    rintro s a s' ⟨h, hv⟩ hroom hs
    exact ⟨inv_step s a s' h hs, (h.visible_step hv hs).mpr hroom⟩
  apply along_iff_steps hP hstep
  · rintro s a s' ⟨h, hv⟩ hroom hs ⟨-, hv'⟩
    exact hroom ((h.visible_step hv hs).mp hv')
  · exact ⟨inv_init, inv_init.visible (by decide)⟩

/-- `n` calls of `e1000_transmit`, all before the device gets to work. -/
def burst (n : ℕ) : List Act :=
  (List.range n).flatMap fun i => [.transmit ⟨i, 0, 0⟩, .fill, .publish]

/-- Sixteen frames are accepted, and the device sees none of them. -/
theorem not_visible_burst :
    ¬ Along step (fun s => FreedOnce s ∧ Visible s) init (burst txRingSize) := by
  intro h
  have hrun : (runFrom step init (burst txRingSize)).any
      (fun s => s.accepted.length = 16 ∧ s.completed.length = 0 ∧ pendingCount s = 0) = true := by
    decide +kernel
  obtain ⟨s, hs, hfacts⟩ := (Option.any_eq_true _ _).mp hrun
  obtain ⟨ha, hc, hp⟩ := of_decide_eq_true hfacts
  have hcount := (h.last hs).2.count
  omega

end RiscvBm.E1000

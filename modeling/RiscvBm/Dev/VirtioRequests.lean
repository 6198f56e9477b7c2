import Mathlib.Data.List.Perm.Subperm
import Mathlib.Data.List.Infix
import RiscvBm.Dev.VirtioDisk
import RiscvBm.Lib.Transition

/-!
# Requests in flight at the virtio disk

Any number of processes are inside `virtio_disk_rw`, the device works on the heads it has
fetched and the interrupt handler looks at the used ring. The steps are the sections under
`vdisk_lock`, the conditions of the two `wait_event`s (read without it), the rounds of the
handler's loop and the moves of the device, which holds no lock.

`disciplined_run`: as long as no two calls that are in progress are for the same buffer, the
chains stay disjoint, the table of free descriptors is exact and the `k`-th completion of a
head clears the buffer of its `k`-th submission. The call waits for `b->disk` and
not for its own request, so with two calls for one buffer a chain is freed while the device
still works on it (`not_disciplined_sharedBuf`).
-/

namespace RiscvBm.Virtio

open RiscvBm.Ring Transition Function

/-! ## §1  Processes, handler and device -/

/-- Where a process is in `virtio_disk_rw`. -/
inductive Pc where
  | idle
  | starved (c : Call)   -- waits for `free_buf_condition`
  | retry (c : Call)     -- has seen it set; about to lock and allocate again
  | waiting (r : Req)    -- submitted; waits for `b->disk == 0`
  | woken (r : Req)      -- has seen it; about to lock and free the chain
deriving DecidableEq, Repr

/-- The request of a call that has its descriptors. -/
def Pc.req : Pc → Option Req
  | .waiting r | .woken r => some r
  | _ => none

/-- The buffer of a call in progress. -/
def Pc.buf : Pc → Option ℕ
  | .idle => none
  | .starved c | .retry c => some c.b
  | .waiting r | .woken r => some r.b

structure St where
  disk : Disk
  /-- `b->disk` -/
  bdisk : ℕ → Bool
  pc : ℕ → Pc
  /-- how far the device has read the avail ring -/
  devIdx : BitVec 16
  /-- heads the device works on -/
  fetched : List ℕ
  /-- `virtio_disk_intr` runs and holds the lock -/
  inIntr : Bool
  fault : Option Fault
  /-- history: head and buffer of each request, in order of submission -/
  submitted : List (ℕ × ℕ)
  /-- history: heads put into the used ring, in order -/
  completed : List ℕ
  /-- history: head and buffer of each completion handled, in order -/
  cleared : List (ℕ × ℕ)

def init : St where
  disk := Disk.init
  bdisk := fun _ => false
  pc := fun _ => .idle
  devIdx := 0
  fetched := []
  inIntr := false
  fault := none
  submitted := []
  completed := []
  cleared := []

inductive Act where
  | call (p : ℕ) (c : Call)
  | recheck (p : ℕ)        -- `p` reads `free_buf_condition`
  | retry (p : ℕ)
  | wake (p : ℕ)           -- `p` reads `b->disk`
  | finish (p : ℕ)
  | intrEnter
  | intrRound
  | devFetch
  | devComplete (k : ℕ)    -- the device is done with the `k`-th head it works on
deriving DecidableEq, Repr

/-- The section that allocates and, if that worked, submits. -/
def trySubmit (s : St) (p : ℕ) (c : Call) : St :=
  match alloc3Desc s.disk with
  | .error f => { s with fault := some f }
  | .ok (none, d) => { s with disk := d, pc := update s.pc p (.starved c) }
  | .ok (some idx, d) =>
    let r : Req := ⟨idx.getD 0 0, idx.getD 1 0, idx.getD 2 0, c.b⟩
    { s with
      disk := publish (fill { d with freeBufCondition := false } r c) r.i0
      bdisk := update s.bdisk c.b true
      pc := update s.pc p (.waiting r)
      submitted := s.submitted ++ [(r.i0, r.b)] }

def finish (s : St) (p : ℕ) (r : Req) : St :=
  match giveBack s.disk r.i0 with
  | .error f => { s with fault := some f }
  | .ok d => { s with disk := d, pc := update s.pc p .idle }

/-- One round of the loop of `virtio_disk_intr`, or its end. -/
def intrRound (s : St) : St :=
  if s.disk.usedIdx = s.disk.usedRingIdx then { s with inIntr := false }
  else
    let id := s.disk.usedRing (slot num s.disk.usedIdx)
    if (s.disk.info id).status ≠ 0 then { s with fault := some .intrStatus }
    else
      match (s.disk.info id).b with
      | none => { s with fault := some .nullBuf }
      | some b =>
        { s with
          bdisk := update s.bdisk b false
          disk := { s.disk with usedIdx := s.disk.usedIdx + 1 }
          cleared := s.cleared ++ [(id, b)] }

/-- One step; `none` where the action is not enabled. After a panic nothing moves. -/
def step (s : St) (a : Act) : Option St :=
  if s.fault.isSome then none
  else
    match a with
    | .call p c =>
      match s.pc p with
      | .idle => if s.inIntr then none else some (trySubmit s p c)
      | _ => none
    | .recheck p =>
      match s.pc p with
      | .starved c =>
        if s.disk.freeBufCondition then some { s with pc := update s.pc p (.retry c) } else none
      | _ => none
    | .retry p =>
      match s.pc p with
      | .retry c => if s.inIntr then none else some (trySubmit s p c)
      | _ => none
    | .wake p =>
      match s.pc p with
      | .waiting r =>
        if s.bdisk r.b then none else some { s with pc := update s.pc p (.woken r) }
      | _ => none
    | .finish p =>
      match s.pc p with
      | .woken r => if s.inIntr then none else some (finish s p r)
      | _ => none
    | .intrEnter => if s.inIntr then none else some { s with inIntr := true }
    | .intrRound => if s.inIntr then some (intrRound s) else none
    | .devFetch =>
      if s.devIdx = s.disk.availIdx then none
      else some { s with
        fetched := s.fetched ++ [s.disk.availRing (slot num s.devIdx)]
        devIdx := s.devIdx + 1 }
    | .devComplete k =>
      match s.fetched[k]? with
      | none => none
      | some h => some { s with
          fetched := s.fetched.eraseIdx k
          disk := complete s.disk h
          completed := s.completed ++ [h] }

/-- The requests that hold descriptors. -/
def St.req (s : St) (p : ℕ) : Option Req := (s.pc p).req

/-- The buffers of the calls in progress. -/
def St.buf (s : St) (p : ℕ) : Option ℕ := (s.pc p).buf

theorem req_update (s : St) (p : ℕ) (c : Pc) :
    (fun q => (update s.pc p c q).req) = update s.req p c.req := by
  funext q
  by_cases hq : q = p
  · subst hq
    simp
  · simp [update_of_ne hq, St.req]

theorem update_req_eq {s : St} {p : ℕ} {c : Pc} (h : c.req = s.req p) :
    update s.req p c.req = s.req := by
  rw [h, update_eq_self]

/-! ## §2  The table of descriptors -/

/-- The chains in flight are wired, disjoint, and the only descriptors in use. -/
structure Table (d : Disk) (req : ℕ → Option Req) : Prop where
  wired : ∀ {p r}, req p = some r → Wired d r
  disjoint : ∀ {p q r r'}, req p = some r → req q = some r' → p ≠ q → r.chain.Disjoint r'.chain
  free : ∀ i < num, (d.free i = true ↔ ∀ p r, req p = some r → i ∉ r.chain)

variable {d d' : Disk} {req : ℕ → Option Req} {p : ℕ} {r : Req}

theorem Req.head_mem (r : Req) : r.i0 ∈ r.chain := by simp [Req.chain]

theorem Table.used (h : Table d req) (hr : req p = some r) {i : ℕ} (hi : i ∈ r.chain) :
    d.free i = false := by
  by_contra hfree
  rw [Bool.not_eq_false] at hfree
  exact (h.free i ((h.wired hr).lt i hi)).mp hfree p r hr hi

theorem Table.notMem_of_free (h : Table d req) (hr : req p = some r) {i : ℕ}
    (hi : d.free i = true) : i ∉ r.chain := by
  intro hmem
  rw [h.used hr hmem] at hi
  cases hi

/-- A change that leaves the used descriptors and their buffers alone. -/
theorem Table.congr (h : Table d req) (hfree : d'.free = d.free)
    (hdesc : ∀ i, d.free i = false → d'.desc i = d.desc i)
    (hb : ∀ i, (d'.info i).b = (d.info i).b) : Table d' req where
  wired hr := (h.wired hr).congr (fun i hi => hdesc i (h.used hr hi)) (hb _)
  disjoint := h.disjoint
  free := by
    rw [hfree]
    exact h.free

theorem Table.submit (h : Table d req) (hp : req p = none) (hw : Wired d' r)
    (hfrom : ∀ i ∈ r.chain, d.free i = true)
    (hfree : d'.free = fun i => d.free i && !decide (i ∈ r.chain))
    (hdesc : ∀ i, i ∉ r.chain → d'.desc i = d.desc i)
    (hb : ∀ i, i ≠ r.i0 → (d'.info i).b = (d.info i).b) :
    Table d' (update req p (some r)) := by
  -- an older chain has no descriptor that was free
  have hold : ∀ {q r'}, req q = some r' → r'.chain.Disjoint r.chain := by
    intro q r' hr' i hi' hi
    exact h.notMem_of_free hr' (hfrom i hi) hi'
  constructor
  · intro q r' hr'
    by_cases hq : q = p
    · rw [hq, update_self] at hr'
      cases hr'
      exact hw
    · rw [update_of_ne hq] at hr'
      apply (h.wired hr').congr
      · intro i hi
        exact hdesc i fun hmem => hold hr' hi hmem
      · exact hb _ fun heq => hold hr' r'.head_mem (heq ▸ r.head_mem)
  · intro q q' r₁ r₂ h₁ h₂ hne
    by_cases hq : q = p
    · subst hq
      rw [update_self] at h₁
      cases h₁
      rw [update_of_ne (Ne.symm hne)] at h₂
      exact fun i hi hi' => hold h₂ hi' hi
    · cases h
      grind [update_apply]
  · intro i hi
    rw [hfree]
    simp only [Bool.and_eq_true, Bool.not_eq_true', decide_eq_false_iff_not, h.free i hi]
    constructor
    · grind
    · intro hall
      refine ⟨fun q r' hr' => ?_, hall p r (update_self p _ _)⟩
      have hq : q ≠ p := by
        rintro rfl
        rw [hp] at hr'
        cases hr'
      exact hall q r' (by rw [update_of_ne hq]; exact hr')

theorem Table.release (h : Table d req) (hr : req p = some r)
    (hfree : d'.free = fun i => d.free i || decide (i ∈ r.chain))
    (hdesc : ∀ i, i ∉ r.chain → d'.desc i = d.desc i)
    (hb : ∀ i, i ≠ r.i0 → (d'.info i).b = (d.info i).b) :
    Table d' (update req p none) := by
  have hother : ∀ {q r'}, update req p none q = some r' →
      req q = some r' ∧ r'.chain.Disjoint r.chain := by
    intro q r' hr'
    obtain ⟨hq, hr'⟩ := of_update hr' (Option.some_ne_none r')
    exact ⟨hr', h.disjoint hr' hr hq⟩
  constructor
  · intro q r' hr'
    obtain ⟨hr', hdis⟩ := hother hr'
    apply (h.wired hr').congr
    · intro i hi
      exact hdesc i fun hmem => hdis hi hmem
    · exact hb _ fun heq => hdis r'.head_mem (heq ▸ r.head_mem)
  · intro q q' r₁ r₂ h₁ h₂ hne
    exact h.disjoint (hother h₁).1 (hother h₂).1 hne
  · intro i hi
    rw [hfree]
    simp only [Bool.or_eq_true, decide_eq_true_eq, h.free i hi]
    constructor
    · rintro (hall | hmem) q r' hr'
      · exact hall q r' (hother hr').1
      · exact fun hi' => (hother hr').2 hi' hmem
    · grind

/-! ## §3  Heads on their way -/

/-- The part of a history that is about head `h`. -/
def ofHead (h : ℕ) (l : List (ℕ × ℕ)) : List (ℕ × ℕ) := l.filter fun x => x.1 = h

theorem ofHead_snoc (h : ℕ) (l : List (ℕ × ℕ)) (x : ℕ × ℕ) :
    ofHead h (l ++ [x]) = ofHead h l ++ if x.1 = h then [x] else [] := by
  rw [ofHead, List.filter_append]
  by_cases hx : x.1 = h <;> simp [ofHead, hx]

/-- `L` are the requests, as head and buffer, whose completion has not been handled yet: each
is that of a call whose buffer is still marked, and they are what the histories differ by. -/
structure Pending (req : ℕ → Option Req) (bdisk : ℕ → Bool) (submitted cleared L : List (ℕ × ℕ)) :
    Prop where
  nodup : (L.map Prod.fst).Nodup
  owner : ∀ {h b}, (h, b) ∈ L → ∃ p r, req p = some r ∧ r.i0 = h ∧ r.b = b
  marked : ∀ {p r}, req p = some r → (bdisk r.b = true ↔ (r.i0, r.b) ∈ L)
  balance : ∀ h, ofHead h submitted = ofHead h (cleared ++ L)

section

variable {bdisk : ℕ → Bool} {submitted cleared L : List (ℕ × ℕ)}
  (h : Pending req bdisk submitted cleared L)

include h

theorem Pending.owner_head {x : ℕ} (hx : x ∈ L.map Prod.fst) :
    ∃ p r, req p = some r ∧ r.i0 = x ∧ (r.i0, r.b) ∈ L := by
  obtain ⟨⟨x, b⟩, hmem, rfl⟩ := List.mem_map.mp hx
  obtain ⟨p, r, hr, rfl, rfl⟩ := h.owner hmem
  exact ⟨p, r, hr, rfl, hmem⟩

/-- There are at most `NUM` heads, so the rings have room for them. -/
theorem Pending.length_le (ht : Table d req) : L.length ≤ num := by
  have hsub : L.map Prod.fst ⊆ List.range num := by
    intro x hx
    obtain ⟨p, r, hr, rfl, -⟩ := h.owner_head hx
    exact List.mem_range.mpr ((ht.wired hr).lt _ r.head_mem)
  have hle := (List.subperm_of_subset h.nodup hsub).length_le
  rwa [List.length_map, List.length_range] at hle

/-- A request is submitted. -/
theorem Pending.push (hp : req p = none) (hhead : ∀ {q r'}, req q = some r' → r'.i0 ≠ r.i0)
    (hbne : ∀ {q r'}, req q = some r' → r'.b ≠ r.b) :
    Pending (update req p (some r)) (update bdisk r.b true) (submitted ++ [(r.i0, r.b)]) cleared
      (L ++ [(r.i0, r.b)]) := by
  constructor
  · rw [List.map_append]
    refine h.nodup.append (List.nodup_singleton _) (List.disjoint_singleton.mpr fun hmem => ?_)
    obtain ⟨q, r', hr', heq, -⟩ := h.owner_head hmem
    exact hhead hr' heq
  · intro x b hx
    rcases List.mem_append.mp hx with hx | hx
    · obtain ⟨q, r', hr', heq⟩ := h.owner hx
      have hq : q ≠ p := by
        rintro rfl
        rw [hp] at hr'
        cases hr'
      exact ⟨q, r', by rwa [update_of_ne hq], heq⟩
    · cases List.mem_singleton.mp hx
      exact ⟨p, r, update_self .., rfl, rfl⟩
  · intro q r' hr'
    rw [List.mem_append, List.mem_singleton]
    by_cases hq : q = p
    · rw [hq, update_self] at hr'
      cases hr'
      simp
    · rw [update_of_ne hq] at hr'
      rw [update_of_ne (hbne hr'), h.marked hr']
      exact ⟨Or.inl, fun hor => hor.resolve_right fun heq => hhead hr' (Prod.mk.inj heq).1⟩
  · intro x
    rw [← List.append_assoc, ofHead_snoc, ofHead_snoc, h.balance]

/-- A request whose buffer has been cleared gives its descriptors back. -/
theorem Pending.drop (hr : req p = some r) (hdone : bdisk r.b = false) :
    Pending (update req p none) bdisk submitted cleared L where
  nodup := h.nodup
  owner hx := by
    obtain ⟨q, r', hr', rfl, rfl⟩ := h.owner hx
    have hq : q ≠ p := by
      rintro rfl
      rw [hr] at hr'
      cases hr'
      rw [(h.marked hr).mpr hx] at hdone
      cases hdone
    exact ⟨q, r', by rwa [update_of_ne hq], rfl, rfl⟩
  marked hr' := h.marked (of_update hr' (Option.some_ne_none _)).2
  balance := h.balance

/-- The handler deals with the completion of the request of `p`. -/
theorem Pending.pop {l₁ l₂ : List (ℕ × ℕ)} (hL : L = l₁ ++ (r.i0, r.b) :: l₂) (hr : req p = some r)
    (hbne : ∀ {q r'}, req q = some r' → q ≠ p → r'.b ≠ r.b) :
    Pending req (update bdisk r.b false) submitted (cleared ++ [(r.i0, r.b)]) (l₁ ++ l₂) := by
  subst hL
  have hnd := h.nodup
  rw [List.map_append, List.map_cons, List.nodup_middle, List.nodup_cons, ← List.map_append] at hnd
  constructor
  · exact hnd.2
  · have hsub := (List.append_sublist_append_left l₁).mpr (List.sublist_cons_self (r.i0, r.b) l₂)
    exact fun _ _ hx => h.owner (hsub.subset hx)
  · intro q r' hr'
    by_cases hq : q = p
    · rw [hq, hr] at hr'
      cases hr'
      rw [update_self]
      exact iff_of_false Bool.false_ne_true fun hx => hnd.1 (List.mem_map_of_mem hx)
    · have hne := hbne hr' hq
      rw [update_of_ne hne, h.marked hr']
      simp [hne]
  · intro x
    rw [h.balance]
    simp only [ofHead, List.filter_append, List.filter_cons, List.filter_nil]
    by_cases hx : r.i0 = x
    · have hnil : l₁.filter (fun y => y.1 = x) = [] := by
        refine List.filter_eq_nil_iff.mpr fun y hy heq => hnd.1 ?_
        exact List.mem_map.mpr ⟨y, List.mem_append_left _ hy, (of_decide_eq_true heq).trans hx.symm⟩
      simp [hx, hnil]
    · simp [hx]

end

/-! ## §4  The invariant -/

structure Inv (s : St) : Prop where
  noFault : s.fault = none
  table : Table s.disk s.req
  /-- calls in progress are for different buffers -/
  bufs : ∀ {p q b}, s.buf p = some b → s.buf q = some b → p = q
  woken : ∀ {p r}, s.pc p = .woken r → s.bdisk r.b = false
  heads : ∃ qa qu L,
    Holds num s.disk.availRing s.devIdx s.disk.availIdx qa ∧
    Holds num s.disk.usedRing s.disk.usedIdx s.disk.usedRingIdx qu ∧
    (L.map Prod.fst).Perm (qa ++ s.fetched ++ qu) ∧
    Pending s.req s.bdisk s.submitted s.cleared L ∧
    (∀ h ∈ qu, (s.disk.info h).status = 0) ∧
    s.completed = s.cleared.map Prod.fst ++ qu

theorem num_fits : Fits num 16 where
  dvd := by decide
  lt := by decide

theorem inv_init : Inv init where
  noFault := rfl
  table := by
    refine ⟨fun h => ?_, fun h => ?_, fun i hi => ?_⟩
    · cases h
    · cases h
    · refine ⟨fun _ p r h => ?_, fun _ => decide_eq_true hi⟩
      cases h
  bufs h := by cases h
  woken h := by cases h
  heads := by
    refine ⟨[], [], [], holds_nil num _ 0, holds_nil num _ 0, .nil, ?_, by simp, rfl⟩
    refine ⟨List.nodup_nil, fun hh => ?_, fun h => ?_, fun _ => rfl⟩
    · cases hh
    · cases h

theorem St.buf_of_req {s : St} (h : s.req p = some r) : s.buf p = some r.b := by
  unfold St.req at h
  unfold St.buf
  cases hpc : s.pc p with
  | waiting r' => rw [hpc] at h; cases h; rfl
  | woken r' => rw [hpc] at h; cases h; rfl
  | _ => rw [hpc] at h; cases h

/-- Requests of different calls have different buffers. -/
theorem Inv.buf_ne {s : St} (h : Inv s) {q : ℕ} {r' : Req} {b : ℕ} (hp : s.buf p = some b)
    (hr' : s.req q = some r') (hne : q ≠ p) : r'.b ≠ b := by
  rintro rfl
  exact hne (h.bufs (St.buf_of_req hr') hp)

theorem bufs_update {s : St} (h : Inv s) {c : Pc}
    (hbuf : ∀ b, c.buf = some b → ∀ q, s.buf q = some b → q = p) {q q' b : ℕ}
    (hq : (update s.pc p c q).buf = some b) (hq' : (update s.pc p c q').buf = some b) :
    q = q' := by
  by_cases h₁ : q = p
  · subst h₁
    rw [update_self] at hq
    by_cases h₂ : q' = q
    · exact h₂.symm
    · rw [update_of_ne h₂] at hq'
      exact (hbuf b hq q' hq').symm
  · rw [update_of_ne h₁] at hq
    by_cases h₂ : q' = p
    · subst h₂
      rw [update_self] at hq'
      exact hbuf b hq' q hq
    · rw [update_of_ne h₂] at hq'
      exact h.bufs hq hq'

theorem woken_update {pc : ℕ → Pc} {bd : ℕ → Bool} {c : Pc}
    (hc : ∀ r, c = .woken r → bd r.b = false)
    (hpc : ∀ q r, q ≠ p → pc q = .woken r → bd r.b = false) {q : ℕ} {r : Req}
    (hq : update pc p c q = .woken r) : bd r.b = false := by
  by_cases hqp : q = p
  · rw [hqp, update_self] at hq
    exact hc r hq
  · rw [update_of_ne hqp] at hq
    exact hpc q r hqp hq

/-- Only the place of one process changes, and no descriptor in use. -/
theorem Inv.moved {s : St} (h : Inv s) {c : Pc} (hd : Untaken s.disk d) (hreq : c.req = s.req p)
    (hbuf : ∀ b, c.buf = some b → ∀ q, s.buf q = some b → q = p)
    (hwoken : ∀ r, c = .woken r → s.bdisk r.b = false) :
    Inv { s with disk := d, pc := update s.pc p c } := by
  have hsame : St.req { s with disk := d, pc := update s.pc p c } = s.req :=
    (req_update s p c).trans (update_req_eq hreq)
  obtain ⟨desc, cond, rfl, hdesc⟩ := hd
  constructor
  · exact h.noFault
  · rw [hsame]
    exact h.table.congr rfl hdesc fun _ => rfl
  · exact bufs_update h hbuf
  · exact woken_update hwoken fun _ _ _ hq => h.woken hq
  · rw [hsame]
    exact h.heads

theorem untaken_refl (d : Disk) : Untaken d d := ⟨d.desc, _, rfl, fun _ _ => rfl⟩

/-! ## §5  One step -/

/-- `p` has submitted `r`, which leaves the disk as `d`. -/
def submitted (s : St) (p : ℕ) (r : Req) (d : Disk) : St :=
  { s with
    disk := d
    bdisk := update s.bdisk r.b true
    pc := update s.pc p (.waiting r)
    submitted := s.submitted ++ [(r.i0, r.b)] }

theorem trySubmit_cases (s : St) (p : ℕ) (c : Call) :
    (∃ d, Untaken s.disk d ∧
      trySubmit s p c = { s with disk := d, pc := update s.pc p (.starved c) }) ∨
    (∃ r d, r.b = c.b ∧ Taken r.chain s.disk d ∧ trySubmit s p c =
      submitted s p r (publish (fill { d with freeBufCondition := false } r c) r.i0)) := by
  rcases alloc3Desc_spec s.disk with ⟨i0, i1, i2, d, heq, ht⟩ | ⟨d, heq, hd⟩
  · right
    refine ⟨⟨i0, i1, i2, c.b⟩, d, rfl, ht, ?_⟩
    simp only [trySubmit, heq]
    rfl
  · left
    refine ⟨d, hd, ?_⟩
    simp only [trySubmit, heq]

section
variable {s : St}

theorem req_submitted : (submitted s p r d).req = update s.req p (some r) :=
  req_update s p (.waiting r)

/-- The new request: its head is nowhere on the way, and its buffer is nobody else's. -/
theorem Inv.submit {c : Call} (h : Inv s) (hp : s.req p = none)
    (hbuf : ∀ q, s.buf q = some r.b → q = p) (hrb : r.b = c.b) (ht : Taken r.chain s.disk d) :
    Inv (submitted s p r (publish (fill { d with freeBufCondition := false } r c) r.i0)) := by
  have hd := ht.eq
  subst hd
  have hbne : ∀ {q r'}, s.req q = some r' → r'.b ≠ r.b := by
    intro q r' hr' heq
    have hq := hbuf q (heq ▸ St.buf_of_req hr')
    rw [hq, hp] at hr'
    cases hr'
  have hhead : ∀ {q r'}, s.req q = some r' → r'.i0 ≠ r.i0 := by
    intro q r' hr' heq
    exact h.table.notMem_of_free hr' (ht.avail _ r.head_mem).2 (heq ▸ r'.head_mem)
  have hw : Wired (publish (fill { s.disk with
      free := fun i => s.disk.free i && !decide (i ∈ r.chain)
      freeBufCondition := false } r c) r.i0) r :=
    (wired_fill hrb ht.nodup fun i hi => (ht.avail i hi).1).congr (fun _ _ => rfl) rfl
  have hinfo := fun i (hi : i ≠ r.i0) => update_of_ne hi ⟨some c.b, 0xff⟩ s.disk.info
  have htable : Table (publish (fill _ r c) r.i0) (update s.req p (some r)) :=
    h.table.submit hp hw (fun i hi => (ht.avail i hi).2) rfl
      (fun i hi => fill_desc hi) fun i hi => congrArg Info.b (hinfo i hi)
  rw [← req_submitted] at htable
  constructor
  · exact h.noFault
  · exact htable
  · apply bufs_update h
    intro b hb q hq
    cases hb
    exact hbuf q hq
  · apply woken_update
    · intro r' hr'
      cases hr'
    · intro q r' _ hq
      have hr' : s.req q = some r' := by rw [St.req, hq]; rfl
      exact (update_of_ne (hbne hr') _ _).trans (h.woken hq)
  · obtain ⟨qa, qu, L, ha, hu, hheads, hpend, hst, hcomp⟩ := h.heads
    have hpend' := hpend.push hp hhead hbne
    rw [← req_submitted] at hpend'
    have hperm : ((L ++ [(r.i0, r.b)]).map Prod.fst).Perm (qa ++ [r.i0] ++ s.fetched ++ qu) := by
      rw [List.map_append]
      refine (List.perm_append_singleton _ _).trans ((hheads.cons r.i0).trans ?_)
      simp only [List.append_assoc, List.singleton_append]
      exact List.perm_middle.symm
    have hlen := hpend'.length_le htable
    have hlen' := hperm.length_eq
    simp only [List.length_map, List.length_append, List.length_singleton] at hlen hlen'
    refine ⟨qa ++ [r.i0], qu, _, ha.push num_fits (by omega) r.i0, hu, hperm, hpend', ?_, hcomp⟩
    intro x hx
    -- a completed head belongs to an older request
    obtain ⟨q, r', hr', rfl, -⟩ :=
      hpend.owner_head (hheads.mem_iff.mpr (List.mem_append_right _ hx))
    exact (congrArg Info.status (hinfo _ (hhead hr'))).trans (hst _ hx)

theorem Inv.trySubmit (h : Inv s) {c : Call} (hp : s.req p = none)
    (hbuf : ∀ q, s.buf q = some c.b → q = p) : Inv (trySubmit s p c) := by
  rcases trySubmit_cases s p c with ⟨d, hd, heq⟩ | ⟨r, d, hrb, ht, heq⟩
  · rw [heq]
    apply h.moved hd
    · exact hp.symm
    · intro b hb q hq
      cases hb
      exact hbuf q hq
    · intro r hr
      cases hr
  · rw [heq]
    exact h.submit hp (hrb ▸ hbuf) hrb ht

/-- The completion of the request has been handled: its head is not on the way, and the
chain can be freed. -/
theorem Inv.finish (h : Inv s) (hpc : s.pc p = .woken r) : Inv (finish s p r) := by
  have hr : s.req p = some r := by rw [St.req, hpc]; rfl
  obtain ⟨d, hd, desc, cond, rfl, hdesc⟩ :=
    giveBack_ok (h.table.wired hr).toLinked fun i hi => h.table.used hr hi
  have hinfo := fun i (hi : i ≠ r.i0) =>
    update_of_ne hi { s.disk.info r.i0 with b := none } s.disk.info
  have hreq : (fun q => (update s.pc p .idle q).req) = update s.req p none := req_update s p .idle
  rw [Virtio.finish, hd]
  constructor
  · exact h.noFault
  · show Table _ fun q => (update s.pc p .idle q).req
    rw [hreq]
    exact h.table.release hr rfl hdesc fun i hi => congrArg Info.b (hinfo i hi)
  · apply bufs_update h
    intro b hb
    cases hb
  · apply woken_update
    · intro r' hr'
      cases hr'
    · exact fun _ _ _ hq => h.woken hq
  · obtain ⟨qa, qu, L, ha, hu, hheads, hpend, hst, hcomp⟩ := h.heads
    have hpend' := hpend.drop hr (h.woken hpc)
    rw [← hreq] at hpend'
    refine ⟨qa, qu, L, ha, hu, hheads, hpend', fun x hx => ?_, hcomp⟩
    obtain ⟨q, r', hr', rfl, hmem⟩ :=
      hpend.owner_head (hheads.mem_iff.mpr (List.mem_append_right _ hx))
    have hne : r'.i0 ≠ r.i0 := by
      intro heq
      have hq : q = p := by
        by_contra hq
        exact h.table.disjoint hr' hr hq r'.head_mem (heq ▸ r.head_mem)
      rw [hq, hr] at hr'
      cases hr'
      have hmarked := (hpend.marked hr).mpr hmem
      rw [h.woken hpc] at hmarked
      cases hmarked
    exact (congrArg Info.status (hinfo _ hne)).trans (hst _ hx)

theorem Inv.setIntr (h : Inv s) (v : Bool) : Inv { s with inIntr := v } :=
  { h with }

/-- The handler takes the oldest completion: it is that of a request that still waits. -/
theorem Inv.intrRound (h : Inv s) : Inv (intrRound s) := by
  unfold Virtio.intrRound
  split
  · exact h.setIntr false
  rename_i hne
  obtain ⟨qa, qu, L, ha, hu, hheads, hpend, hst, hcomp⟩ := h.heads
  cases qu with
  | nil => exact absurd (hu.empty_iff.mpr rfl) hne
  | cons x qu =>
    obtain ⟨p, r, hr, rfl, hmem⟩ :=
      hpend.owner_head (hheads.mem_iff.mpr (List.mem_append_right _ List.mem_cons_self))
    have hw := h.table.wired hr
    obtain ⟨l₁, l₂, hL⟩ := List.append_of_mem hmem
    have hpend' := hpend.pop hL hr fun hr' hq => h.buf_ne (St.buf_of_req hr) hr' hq
    have hperm : ((l₁ ++ l₂).map Prod.fst).Perm (qa ++ s.fetched ++ qu) := by
      have hmid := hheads.trans List.perm_middle
      rw [hL, List.map_append, List.map_cons] at hmid
      rw [List.map_append]
      exact (List.perm_middle.symm.trans hmid).cons_inv
    simp only [hu.head, hst r.i0 List.mem_cons_self, ne_eq, not_true_eq_false, if_false, hw.buf]
    refine ⟨h.noFault, h.table.congr rfl (fun _ _ => rfl) (fun _ => rfl), h.bufs, ?_, ?_⟩
    · intro q r' hq
      by_cases hb : r'.b = r.b
      · simp [hb]
      · simpa [hb] using h.woken hq
    · refine ⟨qa, qu, _, ha, hu.pop, hperm, hpend', ?_, ?_⟩
      · exact fun y hy => hst y (List.mem_cons_of_mem _ hy)
      · rw [hcomp]
        simp

theorem Inv.devFetch (h : Inv s) (hne : s.devIdx ≠ s.disk.availIdx) :
    Inv { s with
      fetched := s.fetched ++ [s.disk.availRing (slot num s.devIdx)]
      devIdx := s.devIdx + 1 } := by
  obtain ⟨qa, qu, L, ha, hu, hheads, hpend, hst, hcomp⟩ := h.heads
  refine ⟨h.noFault, h.table, h.bufs, h.woken, ?_⟩
  cases qa with
  | nil => exact absurd (ha.empty_iff.mpr rfl) hne
  | cons x qa =>
    refine ⟨qa, qu, L, ha.pop, hu, ?_, hpend, hst, hcomp⟩
    have hperm : (x :: qa ++ s.fetched ++ qu).Perm (qa ++ (s.fetched ++ [x]) ++ qu) := by
      have hmid : (x :: (qa ++ s.fetched)).Perm (qa ++ s.fetched ++ [x]) :=
        (List.perm_append_singleton x _).symm
      rw [← List.append_assoc]
      exact hmid.append_right qu
    rw [ha.head]
    exact hheads.trans hperm

theorem Inv.devComplete (h : Inv s) {k x : ℕ} (hk : s.fetched[k]? = some x) :
    Inv { s with
      fetched := s.fetched.eraseIdx k
      disk := complete s.disk x
      completed := s.completed ++ [x] } := by
  obtain ⟨qa, qu, L, ha, hu, hheads, hpend, hst, hcomp⟩ := h.heads
  obtain ⟨hklt, hkx⟩ := List.getElem?_eq_some_iff.mp hk
  have hmem : x ∈ qa ++ s.fetched ++ qu := by
    rw [← hkx]
    simp
  have hperm : (qa ++ s.fetched ++ qu).Perm (qa ++ s.fetched.eraseIdx k ++ (qu ++ [x])) := by
    have herase : s.fetched.Perm (x :: s.fetched.eraseIdx k) := by
      rw [← hkx]
      exact (List.getElem_cons_eraseIdx_perm hklt).symm
    calc (qa ++ s.fetched ++ qu).Perm (qa ++ (x :: s.fetched.eraseIdx k) ++ qu) :=
          (herase.append_left qa).append_right qu
      List.Perm _ (x :: (qa ++ s.fetched.eraseIdx k ++ qu)) := List.perm_middle.append_right qu
      List.Perm _ (qa ++ s.fetched.eraseIdx k ++ (qu ++ [x])) := by
          rw [← List.append_assoc]
          exact (List.perm_append_singleton x _).symm
  obtain ⟨p, r, hr, rfl, -⟩ := hpend.owner_head (hheads.mem_iff.mpr hmem)
  have hinfo := complete_status (h.table.wired hr).toLinked
  have hb : ∀ i, ((complete s.disk r.i0).info i).b = (s.disk.info i).b := by
    intro i
    rw [hinfo]
    by_cases hi : i = r.i0
    · simp [hi]
    · rw [update_of_ne hi]
  have hlen := hpend.length_le h.table
  have hlen' := hheads.length_eq
  simp only [List.length_map, List.length_append] at hlen'
  refine ⟨h.noFault, h.table.congr rfl (fun _ _ => rfl) hb, h.bufs, h.woken, ?_⟩
  have hfit : qu.length < num := by
    have hpos := List.length_pos_of_mem (List.mem_of_getElem? hk)
    omega
  refine ⟨qa, qu ++ [r.i0], L, ha, hu.push num_fits hfit r.i0, hheads.trans hperm, hpend, ?_, ?_⟩
  · intro y hy
    show ((complete s.disk r.i0).info y).status = 0
    rw [hinfo]
    by_cases hyr : y = r.i0
    · simp [hyr]
    · rw [update_of_ne hyr]
      simp only [List.mem_append, List.mem_singleton, hyr, or_false] at hy
      exact hst y hy
  · rw [hcomp, List.append_assoc]

end

/-! ## §6  Runs -/

/-- No other call in progress is for the buffer. -/
def OwnBuf (s : St) : Act → Prop
  | .call _ c => ∀ q, s.buf q ≠ some c.b
  | _ => True

theorem inv_step {s s' : St} {a : Act} (h : Inv s) (ha : OwnBuf s a) (hstep : step s a = some s') :
    Inv s' := by
  unfold step at hstep
  rw [if_neg (by simp [h.noFault])] at hstep
  cases a with
  | call p c =>
    cases hpc : s.pc p <;> simp only [hpc] at hstep <;> try cases hstep
    split at hstep <;> cases hstep
    exact h.trySubmit (by rw [St.req, hpc]; rfl) fun q hq => absurd hq (ha q)
  | recheck p =>
    cases hpc : s.pc p <;> simp only [hpc] at hstep <;> try cases hstep
    rename_i c
    split at hstep <;> cases hstep
    apply h.moved (untaken_refl _)
    · rw [St.req, hpc]
      rfl
    · intro b hb q hq
      exact h.bufs hq (by rw [St.buf, hpc]; exact hb)
    · intro r hr
      cases hr
  | retry p =>
    cases hpc : s.pc p <;> simp only [hpc] at hstep <;> try cases hstep
    split at hstep <;> cases hstep
    apply h.trySubmit (by rw [St.req, hpc]; rfl)
    intro q hq
    exact h.bufs hq (by rw [St.buf, hpc]; rfl)
  | wake p =>
    cases hpc : s.pc p <;> simp only [hpc] at hstep <;> try cases hstep
    split at hstep <;> cases hstep
    rename_i r hmark
    apply h.moved (untaken_refl _)
    · rw [St.req, hpc]
      rfl
    · intro b hb q hq
      exact h.bufs hq (by rw [St.buf, hpc]; exact hb)
    · intro r' hr'
      cases hr'
      exact Bool.not_eq_true _ ▸ hmark
  | finish p =>
    cases hpc : s.pc p <;> simp only [hpc] at hstep <;> try cases hstep
    split at hstep <;> cases hstep
    exact h.finish hpc
  | intrEnter =>
    dsimp only at hstep
    split at hstep <;> cases hstep
    exact h.setIntr true
  | intrRound =>
    dsimp only at hstep
    split at hstep <;> cases hstep
    exact h.intrRound
  | devFetch =>
    dsimp only at hstep
    split at hstep <;> cases hstep
    exact h.devFetch ‹_›
  | devComplete k =>
    dsimp only at hstep
    split at hstep <;> cases hstep
    exact h.devComplete ‹_›

/-- The discipline of descriptors, rings and completions. -/
structure Disciplined (s : St) : Prop where
  /-- no panic of the file has been reached, in particular none of `free_desc` -/
  noFault : s.fault = none
  chain : ∀ p r, s.req p = some r → r.chain.Nodup ∧ ∀ i ∈ r.chain, i < num
  disjoint : ∀ p q r r', s.req p = some r → s.req q = some r' → p ≠ q → r.chain.Disjoint r'.chain
  free : ∀ i < num, (s.disk.free i = true ↔ ∀ p r, s.req p = some r → i ∉ r.chain)
  /-- a failed `alloc3_desc` leaves `disk.free` as it found it -/
  failedAlloc : ∀ d, alloc3Desc s.disk = .ok (none, d) → d.free = s.disk.free
  /-- completions are handled in order, none skipped and none twice -/
  handled : s.completed = s.cleared.map Prod.fst ++
    contents num s.disk.usedRing s.disk.usedIdx s.disk.usedRingIdx
  /-- the `k`-th completion of a head clears the buffer of its `k`-th submission -/
  matched : ∀ h, ofHead h s.cleared <+: ofHead h s.submitted

theorem Inv.disciplined {s : St} (h : Inv s) : Disciplined s := by
  obtain ⟨qa, qu, L, -, hu, -, hpend, -, hcomp⟩ := h.heads
  constructor
  · exact h.noFault
  · exact fun p r hr => ⟨(h.table.wired hr).nodup, (h.table.wired hr).lt⟩
  · exact fun p q r r' hr hr' hne => h.table.disjoint hr hr' hne
  · exact h.table.free
  · intro d hd
    rcases alloc3Desc_spec s.disk with ⟨i0, i1, i2, d', heq, -⟩ | ⟨d', heq, hun⟩
    · rw [heq] at hd
      cases hd
    · rw [heq] at hd
      cases hd
      obtain ⟨desc, cond, rfl, -⟩ := hun
      rfl
  · rw [hcomp, hu.eq_contents]
  · intro x
    rw [hpend.balance, ofHead, ofHead, List.filter_append]
    exact List.prefix_append _ _

/-- In every interleaving of calls for different buffers, handler and device. -/
theorem disciplined_run (as : List Act) (has : Steps step OwnBuf init as) :
    Along step Disciplined init as :=
  along_of_steps (fun _ h => h.disciplined) (fun _ _ _ h ha hs => inv_step h ha hs) inv_init has

/-- Two calls for different buffers, completed in the other order. -/
theorem disciplined_twoCalls :
    Along step Disciplined init
      [.call 1 ⟨0, 7, true⟩, .call 2 ⟨1, 8, false⟩, .devFetch, .devFetch, .devComplete 1,
        .intrEnter, .intrRound, .wake 2, .intrRound, .finish 2] := by
  apply disciplined_run
  intro s₁ h₁
  obtain rfl : trySubmit init 1 ⟨0, 7, true⟩ = s₁ := Option.some.inj h₁
  refine ⟨fun q => Option.some_ne_none _ ∘ Eq.symm, fun s₂ _ => ⟨fun q hq => ?_, ?_⟩⟩
  · -- process 1 is the only one in a call, for buffer 0
    change (update init.pc 1 (.waiting ⟨0, 1, 2, 0⟩) q).buf = some 1 at hq
    by_cases hq1 : q = 1
    · rw [hq1, update_self] at hq
      cases hq
    · rw [update_of_ne hq1] at hq
      cases hq
  · exact fun _ _ => ⟨trivial, fun _ _ => ⟨trivial, fun _ _ => ⟨trivial, fun _ _ => ⟨trivial,
      fun _ _ => ⟨trivial, fun _ _ => ⟨trivial, fun _ _ => ⟨trivial,
        fun _ _ => ⟨trivial, trivial⟩⟩⟩⟩⟩⟩⟩⟩

/-- Two calls for buffer 0: the completion of the first lets the second free its chain, which
the device still works on. A third call gets the same head, and the late completion is
taken for that of the third. -/
def sharedBuf : List Act :=
  [.call 1 ⟨0, 7, true⟩, .call 2 ⟨0, 7, true⟩, .devFetch, .devFetch, .devComplete 0,
    .intrEnter, .intrRound, .intrRound, .wake 2, .finish 2, .call 3 ⟨1, 8, false⟩,
    .devComplete 0, .intrEnter, .intrRound]

theorem not_disciplined_sharedBuf : ¬ Along step Disciplined init sharedBuf := by
  intro h
  obtain ⟨s, hs, hbad⟩ : ∃ s, runFrom step init sharedBuf = some s ∧
      ¬ ofHead 3 s.cleared <+: ofHead 3 s.submitted := by
    refine ⟨_, rfl, ?_⟩
    decide
  exact hbad ((h.last hs).matched 3)

end RiscvBm.Virtio

import RiscvBm.Net.Arp

/-!
# What the ARP table learns

`arp_packet_handle` enters the sender's hardware address under the target's IP address, which
is the local one. So the table learns the sender only if the sender has the local address,
or if it was in the table already: `learns_iff`.

What is in the table is kept in order by `arp_update` and `arp_timer`: `arpTable_maintained`.
-/

namespace RiscvBm.Net

/-! ## §1  One entry is written -/

/-- The entry that `arp_update` writes. -/
def arpSlot (tbl : List ArpEntry) (arptime : BitVec 64) (ipaddr : BitVec 32) : ℕ :=
  match tbl.findIdx? fun e => e.ipaddr ≠ 0 ∧ ipaddr = e.ipaddr with
  | some i => i
  | none =>
    match tbl.findIdx? fun e => e.ipaddr = 0 with
    | some i => i
    | none => oldestEntry arptime tbl 0 0 0

def Full (tbl : List ArpEntry) : Prop := ∀ e ∈ tbl, e.ipaddr ≠ 0

variable {tbl : List ArpEntry} {time : BitVec 64} {ip key : BitVec 32} {mac : Mac} {e : ArpEntry}
  {i : ℕ}

theorem arpUpdate_eq (tbl : List ArpEntry) (time : BitVec 64) (ip : BitVec 32) (mac : Mac) :
    arpUpdate tbl time ip mac = tbl.set (arpSlot tbl time ip) ⟨ip, mac, time⟩ := by
  unfold arpUpdate arpSlot
  cases hi : tbl.findIdx? fun e => e.ipaddr ≠ 0 ∧ ip = e.ipaddr with
  | none => rfl
  | some i =>
    obtain ⟨hlt, hkey, -⟩ := List.findIdx?_eq_some_iff_getElem.mp hi
    rw [decide_eq_true_eq] at hkey
    dsimp only
    rw [List.modify_eq_set_getElem?, List.getElem?_eq_getElem hlt, hkey.2]
    rfl

/-- The entry that is found is older than `age`, or there is none. -/
theorem oldestEntry_max (time : BitVec 64) (l : List ArpEntry) (j c : ℕ) (age : BitVec 64) :
    (oldestEntry time l j c age = c ∧ ∀ x ∈ l, time - x.time ≤ age) ∨
    ∃ i e, oldestEntry time l j c age = j + i ∧ l[i]? = some e ∧ age < time - e.time ∧
      ∀ x ∈ l, time - x.time ≤ time - e.time := by
  induction l generalizing j c age with
  | nil => exact .inl ⟨rfl, fun x hx => absurd hx List.not_mem_nil⟩
  | cons y l ih =>
    rw [oldestEntry]
    split
    · -- `y` is the oldest so far
      rename_i hy
      right
      rcases ih (j + 1) j (time - y.time) with ⟨heq, hall⟩ | ⟨i, e, heq, hget, hlt, hall⟩
      · exact ⟨0, y, heq, rfl, hy, List.forall_mem_cons.mpr ⟨BitVec.le_refl _, hall⟩⟩
      · exact ⟨i + 1, e, by omega, hget, BitVec.lt_trans hy hlt,
          List.forall_mem_cons.mpr ⟨BitVec.le_of_lt hlt, hall⟩⟩
    · rename_i hy
      have hle : time - y.time ≤ age := BitVec.not_lt.mp hy
      rcases ih (j + 1) c age with ⟨heq, hall⟩ | ⟨i, e, heq, hget, hlt, hall⟩
      · exact .inl ⟨heq, List.forall_mem_cons.mpr ⟨hle, hall⟩⟩
      · exact .inr ⟨i + 1, e, by omega, hget, hlt,
          List.forall_mem_cons.mpr ⟨BitVec.le_trans hle (BitVec.le_of_lt hlt), hall⟩⟩

/-- The three cases of `arp_update`: the address is there, an entry is free, or the oldest one
goes. The address is in no entry before the one that is written. -/
theorem arpSlot_cases (hne : tbl ≠ []) (time : BitVec 64) (ip : BitVec 32) :
    ∃ e, tbl[arpSlot tbl time ip]? = some e ∧
      (ip ≠ 0 → ∀ j < arpSlot tbl time ip, ∀ x, tbl[j]? = some x → x.ipaddr ≠ ip) ∧
      (e.ipaddr = ip ∨ ((ip = 0 ∨ arpLookup tbl ip = none) ∧ (e.ipaddr = 0 ∨ (Full tbl ∧
        ∀ x ∈ tbl, time - x.time ≤ time - e.time)))) := by
  unfold arpSlot
  cases hi : tbl.findIdx? fun e => e.ipaddr ≠ 0 ∧ ip = e.ipaddr with
  | some i =>
    obtain ⟨hlt, hkey, hmin⟩ := List.findIdx?_eq_some_iff_getElem.mp hi
    simp only [decide_eq_true_eq] at hkey hmin
    refine ⟨tbl[i], List.getElem?_eq_getElem hlt, fun h0 j hj x hx heq => ?_, .inl hkey.2.symm⟩
    obtain ⟨_, hget⟩ := List.getElem?_eq_some_iff.mp hx
    rw [← hget] at heq
    exact hmin j hj ⟨heq.trans_ne h0, heq.symm⟩
  | none =>
    have hno : ip ≠ 0 → ∀ x ∈ tbl, x.ipaddr ≠ ip := by
      intro h0 x hx heq
      have hx := of_decide_eq_false (List.findIdx?_eq_none_iff.mp hi x hx)
      exact hx ⟨heq.trans_ne h0, heq.symm⟩
    have hfree : ip = 0 ∨ arpLookup tbl ip = none := by
      by_cases h0 : ip = 0
      · exact .inl h0
      · right
        rw [arpLookup, List.find?_eq_none.mpr, Option.map_none]
        exact fun x hx => by simpa using hno h0 x hx
    have hbefore : ∀ i : ℕ, ip ≠ 0 → ∀ j < i, ∀ x, tbl[j]? = some x → x.ipaddr ≠ ip :=
      fun _ h0 _ _ x hx => hno h0 x (List.mem_of_getElem? hx)
    dsimp only
    cases hz : tbl.findIdx? fun e => e.ipaddr = 0 with
    | some i =>
      obtain ⟨hlt, hkey, -⟩ := List.findIdx?_eq_some_iff_getElem.mp hz
      exact ⟨tbl[i], List.getElem?_eq_getElem hlt, hbefore i,
        .inr ⟨hfree, .inl (of_decide_eq_true hkey)⟩⟩
    | none =>
      have hfull : Full tbl :=
        fun x hx => of_decide_eq_false (List.findIdx?_eq_none_iff.mp hz x hx)
      dsimp only
      rcases oldestEntry_max time tbl 0 0 0 with ⟨heq, hall⟩ | ⟨i, e, heq, hget, -, hall⟩
      · rw [heq]
        refine ⟨_, List.getElem?_eq_getElem (List.length_pos_of_ne_nil hne), hbefore _,
          .inr ⟨hfree, .inr ⟨hfull, fun x hx => ?_⟩⟩⟩
        exact BitVec.le_trans (hall x hx) (BitVec.le_def.mpr (Nat.zero_le _))
      · rw [heq, Nat.zero_add]
        exact ⟨e, hget, hbefore i, .inr ⟨hfree, .inr ⟨hfull, hall⟩⟩⟩

/-- The first entry of an address answers for it. -/
theorem arpLookup_first (hi : tbl[i]? = some e)
    (hmin : ∀ j < i, ∀ x, tbl[j]? = some x → x.ipaddr ≠ e.ipaddr) :
    arpLookup tbl e.ipaddr = some e.ethaddr := by
  obtain ⟨hlt, hget⟩ := List.getElem?_eq_some_iff.mp hi
  have hfind : tbl.find? (fun x => x.ipaddr = e.ipaddr) = some e := by
    refine List.find?_eq_some_iff_getElem.mpr ⟨by simp, i, hlt, hget, fun j hj => ?_⟩
    simpa using hmin j hj _ (List.getElem?_eq_getElem (by omega))
  rw [arpLookup, hfind]
  rfl

/-- The written entry does not answer for another address. -/
theorem arpLookup_set (tbl : List ArpEntry) (i : ℕ) (hne : e.ipaddr ≠ key) :
    arpLookup (tbl.set i e) key = arpLookup (tbl.eraseIdx i) key := by
  unfold arpLookup
  congr 1
  induction tbl generalizing i with
  | nil => rfl
  | cons x xs ih =>
    cases i with
    | zero => simp [hne]
    | succ i => simp [List.find?_cons, ih]

theorem arpLookup_eraseIdx (hi : tbl[i]? = some e) (hne : e.ipaddr ≠ key) :
    arpLookup (tbl.eraseIdx i) key = arpLookup tbl key := by
  unfold arpLookup
  congr 1
  induction tbl generalizing i with
  | nil => rfl
  | cons x xs ih =>
    cases i with
    | zero =>
      cases hi
      simp [hne]
    | succ i => simp [List.find?_cons, ih hi]

/-- The entry of `key` at place `i` has made room. -/
def Evicted (tbl tbl' : List ArpEntry) (i : ℕ) (key : BitVec 32) : Prop :=
  (∃ e, tbl[i]? = some e ∧ e.ipaddr = key) ∧ ¬ ∃ e, tbl'[i]? = some e ∧ e.ipaddr = key

theorem arpUpdate_self (hne : tbl ≠ []) (h0 : ip ≠ 0) :
    arpLookup (arpUpdate tbl time ip mac) ip = some mac := by
  obtain ⟨e, he, hmin, -⟩ := arpSlot_cases hne time ip
  obtain ⟨hlt, -⟩ := List.getElem?_eq_some_iff.mp he
  rw [arpUpdate_eq]
  apply arpLookup_first (e := ⟨ip, mac, time⟩) (List.getElem?_set_self hlt)
  intro j hj x hx
  rw [List.getElem?_set_ne (Nat.ne_of_gt hj)] at hx
  exact hmin h0 j hj x hx

theorem not_evicted_self : ¬ Evicted tbl (arpUpdate tbl time ip mac) i ip := by
  rintro ⟨⟨e, he, hip⟩, hgone⟩
  obtain ⟨hlt, -⟩ := List.getElem?_eq_some_iff.mp he
  rw [arpUpdate_eq] at hgone
  by_cases hi : arpSlot tbl time ip = i
  · subst hi
    exact hgone ⟨_, List.getElem?_set_self hlt, rfl⟩
  · exact hgone ⟨e, (List.getElem?_set_ne hi).trans he, hip⟩

theorem arpUpdate_other (hne : tbl ≠ []) (h0 : key ≠ 0) (hkey : key ≠ ip) :
    arpLookup (arpUpdate tbl time ip mac) key = arpLookup tbl key ∨
      (Full tbl ∧ Evicted tbl (arpUpdate tbl time ip mac) (arpSlot tbl time ip) key) := by
  obtain ⟨e, he, -, hcase⟩ := arpSlot_cases hne time ip
  rw [arpUpdate_eq]
  by_cases hek : e.ipaddr = key
  · right
    obtain ⟨hlt, -⟩ := List.getElem?_eq_some_iff.mp he
    rcases hcase with hip | ⟨-, hzero | ⟨hfull, -⟩⟩
    · exact absurd (hek.symm.trans hip) hkey
    · exact absurd (hek.symm.trans hzero) h0
    · refine ⟨hfull, ⟨e, he, hek⟩, ?_⟩
      rintro ⟨e', he', hek'⟩
      rw [List.getElem?_set_self hlt] at he'
      cases he'
      exact hkey hek'.symm
  · left
    rw [arpLookup_set _ _ (Ne.symm hkey), arpLookup_eraseIdx he hek]

/-- The entry of an address that is known is written over. -/
theorem arpUpdate_known (hne : tbl ≠ []) (h0 : ip ≠ 0) (hknown : arpLookup tbl ip ≠ none)
    (hkey : key ≠ ip) : arpLookup (arpUpdate tbl time ip mac) key = arpLookup tbl key := by
  obtain ⟨e, he, -, hip | ⟨hzero | hnone, -⟩⟩ := arpSlot_cases hne time ip
  · rw [arpUpdate_eq, arpLookup_set _ _ (Ne.symm hkey), arpLookup_eraseIdx he]
    exact hip.trans_ne (Ne.symm hkey)
  · exact absurd hzero h0
  · exact absurd hnone hknown

/-! ## §2  Learning -/

/-- A well-formed reply to this host. -/
def ReplyTo (h : Host) (a : Arp) : Prop :=
  (ntohs a.hrd = arpHrdEther ∧ ntohs a.pro = ethtypeIp ∧ a.hln = 6 ∧ a.pln = 4) ∧
    ntohs a.op = arpOpReply ∧ ntohl a.tip = h.localIp

/-- The sender is known afterwards, and no other address is looked up differently, but for
one whose entry had to go. -/
def Learns (h : Host) (a : Arp) : Prop :=
  let tbl := (arpPacketHandle h a).2.arpTable
  arpLookup tbl (ntohl a.sip) = some a.sha ∧
    ∃ i, ∀ key, key ≠ 0 → key ≠ ntohl a.sip →
      arpLookup tbl key = arpLookup h.arpTable key ∨
        (Full h.arpTable ∧ Evicted h.arpTable tbl i key)

theorem arpPacketHandle_table {h : Host} {a : Arp} (hr : ReplyTo h a) :
    (arpPacketHandle h a).2.arpTable = arpUpdate h.arpTable h.arptime h.localIp a.sha := by
  obtain ⟨hwf, hop, htip⟩ := hr
  unfold arpPacketHandle
  dsimp only
  rw [if_neg (by tauto), if_neg (by simp [hop, htip])]
  simp [hop, htip]

/-- **A reply is learned exactly if its sender has the local address, if the table has the
sender's address already under both, or, before a local address is set, if it has it in
another entry than the one that is written.** -/
theorem learns_iff (h : Host) (a : Arp) (hlen : h.arpTable.length = 8) (hr : ReplyTo h a)
    (hs : ntohl a.sip ≠ 0) :
    Learns h a ↔
      ntohl a.sip = h.localIp ∨
      (h.localIp ≠ 0 ∧ arpLookup h.arpTable (ntohl a.sip) = some a.sha ∧
        arpLookup h.arpTable h.localIp = some a.sha) ∨
      (h.localIp = 0 ∧ arpLookup (h.arpTable.eraseIdx (arpSlot h.arpTable h.arptime 0))
        (ntohl a.sip) = some a.sha) := by
  have hne : h.arpTable ≠ [] := by
    intro hnil
    rw [hnil] at hlen
    cases hlen
  unfold Learns
  simp only [arpPacketHandle_table hr]
  generalize ntohl a.sip = s at hs ⊢
  have hother := fun key => @arpUpdate_other h.arpTable h.arptime h.localIp key a.sha hne
  by_cases hsl : s = h.localIp
  · -- the key that is written is the sender's
    subst hsl
    exact iff_of_true ⟨arpUpdate_self hne hs, _, hother⟩ (.inl rfl)
  · simp only [hsl, false_or]
    by_cases h0 : h.localIp = 0
    · simp only [h0, ne_eq, not_true_eq_false, false_and, false_or, true_and]
      rw [h0] at hother
      have hset : arpLookup (arpUpdate h.arpTable h.arptime 0 a.sha) s =
          arpLookup (h.arpTable.eraseIdx (arpSlot h.arpTable h.arptime 0)) s := by
        rw [arpUpdate_eq, arpLookup_set _ _ (Ne.symm hs)]
      rw [hset]
      exact and_iff_left ⟨_, fun key hk _ => hother key hk hk⟩
    · simp only [h0, ne_eq, not_false_eq_true, true_and, false_and, or_false]
      have hself : arpLookup (arpUpdate h.arpTable h.arptime h.localIp a.sha) h.localIp =
        some a.sha :=
        arpUpdate_self hne h0
      constructor
      · rintro ⟨hknown, i, hrest⟩
        have hlocal : arpLookup h.arpTable h.localIp = some a.sha := by
          rcases hrest h.localIp h0 (Ne.symm hsl) with heq | ⟨-, hev⟩
          · rw [← heq, hself]
          · exact absurd hev not_evicted_self
        rw [arpUpdate_known hne h0 (by simp [hlocal]) hsl] at hknown
        exact ⟨hknown, hlocal⟩
      · rintro ⟨hknown, hlocal⟩
        have hsame : ∀ key, key ≠ h.localIp → arpLookup
            (arpUpdate h.arpTable h.arptime h.localIp a.sha) key = arpLookup h.arpTable key :=
          fun key hk => arpUpdate_known hne h0 (by simp [hlocal]) hk
        refine ⟨(hsame s hsl).trans hknown, 0, fun key _ _ => .inl ?_⟩
        by_cases hk : key = h.localIp
        · rw [hk, hself, hlocal]
        · exact hsame key hk

/-- A host with the address `ip` that knows nobody. -/
def stranger (ip : BitVec 32) : Host := Host.init ip 0xffffff00

/-- The reply of a host with the address `sip` to `stranger tip`. -/
def reply (sip tip : BitVec 32) : Arp :=
  arpHeader (stranger sip) arpOpReply localMac tip

/-- A host that announces itself under the address of this one is learned. -/
theorem learns_own : Learns (stranger 0x0a00020f) (reply 0x0a00020f 0x0a00020f) :=
  (learns_iff _ _ rfl (by unfold ReplyTo; decide) (by decide)).mpr (.inl (by decide))

/-- The reply of 10.0.2.2 to 10.0.2.15 leaves 10.0.2.2 unknown. -/
theorem not_learns_gateway :
    ReplyTo (stranger 0x0a00020f) (reply 0x0a000202 0x0a00020f) ∧
      ¬ Learns (stranger 0x0a00020f) (reply 0x0a000202 0x0a00020f) := by
  refine ⟨by unfold ReplyTo; decide, fun hlearns => absurd hlearns.1 ?_⟩
  decide

/-! ## §3  Ageing

The history of the table is kept beside it: for each address its latest update, and the
ticks of `arp_timer` since then.
-/

/-- `ARP_MAXAGE_TIME` -/
def arpMaxageTime : ℕ := 120

/-- The loop of `arp_timer`. -/
def arpTimer (tbl : List ArpEntry) (arptime : BitVec 64) : List ArpEntry :=
  tbl.map fun e =>
    if e.ipaddr ≠ 0 ∧ arptime - e.time ≥ .ofNat 64 arpMaxageTime then { e with ipaddr := 0 } else e

def Present (tbl : List ArpEntry) (ip : BitVec 32) : Prop := ∃ e ∈ tbl, e.ipaddr = ip

instance (tbl : List ArpEntry) (ip : BitVec 32) : Decidable (Present tbl ip) :=
  inferInstanceAs (Decidable (∃ e ∈ tbl, e.ipaddr = ip))

structure Ageing where
  tbl : List ArpEntry
  arptime : BitVec 64
  /-- the latest update, if the address was not evicted since, and its age in ticks -/
  updated : BitVec 32 → Option (Mac × ℕ)

inductive ArpStep where
  | update (ip : BitVec 32) (mac : Mac) (h : ip ≠ 0)
  | timer

def Ageing.step (s : Ageing) : ArpStep → Ageing
  | .update ip mac _ =>
    { s with
      tbl := arpUpdate s.tbl s.arptime ip mac
      updated := fun key =>
        if key = ip then some (mac, 0)
        -- an update of another address makes this one disappear
        else if Present s.tbl key ∧ ¬ Present (arpUpdate s.tbl s.arptime ip mac) key then none
        else s.updated key }
  | .timer =>
    { tbl := arpTimer s.tbl (s.arptime + 1)
      arptime := s.arptime + 1
      updated := fun key => (s.updated key).map fun u => (u.1, u.2 + 1) }

/-- After `ip_arp_init`. -/
def Ageing.init : Ageing := ⟨List.replicate 8 ⟨0, Vector.replicate _ 0, 0⟩, 0, fun _ => none⟩

/-- The age of an address in ticks. -/
def Ageing.age (s : Ageing) (ip : BitVec 32) : ℕ := ((s.updated ip).map Prod.snd).getD 0

/-- No two entries have the same address. -/
def Unique (tbl : List ArpEntry) : Prop := ∀ (i j : ℕ) (e e' : ArpEntry),
  tbl[i]? = some e → tbl[j]? = some e' → e.ipaddr ≠ 0 → e.ipaddr = e'.ipaddr → i = j

/-- The table is what the history says. -/
structure Maintained (s : Ageing) : Prop where
  unique : Unique s.tbl
  present : ∀ ip ≠ 0, Present s.tbl ip ↔ ∃ u, s.updated ip = some u ∧ u.2 < arpMaxageTime
  mac : ∀ e ∈ s.tbl, e.ipaddr ≠ 0 → (s.updated e.ipaddr).map Prod.fst = some e.ethaddr
  evicts : ∀ ip mac, ip ≠ 0 → ∀ key ≠ 0, Present s.tbl key →
    ¬ Present (arpUpdate s.tbl s.arptime ip mac) key →
      s.tbl.length = 8 ∧ Full s.tbl ∧ ∀ other, Present s.tbl other → s.age other ≤ s.age key

/-- What the steps preserve: the times in the table are the ages, as long as they are small. -/
structure Ageing.Inv (s : Ageing) : Prop where
  length : s.tbl.length = 8
  unique : Unique s.tbl
  entry : ∀ e ∈ s.tbl, e.ipaddr ≠ 0 → ∃ a < arpMaxageTime,
    s.updated e.ipaddr = some (e.ethaddr, a) ∧ s.arptime - e.time = .ofNat 64 a
  fresh : ∀ ip ≠ 0, ∀ u, s.updated ip = some u → u.2 < arpMaxageTime → Present s.tbl ip

variable {s : Ageing}

theorem Ageing.Inv.ne_nil (h : s.Inv) : s.tbl ≠ [] := by
  intro hnil
  have hlen := h.length
  rw [hnil] at hlen
  cases hlen

/-- After an update one entry has the address, and the others are as they were. -/
theorem Ageing.Inv.getElem?_update (h : s.Inv) (h0 : ip ≠ 0)
    (hi : (arpUpdate s.tbl s.arptime ip mac)[i]? = some e) :
    (i = arpSlot s.tbl s.arptime ip ∧ e = ⟨ip, mac, s.arptime⟩) ∨
      (e.ipaddr ≠ ip ∧ s.tbl[i]? = some e) := by
  rw [arpUpdate_eq, List.getElem?_set] at hi
  split at hi
  · rename_i hslot
    split at hi
    · exact .inl ⟨hslot.symm, (Option.some.inj hi).symm⟩
    · cases hi
  · rename_i hslot
    refine .inr ⟨fun hip => ?_, hi⟩
    obtain ⟨x, hx, -, hsame | ⟨hzero | hnone, -⟩⟩ := arpSlot_cases h.ne_nil s.arptime ip
    · exact hslot (h.unique _ _ _ _ hx hi (hsame ▸ h0) (hsame.trans hip.symm))
    · exact h0 hzero
    · rw [arpLookup, Option.map_eq_none_iff, List.find?_eq_none] at hnone
      exact hnone e (List.mem_of_getElem? hi) (decide_eq_true hip)

theorem Ageing.Inv.update (h : s.Inv) (h0 : ip ≠ 0) : (s.step (.update ip mac h0)).Inv := by
  constructor
  · show (arpUpdate s.tbl s.arptime ip mac).length = 8
    rw [arpUpdate_eq, List.length_set, h.length]
  · intro i j e e' hi hj hne heq
    rcases h.getElem?_update h0 hi with ⟨hslot, rfl⟩ | ⟨hip, hi⟩ <;>
      rcases h.getElem?_update h0 hj with ⟨hslot', rfl⟩ | ⟨hip', hj⟩
    · rw [hslot, hslot']
    · exact absurd heq.symm hip'
    · exact absurd heq hip
    · exact h.unique _ _ _ _ hi hj hne heq
  · intro e he hne
    obtain ⟨i, hi⟩ := List.getElem?_of_mem he
    rcases h.getElem?_update h0 hi with ⟨-, rfl⟩ | ⟨hip, hi⟩
    · exact ⟨0, by decide, if_pos rfl, BitVec.sub_self _⟩
    · obtain ⟨a, ha, hu, htime⟩ := h.entry e (List.mem_of_getElem? hi) hne
      refine ⟨a, ha, (if_neg hip).trans ((if_neg ?_).trans hu), htime⟩
      exact fun hgone => hgone.2 ⟨e, he, rfl⟩
  · intro key hkey u hu hage
    by_cases hk : key = ip
    · subst hk
      obtain ⟨x, hx, -⟩ := arpSlot_cases h.ne_nil s.arptime key
      obtain ⟨hlt, -⟩ := List.getElem?_eq_some_iff.mp hx
      refine ⟨⟨key, mac, s.arptime⟩, ?_, rfl⟩
      show _ ∈ arpUpdate s.tbl s.arptime key mac
      rw [arpUpdate_eq]
      exact List.mem_of_getElem? (List.getElem?_set_self hlt)
    · replace hu := (if_neg hk).symm.trans hu
      by_contra hgone
      by_cases hpresent : Present s.tbl key
      · rw [if_pos ⟨hpresent, hgone⟩] at hu
        cases hu
      · rw [if_neg fun hc => hpresent hc.1] at hu
        exact hpresent (h.fresh key hkey u hu hage)

/-- `arp_timer` keeps an entry if it is not too old. -/
theorem Ageing.Inv.survives (h : s.Inv) (he : e ∈ s.tbl) (h0 : e.ipaddr ≠ 0) :
    ∃ a, s.updated e.ipaddr = some (e.ethaddr, a) ∧ s.arptime + 1 - e.time = .ofNat 64 (a + 1) ∧
      (s.arptime + 1 - e.time ≥ .ofNat 64 arpMaxageTime ↔ arpMaxageTime ≤ a + 1) := by
  obtain ⟨a, ha, hu, htime⟩ := h.entry e he h0
  have hsucc : s.arptime + 1 - e.time = .ofNat 64 (a + 1) := by
    rw [BitVec.ofNat_add, ← htime]
    bv_omega
  refine ⟨a, hu, hsucc, ?_⟩
  rw [hsucc, ge_iff_le, BitVec.le_def, BitVec.toNat_ofNat, BitVec.toNat_ofNat]
  unfold arpMaxageTime at ha ⊢
  omega

theorem getElem?_arpTimer (h : (arpTimer tbl time)[i]? = some e) (h0 : e.ipaddr ≠ 0) :
    tbl[i]? = some e ∧ ¬ time - e.time ≥ .ofNat 64 arpMaxageTime := by
  rw [arpTimer, List.getElem?_map, Option.map_eq_some_iff] at h
  obtain ⟨x, hx, rfl⟩ := h
  split at h0
  · exact absurd rfl h0
  · rename_i hold
    rw [if_neg hold]
    exact ⟨hx, fun hge => hold ⟨h0, hge⟩⟩

theorem Ageing.Inv.timer (h : s.Inv) : (s.step .timer).Inv := by
  constructor
  · show (arpTimer s.tbl _).length = 8
    rw [arpTimer, List.length_map, h.length]
  · intro i j e e' hi hj hne heq
    exact h.unique _ _ _ _ (getElem?_arpTimer hi hne).1 (getElem?_arpTimer hj (heq ▸ hne)).1 hne heq
  · intro e he hne
    obtain ⟨i, hi⟩ := List.getElem?_of_mem he
    obtain ⟨hold, hyoung⟩ := getElem?_arpTimer hi hne
    obtain ⟨a, hu, htime, hiff⟩ := h.survives (List.mem_of_getElem? hold) hne
    refine ⟨a + 1, Nat.lt_of_not_le fun hle => hyoung (hiff.mpr hle), ?_, htime⟩
    show (s.updated e.ipaddr).map _ = _
    rw [hu]
    rfl
  · intro ip h0 u hu hage
    obtain ⟨v, hv, rfl⟩ := Option.map_eq_some_iff.mp hu
    obtain ⟨e, he, rfl⟩ := h.fresh ip h0 v hv (Nat.lt_of_succ_lt hage)
    obtain ⟨a, hu', -, hiff⟩ := h.survives he h0
    obtain rfl := Option.some.inj (hv.symm.trans hu')
    refine ⟨e, List.mem_map.mpr ⟨e, he, if_neg ?_⟩, rfl⟩
    exact fun hc => absurd (hiff.mp hc.2) (Nat.not_le.mpr hage)

theorem Ageing.Inv.maintained (h : s.Inv) : Maintained s := by
  refine ⟨h.unique, fun ip h0 => ⟨?_, ?_⟩, ?_, ?_⟩
  · rintro ⟨e, he, rfl⟩
    obtain ⟨a, ha, hu, -⟩ := h.entry e he h0
    exact ⟨_, hu, ha⟩
  · rintro ⟨u, hu, hage⟩
    exact h.fresh ip h0 u hu hage
  · intro e he h0
    obtain ⟨a, -, hu, -⟩ := h.entry e he h0
    rw [hu]
    rfl
  · rintro ip mac h0 key hkey ⟨e, he, rfl⟩ hgone
    obtain ⟨i, hi⟩ := List.getElem?_of_mem he
    rw [arpUpdate_eq] at hgone
    -- the entry that disappears is the one that was written
    have hslot : i = arpSlot s.tbl s.arptime ip := by
      by_contra hne
      exact hgone ⟨e, List.mem_of_getElem? ((List.getElem?_set_ne (Ne.symm hne)).trans hi), rfl⟩
    subst hslot
    obtain ⟨hlt, -⟩ := List.getElem?_eq_some_iff.mp hi
    obtain ⟨y, hy, -, hcase⟩ := arpSlot_cases h.ne_nil s.arptime ip
    obtain rfl := Option.some.inj (hi.symm.trans hy)
    rcases hcase with rfl | ⟨-, hzero | ⟨hfull, hmax⟩⟩
    · exact absurd ⟨_, List.mem_of_getElem? (List.getElem?_set_self hlt), rfl⟩ hgone
    · exact absurd hzero hkey
    refine ⟨h.length, hfull, ?_⟩
    rintro other ⟨x, hx, rfl⟩
    obtain ⟨a, ha, hu, htime⟩ := h.entry e he hkey
    obtain ⟨b, hb, hv, htime'⟩ := h.entry x hx (hfull x hx)
    have hle := hmax x hx
    rw [htime, htime', BitVec.le_def, BitVec.toNat_ofNat, BitVec.toNat_ofNat] at hle
    rw [Ageing.age, Ageing.age, hu, hv]
    unfold arpMaxageTime at ha hb
    show b ≤ a
    omega

/-- **The table is maintained.** In every state that updates and ticks lead to, an address
is in the table, in one place and with the hardware address of its latest update, exactly if
that update is fewer than `ARP_MAXAGE_TIME` ticks old and it was not evicted since; only a
full table evicts, and then an address of maximal age. -/
theorem arpTable_maintained (steps : List ArpStep) :
    Maintained (steps.foldl Ageing.step .init) := by
  have hinv : ∀ s : Ageing, s.Inv → (steps.foldl Ageing.step s).Inv := by
    induction steps with
    | nil => exact fun s h => h
    | cons a steps ih =>
      intro s h
      cases a with
      | update ip mac h0 => exact ih _ (h.update h0)
      | timer => exact ih _ h.timer
  refine (hinv _ ⟨rfl, ?_, ?_, ?_⟩).maintained
  · intro i j e e' hi _ hne
    exact absurd (congrArg ArpEntry.ipaddr (List.eq_of_mem_replicate (List.mem_of_getElem? hi))) hne
  · intro e he hne
    exact absurd (congrArg ArpEntry.ipaddr (List.eq_of_mem_replicate he)) hne
  · intro ip _ u hu
    cases hu

end RiscvBm.Net

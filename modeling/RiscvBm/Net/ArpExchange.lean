import RiscvBm.Lib.Transition
import RiscvBm.Net.Udp

/-!
# ARP between two hosts

Two hosts that run this code share a wire. Frames in flight are delivered in any order; what
the receiver sends goes to the other host.

`arp_packet_handle` returns 0 for replies to this host only, and `net_rx_arp` answers
whatever it returned 0 for. So requests are never answered (`replies_of_request`), and a
reply is answered by a reply: two hosts exchange replies for ever (`replies_forever`).
`settles_iff_quiet` says what is left of the protocol.
-/

namespace RiscvBm.Net

open Wire Transition Function

/-! ## §1  The wire -/

/-- What the receive filter of the device lets through: the station's address and broadcasts. -/
def accepts (f : List Byte) : Bool :=
  let dhost := (eth.decode (f.take eth.size)).dhost
  dhost = localMac ∨ dhost = broadcastMac

/-- The buffer with a received frame. -/
def rxMbuf (f : List Byte) : Mbuf := ⟨write (fun _ => 0) 0 f, 0, f.length⟩

structure Link where
  host : Bool → Host
  /-- frames in flight, each with its receiver -/
  flight : List (Bool × List Byte)
  /-- history: the frames that deliveries have produced -/
  produced : List (List Byte)

inductive Deliver where
  | deliver (k : ℕ) (env : Env)

/-- The `k`-th frame in flight arrives. -/
def linkStep (s : Link) : Deliver → Option Link
  | .deliver k env =>
    match s.flight[k]? with
    | none => none
    | some (r, f) =>
      if accepts f then
        match netRx (s.host r) env (rxMbuf f) with
        | .error _ => none
        | .ok (h, sent, _) =>
          some ⟨update s.host r h, s.flight.eraseIdx k ++ sent.map (!r, ·),
            s.produced ++ sent⟩
      else some { s with flight := s.flight.eraseIdx k }

/-! ## §2  What the protocol asks for -/

/-- The ARP packet in a frame, if it is well formed. -/
def arpOf (f : List Byte) : Option Arp :=
  let a := arp.decode ((f.drop eth.size).take arp.size)
  if eth.size + arp.size ≤ f.length ∧ ntohs (eth.decode (f.take eth.size)).type = ethtypeArp ∧
      ntohs a.hrd = arpHrdEther ∧ ntohs a.pro = ethtypeIp ∧ a.hln = 6 ∧ a.pln = 4 then some a
  else none

/-- `f` asks for the address of `h`. -/
def Requests (h : Host) (f : List Byte) (a : Arp) : Prop :=
  arpOf f = some a ∧ ntohs a.op = arpOpRequest ∧ ntohl a.tip = h.localIp

/-- A request for the host's address is answered by one reply, to the requester; a reply is
not answered. -/
structure Answers (h : Host) (env : Env) (f : List Byte) (sent : List (List Byte)) : Prop where
  request : ∀ a, Requests h f a → env.mem = true →
    sent = [arpFrame h arpOpReply a.sha (ntohl a.sip)]
  reply : ∀ a, arpOf f = some a → ntohs a.op = arpOpReply → sent = []

/-- The delivery is answered as it should be. -/
def Answered (s : Link) : Deliver → Prop
  | .deliver k env => ∀ r f, s.flight[k]? = some (r, f) → accepts f = true →
      ∀ h sent d, netRx (s.host r) env (rxMbuf f) = .ok (h, sent, d) →
        Answers (s.host r) env f sent

/-- Every delivery in every order is answered as it should be, and the messages come to an
end. -/
structure Settles (s : Link) : Prop where
  answered : ∀ as, Steps linkStep Answered s as
  finite : ∃ n, ∀ as s', runFrom linkStep s as = some s' → s'.produced.length ≤ n

/-- `f` is neither a request for the address of `h` nor a reply to it. -/
def Quiet (h : Host) (f : List Byte) : Prop :=
  ∀ a, arpOf f = some a → ntohl a.tip = h.localIp →
    ntohs a.op ≠ arpOpRequest ∧ ntohs a.op ≠ arpOpReply

/-! ## §3  What a delivery produces -/

variable {h : Host} {env : Env} {f : List Byte}

/-- The frames that `net_rx` sends. -/
def replies (h : Host) (env : Env) (f : List Byte) : List (List Byte) :=
  match arpOf f with
  | some a =>
    if ntohs a.op = arpOpReply ∧ ntohl a.tip = h.localIp ∧ env.mem then
      [arpFrame h arpOpReply a.sha (ntohl a.sip)]
    else []
  | none => []

theorem data_rxMbuf (f : List Byte) : (rxMbuf f).data = f := by
  show read (write (fun _ => 0) 0 f) 0 f.length = f
  exact read_write_same

theorem arpFrame_congr {h' : Host} (heq : h'.localIp = h.localIp) (op : BitVec 16) (dmac : Mac)
    (dip : BitVec 32) : arpFrame h' op dmac dip = arpFrame h op dmac dip := by
  unfold arpFrame arpHeader
  rw [heq]

theorem arpPacketHandle_localIp (h : Host) (a : Arp) :
    (arpPacketHandle h a).2.localIp = h.localIp := by
  unfold arpPacketHandle
  dsimp only
  split_ifs <;> rfl

/-- `arp_packet_handle` returns 0 for well-formed replies to this host. -/
theorem arpPacketHandle_fst (h : Host) (a : Arp) :
    (arpPacketHandle h a).1 = true ↔
      ((ntohs a.hrd = arpHrdEther ∧ ntohs a.pro = ethtypeIp ∧ a.hln = 6 ∧ a.pln = 4) ∧
        ntohs a.op = arpOpReply ∧ ntohl a.tip = h.localIp) := by
  unfold arpPacketHandle
  dsimp only
  by_cases hwf : ntohs a.hrd = arpHrdEther ∧ ntohs a.pro = ethtypeIp ∧ a.hln = 6 ∧ a.pln = 4
  · rw [if_neg (by tauto)]
    simp only [hwf, true_and]
    split_ifs <;> simp_all
  · rw [if_pos (by tauto)]
    exact iff_of_false Bool.false_ne_true fun hc => hwf hc.1

theorem pull_front {m : Mbuf} {n : ℕ} (hn : n ≤ m.data.length) :
    ∃ m', mbufpull m n = some (m.head, m') ∧ read m'.buf m.head n = m.data.take n ∧
      m'.data = m.data.drop n := by
  have hlen : (m.data.take n).length = n := List.length_take_of_le hn
  obtain ⟨m', hpull, hbuf, hread, hdata⟩ :=
    mbufpull_of_data (List.take_append_drop n m.data).symm
  rw [hlen] at hpull hread
  refine ⟨m', hpull, ?_, hdata⟩
  rw [hbuf, hread]

theorem pull_short {m : Mbuf} {n : ℕ} (hn : ¬ n ≤ m.data.length) : mbufpull m n = none := by
  rw [length_data] at hn
  exact if_pos (by omega)

/-- What `net_rx_arp` sends for the packet `l`. -/
theorem netRxArp_eq {m : Mbuf} :
    ∃ h', h'.localIp = h.localIp ∧ netRxArp h env m = .ok (h',
      let a := arp.decode (m.data.take arp.size)
      if arp.size ≤ m.data.length ∧ (arpPacketHandle h a).1 ∧ env.mem then
        [arpFrame h arpOpReply a.sha (ntohl a.sip)]
      else []) := by
  unfold netRxArp
  by_cases hlen : arp.size ≤ m.data.length
  · obtain ⟨m', hpull, hread, -⟩ := pull_front hlen
    rw [hpull]
    simp only [Mbuf.load, hread]
    have hip := arpPacketHandle_localIp h (arp.decode (m.data.take arp.size))
    generalize arpPacketHandle h (arp.decode (m.data.take arp.size)) = res at hip ⊢
    obtain ⟨ok, h'⟩ := res
    refine ⟨h', hip, ?_⟩
    cases ok with
    | false => simp
    | true =>
      dsimp only
      rw [netTxArp_eq, arpFrame_congr hip]
      simp only [hlen, true_and, bind, Except.bind, pure, Except.pure]
  · rw [pull_short hlen]
    refine ⟨h, rfl, ?_⟩
    dsimp only
    rw [if_neg fun hc => hlen hc.1]

theorem netRx_eq (h : Host) (env : Env) (f : List Byte) :
    ∃ h' d, h'.localIp = h.localIp ∧
      netRx h env (rxMbuf f) = .ok (h', replies h env f, d) := by
  unfold netRx replies
  have hdata := data_rxMbuf f
  by_cases hlen : eth.size ≤ f.length
  · obtain ⟨m, hpull, hread, hrest⟩ := pull_front (m := rxMbuf f) (n := eth.size)
      (by rw [hdata]; exact hlen)
    rw [hdata] at hread hrest
    rw [hpull]
    simp only [Mbuf.load, hread]
    by_cases hip : ntohs (eth.decode (f.take eth.size)).type = ethtypeIp
    · have hnot : arpOf f = none := by
        rw [arpOf, if_neg]
        rintro ⟨-, harp, -⟩
        rw [hip] at harp
        exact absurd harp (by decide)
      rw [if_pos hip, hnot]
      exact ⟨h, _, rfl, rfl⟩
    · rw [if_neg hip]
      by_cases harp : ntohs (eth.decode (f.take eth.size)).type = ethtypeArp
      · rw [if_pos harp]
        obtain ⟨h', hip', hrx⟩ := @netRxArp_eq h env m
        rw [hrx, hrest]
        refine ⟨h', none, hip', ?_⟩
        simp only [bind, Except.bind, pure, Except.pure]
        congr 3
        simp only [arpPacketHandle_fst, List.length_drop, arpOf, harp, true_and]
        -- the two sides check the same fields
        by_cases hwf : eth.size + arp.size ≤ f.length ∧
            ntohs (arp.decode ((f.drop eth.size).take arp.size)).hrd = arpHrdEther ∧
            ntohs (arp.decode ((f.drop eth.size).take arp.size)).pro = ethtypeIp ∧
            (arp.decode ((f.drop eth.size).take arp.size)).hln = 6 ∧
            (arp.decode ((f.drop eth.size).take arp.size)).pln = 4
        · rw [if_pos hwf]
          have hsize : arp.size ≤ f.length - eth.size := by omega
          simp only [hsize, hwf.2, true_and, and_assoc]
        · rw [if_neg hwf]
          apply if_neg
          rintro ⟨hsize, ⟨hfields, -⟩, -⟩
          exact hwf ⟨by omega, hfields⟩
      · have hnot : arpOf f = none := by
          rw [arpOf, if_neg]
          rintro ⟨-, harp', -⟩
          exact harp harp'
        rw [if_neg harp, hnot]
        exact ⟨h, none, rfl, rfl⟩
  · have hnot : arpOf f = none := by
      rw [arpOf, if_neg]
      rintro ⟨hle, -⟩
      omega
    rw [pull_short (by rw [hdata]; exact hlen), hnot]
    exact ⟨h, none, rfl, rfl⟩

/-- A request is never answered. -/
theorem replies_of_request {a : Arp} (hr : Requests h f a) : replies h env f = [] := by
  obtain ⟨ha, hop, -⟩ := hr
  rw [replies, ha]
  apply if_neg
  rintro ⟨hop', -⟩
  rw [hop] at hop'
  exact absurd hop' (by decide)

/-- A reply is answered by a reply. -/
theorem replies_of_reply {a : Arp} (ha : arpOf f = some a) (hop : ntohs a.op = arpOpReply)
    (htip : ntohl a.tip = h.localIp) (hmem : env.mem = true) :
    replies h env f = [arpFrame h arpOpReply a.sha (ntohl a.sip)] := by
  rw [replies, ha]
  exact if_pos ⟨hop, htip, hmem⟩

theorem replies_of_quiet (hq : Quiet h f) : replies h env f = [] := by
  unfold replies
  split
  · next a ha =>
    apply if_neg
    rintro ⟨hop, htip, -⟩
    exact (hq a ha htip).2 hop
  · rfl

/-! ## §4  When the exchange settles -/

/-- One delivery: the receiver keeps its address and its replies go the other way. -/
theorem linkStep_of_get {s : Link} {k : ℕ} (env : Env) {r : Bool} {f : List Byte}
    (hget : s.flight[k]? = some (r, f)) :
    ∃ h', h'.localIp = (s.host r).localIp ∧ linkStep s (.deliver k env) =
      some ⟨update s.host r h',
        s.flight.eraseIdx k ++
          (if accepts f then replies (s.host r) env f else []).map (!r, ·),
        s.produced ++ if accepts f then replies (s.host r) env f else []⟩ := by
  obtain ⟨h', d, hip, hrx⟩ := netRx_eq (s.host r) env f
  simp only [linkStep, hget, hrx]
  by_cases hacc : accepts f = true
  · exact ⟨h', hip, by simp only [hacc, if_true]⟩
  · exact ⟨s.host r, rfl, by simp [hacc]⟩

theorem answered_iff {s : Link} {k : ℕ} {env : Env} {r : Bool} {f : List Byte}
    (hget : s.flight[k]? = some (r, f)) (hacc : accepts f = true) :
    Answered s (.deliver k env) ↔ Answers (s.host r) env f (replies (s.host r) env f) := by
  obtain ⟨h', d, -, hrx⟩ := netRx_eq (s.host r) env f
  constructor
  · intro hans
    exact hans r f hget hacc h' _ d hrx
  · intro hans r' f' hget' _ h'' sent d' hrx'
    rw [hget] at hget'
    cases hget'
    rw [hrx] at hrx'
    cases hrx'
    exact hans

/-- All frames that will be looked at are quiet, and none was produced. -/
structure Calm (s₀ s : Link) : Prop where
  quiet : ∀ p ∈ s.flight, accepts p.2 = true → Quiet (s.host p.1) p.2
  produced : s.produced = s₀.produced

theorem calm_step (s₀ s : Link) (a : Deliver) (s' : Link) (h : Calm s₀ s)
    (hs : linkStep s a = some s') : Calm s₀ s' ∧ Answered s a := by
  cases a with
  | deliver k env =>
    cases hget : s.flight[k]? with
    | none => simp [linkStep, hget] at hs
    | some p =>
      obtain ⟨r, f⟩ := p
      have hmem : (r, f) ∈ s.flight := List.mem_of_getElem? hget
      obtain ⟨h', hip, hstep⟩ := linkStep_of_get env hget
      have hnone : (if accepts f then replies (s.host r) env f else []) = [] := by
        split_ifs with hacc
        · exact replies_of_quiet (h.quiet _ hmem hacc)
        · rfl
      rw [hstep, hnone] at hs
      cases hs
      refine ⟨⟨?_, by simp [h.produced]⟩, ?_⟩
      · intro p hp hacc a ha htip
        simp only [List.map_nil, List.append_nil] at hp
        apply h.quiet p (List.mem_of_mem_eraseIdx hp) hacc a ha
        dsimp only at htip
        by_cases hr : p.1 = r
        · rw [hr, update_self, hip] at htip
          rw [hr, htip]
        · rwa [update_of_ne hr] at htip
      · by_cases hacc : accepts f = true
        · rw [answered_iff hget hacc, replies_of_quiet (h.quiet _ hmem hacc)]
          refine ⟨?_, fun _ _ _ => rfl⟩
          rintro a ⟨ha, hop, htip⟩ -
          exact absurd hop (h.quiet _ hmem hacc a ha htip).1
        · intro r' f' hget' hacc'
          rw [hget] at hget'
          cases hget'
          exact absurd hacc' hacc

/-- The exchange settles exactly if no frame in flight is a request for its receiver's address
or a reply to it: the first would have to be answered and the second must not be. -/
theorem settles_iff_quiet (s : Link) :
    Settles s ↔ ∀ p ∈ s.flight, accepts p.2 = true → Quiet (s.host p.1) p.2 := by
  constructor
  · rintro ⟨hans, -⟩ ⟨r, f⟩ hp hacc a ha htip
    obtain ⟨k, hget⟩ := List.getElem?_of_mem hp
    obtain ⟨h', -, hstep⟩ := linkStep_of_get ⟨true, 0, []⟩ hget
    have hmeets := (hans [.deliver k ⟨true, 0, []⟩] _ hstep).1
    rw [answered_iff hget hacc] at hmeets
    constructor
    · intro hop
      have hr : Requests (s.host r) f a := ⟨ha, hop, htip⟩
      have hsent := hmeets.request a hr rfl
      rw [replies_of_request hr] at hsent
      cases hsent
    · intro hop
      have hsent := hmeets.reply a ha hop
      rw [replies_of_reply ha hop htip rfl] at hsent
      cases hsent
  · intro hq
    have hcalm : Calm s s := ⟨hq, rfl⟩
    constructor
    · intro as
      exact steps_of_steps (fun t a t' ht _ hs => calm_step s t a t' ht hs) hcalm
        (steps_of_forall s (fun _ _ => trivial) : Steps linkStep (fun _ _ => True) s as)
    · refine ⟨s.produced.length, fun as s' hrun => ?_⟩
      have hcalm' := run_invariant (fun t a t' ht hs => (calm_step s t a t' ht hs).1) hcalm hrun
      rw [hcalm'.produced]

/-! ## §5  Replies for ever -/

/-- The reply that `h` sends to a host with the address `dip`. -/
def replyTo (h : Host) (dip : BitVec 32) : List Byte := arpFrame h arpOpReply localMac dip

theorem take_arpFrame (h : Host) (op : BitVec 16) (dmac : Mac) (dip : BitVec 32) :
    (arpFrame h op dmac dip).take eth.size = eth.encode ⟨dmac, localMac, htons ethtypeArp⟩ :=
  List.take_left' (eth.length_encode _)

theorem accepts_replyTo (h : Host) (dip : BitVec 32) : accepts (replyTo h dip) = true := by
  unfold accepts replyTo
  rw [take_arpFrame, eth.decode_encode]
  simp

theorem arpOf_replyTo (h : Host) (dip : BitVec 32) :
    arpOf (replyTo h dip) = some (arpHeader h arpOpReply localMac dip) := by
  have hdrop : (replyTo h dip).drop eth.size = arp.encode (arpHeader h arpOpReply localMac dip) :=
    List.drop_left' (eth.length_encode _)
  have htake : (arp.encode (arpHeader h arpOpReply localMac dip)).take arp.size =
      arp.encode (arpHeader h arpOpReply localMac dip) := by
    apply List.take_of_length_le
    rw [arp.length_encode]
  have hlen : (replyTo h dip).length = eth.size + arp.size := by
    rw [replyTo, arpFrame, List.length_append, eth.length_encode, arp.length_encode]
  unfold arpOf
  rw [hdrop, htake, arp.decode_encode, replyTo, take_arpFrame, eth.decode_encode]
  rw [if_pos]
  refine ⟨le_of_eq hlen.symm, ?_⟩
  simp [arpHeader]

/-- One reply in flight, from the other host to `r`. -/
structure OneReply (s : Link) (r : Bool) : Prop where
  flight : s.flight = [(r, replyTo (s.host (!r)) (s.host r).localIp)]

theorem OneReply.step {s : Link} {r : Bool} (h : OneReply s r) :
    ∃ s', linkStep s (.deliver 0 ⟨true, 0, []⟩) = some s' ∧ OneReply s' (!r) ∧
      s'.produced.length = s.produced.length + 1 := by
  have hget : s.flight[0]? = some (r, replyTo (s.host (!r)) (s.host r).localIp) := by
    rw [h.flight]
    rfl
  obtain ⟨h', hip, hstep⟩ := linkStep_of_get ⟨true, 0, []⟩ hget
  have hsent : replies (s.host r) ⟨true, 0, []⟩ (replyTo (s.host (!r)) (s.host r).localIp) =
      [replyTo (s.host r) (s.host (!r)).localIp] := by
    rw [replies_of_reply (arpOf_replyTo _ _) (by simp [arpHeader]) (by simp [arpHeader]) rfl]
    simp [arpHeader, replyTo]
  rw [accepts_replyTo, if_pos rfl, hsent] at hstep
  refine ⟨_, hstep, ⟨?_⟩, by simp⟩
  rw [h.flight]
  have hother : update s.host r h' (!r) = s.host (!r) := update_of_ne (by simp) _ _
  simp only [Bool.not_not, update_self, hother, List.map_cons, List.map_nil]
  unfold replyTo
  rw [arpFrame_congr hip]
  rfl

/-- From one reply on, the hosts produce any number of messages. -/
theorem replies_forever {s : Link} {r : Bool} (h : OneReply s r) (n : ℕ) :
    ∃ as s', runFrom linkStep s as = some s' ∧ s'.produced.length = s.produced.length + n := by
  induction n generalizing s r with
  | zero => exact ⟨[], s, rfl, rfl⟩
  | succ n ih =>
    obtain ⟨s₁, hstep, h₁, hlen₁⟩ := h.step
    obtain ⟨as, s', hrun, hlen⟩ := ih h₁
    refine ⟨.deliver 0 ⟨true, 0, []⟩ :: as, s', ?_, by omega⟩
    rw [runFrom, hstep]
    exact hrun

/-- Hosts 10.0.2.15 and 10.0.2.16, and a reply from the second to the first. -/
def oneReply : Link where
  host r := if r then host 15 else host 16
  flight := [(true, replyTo (host 16) (host 15).localIp)]
  produced := []

theorem not_settles_oneReply : ¬ Settles oneReply := by
  rintro ⟨-, n, hn⟩
  obtain ⟨as, s', hrun, hlen⟩ := @replies_forever oneReply true ⟨rfl⟩ (n + 1)
  have hle := hn as s' hrun
  omega

end RiscvBm.Net

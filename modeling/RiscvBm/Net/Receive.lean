import RiscvBm.Net.ArpExchange
import RiscvBm.Net.Sockets

/-!
# What `net_rx` does with a frame

The receive path as a list of events on the buffer: the headers it reads, the call of
`sockrecvudp`, and how the buffer ends. The lengths in the IP and the UDP header are the
sender's, and both are 16-bit numbers that are decremented before they are compared; a length
that wraps is larger than any frame, so it is refused. `netRx_receives` is the contract.
-/

namespace RiscvBm.Net

open Wire
open Sockets (Sock)

/-! ## §1  Events -/

inductive RxEvent where
  /-- the `n` bytes from `p` on are read -/
  | touch (p n : ℕ)
  /-- `mbuffree` -/
  | free
  /-- `sockrecvudp` is called -/
  | recv (d : Delivery)
  /-- `mbufq_pushtail` on the queue of the `k`-th socket -/
  | enqueue (k : ℕ)
deriving DecidableEq

/-- The buffer is given away. -/
def RxEvent.disposes : RxEvent → Bool
  | .free => true
  | .enqueue _ => true
  | _ => false

/-- The first socket that handles the datagram gets it. -/
def sockrecvudp (sockets : List Sock) (d : Delivery) : RxEvent :=
  match sockets.findIdx? fun si =>
      (si.raddr = broadcastIp ∧ si.lport = d.lport ∧ si.rport = d.rport) ∨
        (si.raddr = d.raddr ∧ si.lport = d.lport ∧ si.rport = d.rport) with
  | some k => .enqueue k
  | none => .free

def udpEvents (sockets : List Sock) (m : Mbuf) (len : BitVec 16) (iphdr : Ip) : List RxEvent :=
  match mbufpull m udp.size with
  | none => [.free]
  | some (p, _) =>
    .touch p udp.size ::
      match netRxUdp m len iphdr with
      | none => [.free]
      | some d => [.recv d, sockrecvudp sockets d]

def ipEvents (h : Host) (sockets : List Sock) (m : Mbuf) : List RxEvent :=
  match mbufpull m ip.size with
  | none => [.free]
  | some (p, m) =>
    let iphdr := m.load ip p
    .touch p ip.size :: ipTests h iphdr (read m.buf p ip.size) [.free]
      (udpEvents sockets m (ntohs iphdr.len - BitVec.ofNat 16 ip.size) iphdr)

/-- The buffer is freed after the reply is on its way. -/
def arpEvents (h : Host) (env : Env) (m : Mbuf) : List RxEvent :=
  match mbufpull m arp.size with
  | none => [.free]
  | some (p, _) =>
    .touch p arp.size ::
      match netRxArp h env m with
      | .error _ => []
      | .ok _ => [.free]

def rxEvents (h : Host) (env : Env) (sockets : List Sock) (m : Mbuf) : List RxEvent :=
  match mbufpull m eth.size with
  | none => [.free]
  | some (p, m) =>
    let type := ntohs (m.load eth p).type
    .touch p eth.size ::
      if type = ethtypeIp then ipEvents h sockets m
      else if type = ethtypeArp then arpEvents h env m
      else [.free]

/-! ## §2  The contract -/

def ethOf (f : List Byte) : Eth := eth.decode (f.take 14)

def ipOf (f : List Byte) : Ip := ip.decode ((f.drop 14).take 20)

def udpOf (f : List Byte) : Udp := udp.decode ((f.drop 34).take 8)

/-- The UDP length of a frame. -/
def ulenOf (f : List Byte) : ℕ := (ntohs (udpOf f).ulen).toNat

/-- The one's-complement sum of the words is zero, in its form with all bits set. -/
def Verifies (hdr : List Byte) : Prop := 0 < total hdr ∧ total hdr % 65535 = 0

/-- The frame is a UDP datagram for the host, in one piece and complete. -/
structure Datagram (h : Host) (f : List Byte) : Prop where
  type : ntohs (ethOf f).type = ethtypeIp
  vhl : (ipOf f).vhl = 0x45
  sum : Verifies ((f.drop 14).take 20)
  off : ntohs (ipOf f).off = 0
  dst : ntohl (ipOf f).dst = broadcastIp ∨ ntohl (ipOf f).dst = h.localIp
  proto : (ipOf f).p = ipprotoUdp
  total : (ntohs (ipOf f).len).toNat = ulenOf f + 20
  header : 8 ≤ ulenOf f
  complete : 34 + ulenOf f ≤ f.length

/-- The events are those that the frame `f` at the start of a buffer should lead to. -/
structure Receives (h : Host) (f : List Byte) (es : List RxEvent) : Prop where
  inside : ∀ p n, .touch p n ∈ es → p + n ≤ f.length
  once : (es.filter RxEvent.disposes).length = 1
  called : (∃ d, .recv d ∈ es) ↔ Datagram h f
  payload : ∀ d, .recv d ∈ es → d.payload = (f.drop 42).take (ulenOf f - 8)

/-! ## §3  Bytes and disposal -/

/-- Reads stay in the packet, and the buffer is given away once. -/
structure Handled (m : Mbuf) (es : List RxEvent) : Prop where
  inside : ∀ p n, .touch p n ∈ es → p + n ≤ m.head + m.len
  once : (es.filter RxEvent.disposes).length = 1

variable {h : Host} {env : Env} {sockets : List Sock} {m m' : Mbuf} {es : List RxEvent}

theorem handled_free : Handled m [.free] := ⟨by simp, rfl⟩

theorem Handled.pull {p n : ℕ} (hpull : mbufpull m n = some (p, m')) (hes : Handled m' es) :
    Handled m (.touch p n :: es) := by
  unfold mbufpull at hpull
  split_ifs at hpull with hlen
  cases hpull
  refine ⟨?_, hes.once⟩
  intro p' n' hmem
  rcases List.mem_cons.mp hmem with heq | hmem
  · cases heq
    omega
  · have hle := hes.inside p' n' hmem
    dsimp only at hle
    omega

theorem disposes_sockrecvudp (d : Delivery) : (sockrecvudp sockets d).disposes = true := by
  unfold sockrecvudp
  split <;> rfl

theorem udpEvents_handled (len : BitVec 16) (iphdr : Ip) :
    Handled m (udpEvents sockets m len iphdr) := by
  unfold udpEvents
  cases hpull : mbufpull m udp.size with
  | none => exact handled_free
  | some r =>
    apply Handled.pull hpull
    cases netRxUdp m len iphdr with
    | none => exact handled_free
    | some d =>
      have hd := @disposes_sockrecvudp sockets d
      constructor
      · intro p n hmem
        simp only [List.mem_cons, reduceCtorEq, List.not_mem_nil, or_false, false_or] at hmem
        rw [← hmem] at hd
        cases hd
      · rw [List.filter_cons_of_neg (by simp [RxEvent.disposes]), List.filter_cons_of_pos hd]
        rfl

theorem ipEvents_handled : Handled m (ipEvents h sockets m) := by
  unfold ipEvents
  cases hpull : mbufpull m ip.size with
  | none => exact handled_free
  | some r =>
    apply Handled.pull hpull
    unfold ipTests
    split_ifs
    all_goals first | exact handled_free | exact udpEvents_handled _ _

theorem arpEvents_handled : Handled m (arpEvents h env m) := by
  unfold arpEvents
  cases hpull : mbufpull m arp.size with
  | none => exact handled_free
  | some r =>
    apply Handled.pull hpull
    obtain ⟨h', -, hrx⟩ := @netRxArp_eq h env m
    rw [hrx]
    exact handled_free

theorem rxEvents_handled : Handled m (rxEvents h env sockets m) := by
  unfold rxEvents
  cases hpull : mbufpull m eth.size with
  | none => exact handled_free
  | some r =>
    apply Handled.pull hpull
    split_ifs
    · exact ipEvents_handled
    · exact arpEvents_handled
    · exact handled_free

/-! ## §4  Deliveries -/

/-- The events call `sockrecvudp` for what `net_rx_udp` delivers. -/
theorem recv_mem_udpEvents {len : BitVec 16} {iphdr : Ip} {d : Delivery} :
    .recv d ∈ udpEvents sockets m len iphdr ↔ netRxUdp m len iphdr = some d := by
  have hd : ∀ d', .recv d ≠ sockrecvudp sockets d' := by
    intro d' heq
    have hdisp := @disposes_sockrecvudp sockets d'
    rw [← heq] at hdisp
    cases hdisp
  unfold udpEvents
  cases hpull : mbufpull m udp.size with
  | none => simp [netRxUdp, hpull]
  | some r => cases netRxUdp m len iphdr <;> simp [hd, eq_comm]

/-- The sum that `in_cksum` folds is zero for the headers that verify. -/
theorem inCksum_eq_zero {l : List Byte} (hlen : l.length ≤ 20) :
    inCksum l = 0 ↔ Verifies l := by
  have hle := total_le l
  rw [length_words] at hle
  rw [← BitVec.toNat_inj, toNat_inCksum, Nat.mod_eq_of_lt (by omega), BitVec.ofNat_eq_ofNat,
    BitVec.toNat_zero]
  unfold residue Verifies
  split_ifs
  · simp_all
  · omega

/-- What `net_rx_udp` asks of the packet. The decremented length wraps for a length under 8, and
then it is larger than the packet. -/
theorem netRxUdp_iff {len : BitVec 16} {iphdr : Ip} {d : Delivery} (hm : m.len ≤ mbufSize) :
    netRxUdp m len iphdr = some d ↔
      ntohs (udp.decode (m.data.take 8)).ulen = len ∧ 8 ≤ len.toNat ∧ len.toNat ≤ m.len ∧
        d = ⟨(m.data.drop 8).take (len.toNat - 8), ntohl iphdr.src,
          ntohs (udp.decode (m.data.take 8)).dport, ntohs (udp.decode (m.data.take 8)).sport⟩ := by
  rw [show mbufSize = 2048 from rfl] at hm
  have hlt := len.isLt
  have husz : udp.size = 8 := rfl
  have hsub : (len - BitVec.ofNat 16 8).toNat = (2 ^ 16 - 8 + len.toNat) % 2 ^ 16 :=
    BitVec.toNat_sub _ _
  unfold netRxUdp
  simp only [Mbuf.load, husz]
  by_cases hlen : 8 ≤ m.data.length
  · obtain ⟨m₁, hpull, hread, hdata⟩ := pull_front hlen
    have hm₁ : m₁.len = m.len - 8 := by
      rw [← length_data, hdata, List.length_drop, length_data]
    rw [length_data] at hlen
    simp only [hpull, hread, hsub]
    by_cases hu : ntohs (udp.decode (m.data.take 8)).ulen = len
    · rw [if_neg (not_not.mpr hu)]
      by_cases hfit : 8 ≤ len.toNat ∧ len.toNat ≤ m.len
      · have hval : (2 ^ 16 - 8 + len.toNat) % 2 ^ 16 = len.toNat - 8 := by omega
        have htrim : m₁.data = m₁.data.take (len.toNat - 8) ++ m₁.data.drop (len.toNat - 8) :=
          (List.take_append_drop _ _).symm
        have hcut := mbuftrim_data htrim
        rw [List.length_take_of_le (by rw [length_data]; omega)] at hcut
        rw [hval, if_neg (by omega), hcut, hdata]
        simp only [Option.some.injEq, hu, hfit, true_and]
        exact eq_comm
      · rw [if_pos (by omega)]
        simp only [reduceCtorEq, false_iff]
        rintro ⟨-, h8, hle, -⟩
        exact hfit ⟨h8, hle⟩
    · rw [if_pos hu]
      simp [hu]
  · rw [pull_short hlen]
    rw [length_data] at hlen
    simp only [reduceCtorEq, false_iff]
    rintro ⟨-, h8, hle, -⟩
    omega

theorem recv_mem_ipEvents {d : Delivery} :
    .recv d ∈ ipEvents h sockets m ↔ netRxIp h m = some d := by
  unfold ipEvents netRxIp ipTests
  cases mbufpull m ip.size with
  | none => simp
  | some r =>
    simp only [List.mem_cons, reduceCtorEq, false_or]
    split_ifs
    all_goals first | exact recv_mem_udpEvents | simp

theorem recv_not_mem_arpEvents (d : Delivery) : .recv d ∉ arpEvents h env m := by
  obtain ⟨h', -, hrx⟩ := @netRxArp_eq h env m
  unfold arpEvents
  rw [hrx]
  cases mbufpull m arp.size <;> simp

/-- What is delivered of a datagram. -/
def deliveryOf (f : List Byte) : Delivery :=
  ⟨(f.drop 42).take (ulenOf f - 8), ntohl (ipOf f).src, ntohs (udpOf f).dport,
    ntohs (udpOf f).sport⟩

/-- The length that `net_rx_ip` passes on fits the packet only if it did not wrap. -/
theorem ulen_eq_iff {ulen len : BitVec 16} {n : ℕ} (hn : n ≤ mbufSize) :
    (ulen = len - BitVec.ofNat 16 20 ∧ 8 ≤ (len - BitVec.ofNat 16 20).toNat ∧
        (len - BitVec.ofNat 16 20).toNat ≤ n) ↔
      len.toNat = ulen.toNat + 20 ∧ 8 ≤ ulen.toNat ∧ ulen.toNat ≤ n := by
  rw [show mbufSize = 2048 from rfl] at hn
  have hlen := len.isLt
  have hsub : (len - BitVec.ofNat 16 20).toNat = (2 ^ 16 - 20 + len.toNat) % 2 ^ 16 :=
    BitVec.toNat_sub _ _
  rw [← BitVec.toNat_inj, hsub]
  omega

theorem netRxIp_iff {d : Delivery} {f : List Byte} (hm : m.len ≤ mbufSize)
    (hf : m.data = f.drop 14) (htype : ntohs (ethOf f).type = ethtypeIp) :
    netRxIp h m = some d ↔ Datagram h f ∧ d = deliveryOf f := by
  have hlenf := congrArg List.length hf
  rw [length_data, List.length_drop] at hlenf
  unfold netRxIp ipTests
  simp only [Mbuf.load, show ip.size = 20 from rfl]
  by_cases hlen : 20 ≤ m.data.length
  · obtain ⟨m₁, hpull, hread, hdata⟩ := pull_front hlen
    rw [hf] at hread
    rw [hf, List.drop_drop] at hdata
    have hm₁ : m₁.len = f.length - 34 := by
      rw [← length_data, hdata, List.length_drop]
    rw [length_data] at hlen
    simp only [hpull, hread, Option.ite_none_left_eq_some, ne_eq, not_not,
      netRxUdp_iff (show m₁.len ≤ mbufSize by omega), hdata]
    rw [inCksum_eq_zero (List.length_take_le _ _)]
    have hlast := @ulen_eq_iff (ntohs (udpOf f).ulen) (ntohs (ipOf f).len) m₁.len (by omega)
    constructor
    · rintro ⟨hvhl, hsum, hoff, hdst, hp, hulen, h8, hle, hd⟩
      obtain ⟨htotal, hheader, hfit⟩ := hlast.mp ⟨hulen, h8, hle⟩
      refine ⟨⟨htype, hvhl, hsum, hoff, by tauto, hp, htotal, hheader, ?_⟩, ?_⟩
      · unfold ulenOf
        omega
      · rw [hd, ← hulen, List.drop_drop]
        rfl
    · rintro ⟨hdg, hd⟩
      have hfit := hdg.complete
      obtain ⟨hulen, h8, hle⟩ := hlast.mpr
        ⟨hdg.total, hdg.header, by unfold ulenOf at hfit; omega⟩
      have hdst := hdg.dst
      refine ⟨hdg.vhl, hdg.sum, hdg.off, by tauto, hdg.proto, hulen, h8, hle, ?_⟩
      rw [hd, deliveryOf, ulenOf, hulen, List.drop_drop]
      rfl
  · rw [pull_short hlen]
    rw [length_data] at hlen
    simp only [reduceCtorEq, false_iff]
    rintro ⟨hdg, -⟩
    have hfit := hdg.complete
    omega

theorem recv_iff {d : Delivery} (hm : m.len ≤ mbufSize) :
    .recv d ∈ rxEvents h env sockets m ↔ Datagram h m.data ∧ d = deliveryOf m.data := by
  unfold rxEvents
  by_cases hlen : 14 ≤ m.data.length
  · obtain ⟨m₁, hpull, hread, hdata⟩ := pull_front hlen
    have hm₁ : m₁.len ≤ mbufSize := by
      rw [← length_data, hdata, List.length_drop, length_data]
      omega
    simp only [Mbuf.load, show eth.size = 14 from rfl, hpull, hread, List.mem_cons, reduceCtorEq,
      false_or, ← ethOf.eq_1]
    by_cases htype : ntohs (ethOf m.data).type = ethtypeIp
    · rw [if_pos htype, recv_mem_ipEvents, netRxIp_iff hm₁ hdata htype]
    · rw [if_neg htype]
      apply iff_of_false _ fun hc => htype hc.1.type
      split_ifs
      · exact recv_not_mem_arpEvents d
      · simp
  · rw [show eth.size = 14 from rfl, pull_short hlen]
    simp only [List.mem_singleton, reduceCtorEq, false_iff]
    rintro ⟨hdg, -⟩
    have hfit := hdg.complete
    omega

/-- **The receive path.** Whatever the lengths in the headers say, only bytes of the frame are
read, the buffer is given away exactly once, and exactly the complete datagrams for the host
are delivered, with the bytes behind the UDP header as their payload. -/
theorem netRx_receives (h : Host) (env : Env) (sockets : List Sock) (m : Mbuf)
    (hhead : m.head = 0) (hlen : m.len ≤ mbufSize) :
    Receives h m.data (rxEvents h env sockets m) := by
  obtain ⟨hinside, honce⟩ := @rxEvents_handled h env sockets m
  refine ⟨?_, honce, ?_, ?_⟩
  · intro p n hmem
    have hle := hinside p n hmem
    rwa [hhead, Nat.zero_add, ← length_data] at hle
  · simp only [recv_iff hlen, exists_and_left, exists_eq, and_true]
  · intro d hmem
    rw [((recv_iff hlen).mp hmem).2, deliveryOf]

/-- A frame that is cut in its IP header. -/
theorem netRx_receives_short :
    let m := rxMbuf (List.replicate 12 0 ++ [0x08, 0x00] ++ List.replicate 16 0x45)
    Receives (host 15) m.data (rxEvents (host 15) ⟨true, 0, []⟩ [] m) :=
  netRx_receives _ _ _ _ rfl (by decide)

end RiscvBm.Net

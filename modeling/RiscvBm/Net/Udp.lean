import RiscvBm.Net.Arp
import RiscvBm.Net.Checksum

/-!
# UDP datagrams through the stack

`net_tx_udp`, `net_tx_ip` and `net_tx_eth` put three headers in front of a payload;
`net_rx`, `net_rx_ip` and `net_rx_udp` take them off and check them. `udp_roundTrip`: what one
host sends, with any padding the wire adds, the other hands to `sockrecvudp` as it was.
-/

namespace RiscvBm.Net

open Wire

/-! ## §1  Sending -/

def ipprotoUdp : Byte := 17

/-- The header that `net_tx_ip` writes, without the checksum. -/
def ipHeader (h : Host) (len : ℕ) (proto : Byte) (dip : BitVec 32) : Ip :=
  { Ip.zero with
    vhl := 0x45
    p := proto
    src := htonl h.localIp
    dst := htonl dip
    len := htons (BitVec.ofNat 16 len)
    ttl := 100 }

def netTxIp (h : Host) (env : Env) (m : Mbuf) (proto : Byte) (dip : BitVec 32) :
    Except Panic (List (List Byte)) := do
  let (p, m) ← mbufpush m ip.size
  let iphdr := ipHeader h m.len proto dip
  let m := m.store p (ip.encode iphdr)
  let m := m.store p (ip.encode { iphdr with sum := inCksum (read m.buf p ip.size) })
  netTxEth h env (netTxArp h env arpOpRequest broadcastMac) m ethtypeIp

def netTxUdp (h : Host) (env : Env) (m : Mbuf) (dip : BitVec 32) (sport dport : BitVec 16) :
    Except Panic (List (List Byte)) := do
  let (p, m) ← mbufpush m udp.size
  let m := m.store p (udp.encode ⟨htons sport, htons dport, htons (BitVec.ofNat 16 m.len), 0⟩)
  netTxIp h env m ipprotoUdp dip

/-! ## §2  Receiving -/

/-- A call of `sockrecvudp`. -/
structure Delivery where
  payload : List Byte
  raddr : BitVec 32
  lport : BitVec 16
  rport : BitVec 16
deriving DecidableEq, Repr

/-- `none`: the buffer is freed. -/
def netRxUdp (m : Mbuf) (len : BitVec 16) (iphdr : Ip) : Option Delivery :=
  match mbufpull m udp.size with
  | none => none
  | some (p, m) =>
    let udphdr := m.load udp p
    if ntohs udphdr.ulen ≠ len then none
    else
      let len := len - BitVec.ofNat 16 udp.size
      if len.toNat > m.len then none
      else
        -- the minimum packet size could be larger than the payload
        let m := mbuftrim m (m.len - len.toNat)
        some ⟨m.data, ntohl iphdr.src, ntohs udphdr.dport, ntohs udphdr.sport⟩

/-- The tests of `net_rx_ip` on a header, and what they lead to. -/
def ipTests {α : Type} (h : Host) (iphdr : Ip) (hdr : List Byte) (drop pass : α) : α :=
  if iphdr.vhl ≠ 0x45 then drop
  else if inCksum hdr ≠ 0 then drop
  else if htons iphdr.off ≠ 0 then drop
  else if htonl iphdr.dst ≠ broadcastIp ∧ htonl iphdr.dst ≠ h.localIp then drop
  else if iphdr.p ≠ ipprotoUdp then drop
  else pass

def netRxIp (h : Host) (m : Mbuf) : Option Delivery :=
  match mbufpull m ip.size with
  | none => none
  | some (p, m) =>
    let iphdr := m.load ip p
    ipTests h iphdr (read m.buf p ip.size) none
      (netRxUdp m (ntohs iphdr.len - BitVec.ofNat 16 ip.size) iphdr)

/-- What a frame leads to: the host after it, the frames sent and the datagram delivered. -/
def netRx (h : Host) (env : Env) (m : Mbuf) :
    Except Panic (Host × List (List Byte) × Option Delivery) :=
  match mbufpull m eth.size with
  | none => .ok (h, [], none)
  | some (p, m) =>
    let type := ntohs (m.load eth p).type
    if type = ethtypeIp then .ok (h, [], netRxIp h m)
    else if type = ethtypeArp then do
      let (h, sent) ← netRxArp h env m
      return (h, sent, none)
    else .ok (h, [], none)

/-! ## §3  The round trip -/

variable {h : Host} {env : Env} {m : Mbuf} {l pad : List Byte}

/-- The IP header as it goes out. -/
def ipHeaderSum (h : Host) (len : ℕ) (proto : Byte) (dip : BitVec 32) : Ip :=
  { ipHeader h len proto dip with sum := inCksum (ip.encode (ipHeader h len proto dip)) }

theorem store_store (m : Mbuf) (p : ℕ) {l l' : List Byte} (h : l.length = l'.length) :
    (m.store p l).store p l' = m.store p l' := by
  unfold Mbuf.store
  congr 1
  funext i
  dsimp only
  by_cases hlt : i < p
  · rw [write_of_lt hlt, write_of_lt hlt, write_of_lt hlt]
  · by_cases hle : p + l'.length ≤ i
    · rw [write_of_le hle, write_of_le hle, write_of_le (by rw [h]; exact hle)]
    · obtain ⟨j, rfl⟩ := Nat.exists_eq_add_of_le (Nat.not_lt.mp hlt)
      rw [write_add (by omega), write_add (by omega)]

theorem netTxIp_frame {proto : Byte} {dip : BitVec 32} (hhead : ip.size + eth.size ≤ m.head)
    (hlen : m.len + ip.size + eth.size < 2 ^ 16) :
    ∃ sent dhost, netTxIp h env m proto dip =
      .ok (sent ++ [eth.encode ⟨dhost, localMac, htons ethtypeIp⟩ ++
        (ip.encode (ipHeaderSum h (m.len + ip.size) proto dip) ++ m.data)]) := by
  obtain ⟨m₁, hpush, hdata, hhead₁⟩ := pushhdr ip (ipHeaderSum h (m.len + ip.size) proto dip)
    (m := m) (by omega)
  have hm₁ : m₁.len = m.len + ip.size := by
    rw [mbufpush, if_neg (by omega)] at hpush
    cases hpush
    rfl
  have hsum : read (m₁.store (m.head - ip.size) (ip.encode (ipHeader h m₁.len proto dip))).buf
      (m.head - ip.size) ip.size = ip.encode (ipHeader h m₁.len proto dip) := by
    rw [← ip.length_encode (ipHeader h m₁.len proto dip)]
    exact read_write_same
  unfold netTxIp
  simp only [hpush, bind, Except.bind, hsum]
  rw [store_store _ _ (by rw [ip.length_encode, ip.length_encode]), hm₁]
  generalize hm₂ : m₁.store _ _ = m₂
  rw [show m₁.store (m.head - ip.size) (ip.encode (ipHeaderSum h (m.len + ip.size) proto dip)) = m₂
    from hm₂] at hdata hhead₁
  have hlen₂ : m₂.len = ip.size + m.len := by
    rw [← length_data, hdata, List.length_append, ip.length_encode, length_data]
  obtain ⟨sent, hsend, -⟩ := @netTxEth_frame h env
    (netTxArp h env arpOpRequest broadcastMac) m₂ ethtypeIp
    (fun a => ⟨_, netTxArp_eq h env arpOpRequest broadcastMac a⟩) (by omega) (by omega)
  exact ⟨sent, _, by rw [hsend, hdata]⟩

theorem netTxUdp_frame {dip : BitVec 32} {sport dport : BitVec 16}
    (hhead : udp.size + ip.size + eth.size ≤ m.head)
    (hlen : m.len + udp.size + ip.size + eth.size < 2 ^ 16) :
    ∃ sent dhost, netTxUdp h env m dip sport dport =
      .ok (sent ++ [eth.encode ⟨dhost, localMac, htons ethtypeIp⟩ ++
        (ip.encode (ipHeaderSum h (m.len + udp.size + ip.size) ipprotoUdp dip) ++
          (udp.encode ⟨htons sport, htons dport, htons (BitVec.ofNat 16 (m.len + udp.size)), 0⟩ ++
            m.data))]) := by
  obtain ⟨m₁, hpush, hdata, hhead₁⟩ := pushhdr udp
    ⟨htons sport, htons dport, htons (BitVec.ofNat 16 (m.len + udp.size)), 0⟩ (m := m) (by omega)
  have hm₁ : m₁.len = m.len + udp.size := by
    rw [mbufpush, if_neg (by omega)] at hpush
    cases hpush
    rfl
  unfold netTxUdp
  simp only [hpush, bind, Except.bind, hm₁]
  generalize hm₂ : m₁.store _ _ = m₂ at hdata hhead₁
  have hlen₂ : m₂.len = m.len + udp.size := by
    rw [← length_data, hdata, List.length_append, udp.length_encode, length_data, Nat.add_comm]
  obtain ⟨sent, dhost, hsend⟩ := @netTxIp_frame h env m₂ ipprotoUdp dip (by omega) (by omega)
  exact ⟨sent, dhost, by rw [hsend, hdata, hlen₂]⟩

/-- A datagram that fits its own length field is cut to it and delivered. -/
theorem netRxUdp_of_data {sport dport : BitVec 16} {iphdr : Ip} (hlen : l.length + 8 < 2 ^ 16)
    (hdata : m.data = udp.encode
      ⟨htons sport, htons dport, htons (BitVec.ofNat 16 (l.length + 8)), 0⟩ ++ (l ++ pad)) :
    netRxUdp m (BitVec.ofNat 16 (l.length + 8)) iphdr =
      some ⟨l, ntohl iphdr.src, dport, sport⟩ := by
  obtain ⟨m₁, hpull, hread, hdata₁⟩ := pullhdr udp hdata
  have hm₁ : m₁.len = l.length + pad.length := by
    rw [← length_data, hdata₁, List.length_append]
  have hsub : BitVec.ofNat 16 (l.length + 8) - BitVec.ofNat 16 udp.size =
      BitVec.ofNat 16 l.length := by
    rw [BitVec.ofNat_add]
    exact BitVec.add_sub_cancel _ _
  have hnat : (BitVec.ofNat 16 l.length).toNat = l.length := by
    rw [BitVec.toNat_ofNat, Nat.mod_eq_of_lt (by omega)]
  unfold netRxUdp
  rw [hpull]
  simp only [Mbuf.load, hread, udp.decode_encode, bswaps_bswaps, hsub, hnat]
  rw [if_neg (by simp), if_neg (by omega), mbuftrim_data hdata₁]

theorem netRxIp_of_data {src : Host} {sport dport : BitVec 16} (hlen : l.length + 28 < 2 ^ 16)
    (hdata : m.data = ip.encode (ipHeaderSum src (l.length + 28) ipprotoUdp h.localIp) ++
      (udp.encode ⟨htons sport, htons dport, htons (BitVec.ofNat 16 (l.length + 8)), 0⟩ ++
        (l ++ pad))) :
    netRxIp h m = some ⟨l, src.localIp, dport, sport⟩ := by
  obtain ⟨m₁, hpull, hread, hdata₁⟩ := pullhdr ip hdata
  have hsum : inCksum (ip.encode (ipHeaderSum src (l.length + 28) ipprotoUdp h.localIp)) = 0 :=
    inCksum_self (ipHeader src (l.length + 28) ipprotoUdp h.localIp)
  have hsub : BitVec.ofNat 16 (l.length + 28) - BitVec.ofNat 16 ip.size =
      BitVec.ofNat 16 (l.length + 8) := by
    rw [show l.length + 28 = l.length + 8 + ip.size from rfl, BitVec.ofNat_add]
    exact BitVec.add_sub_cancel _ _
  have hudp := @netRxUdp_of_data m₁ l pad sport dport
    (ipHeaderSum src (l.length + 28) ipprotoUdp h.localIp) (by omega) hdata₁
  unfold netRxIp ipTests
  rw [hpull]
  simp only [Mbuf.load, hread, ip.decode_encode]
  rw [if_neg (by simp [ipHeaderSum, ipHeader]), if_neg (not_not.mpr hsum),
    if_neg (by simp [ipHeaderSum, ipHeader, Ip.zero, bswaps]),
    if_neg (by simp [ipHeaderSum, ipHeader]), if_neg (by simp [ipHeaderSum, ipHeader])]
  simp only [ipHeaderSum, ipHeader, bswaps_bswaps, hsub] at hudp ⊢
  rw [hudp]
  simp only [bswapl_bswapl]

/-- What `net_tx_udp` sends, `net_rx` delivers: the payload, the sender's address, the
destination port as the local and the source port as the remote one. Neither the state of the
ARP tables nor the padding matters. -/
theorem udp_roundTrip (src dst : Host) (env env' : Env) (m : Mbuf) (sport dport : BitVec 16)
    (hhead : m.head = mbufDefaultHeadroom) (hlen : m.len ≤ mbufSize - mbufDefaultHeadroom) :
    ∃ sent frame, netTxUdp src env m dst.localIp sport dport = .ok (sent ++ [frame]) ∧
      ∀ (pad : List Byte) (r : Mbuf), r.data = frame ++ pad →
        netRx dst env' r = .ok (dst, [], some ⟨m.data, src.localIp, dport, sport⟩) := by
  rw [show mbufSize - mbufDefaultHeadroom = 1920 from rfl] at hlen
  rw [show mbufDefaultHeadroom = 128 from rfl] at hhead
  obtain ⟨sent, dhost, hsend⟩ := @netTxUdp_frame src env m dst.localIp sport dport
    (by rw [hhead]; decide) (by rw [show udp.size = 8 from rfl, show ip.size = 20 from rfl,
      show eth.size = 14 from rfl]; omega)
  refine ⟨sent, _, hsend, fun pad r hr => ?_⟩
  simp only [List.append_assoc] at hr
  obtain ⟨r₁, hpull, hread, hdata⟩ := pullhdr eth hr
  rw [← length_data m] at hdata
  have hip := @netRxIp_of_data dst r₁ m.data pad src sport dport
    (by rw [length_data]; omega) hdata
  unfold netRx
  rw [hpull]
  simp only [Mbuf.load, hread, eth.decode_encode, bswaps_bswaps, if_true, hip]

/-- A payload of three bytes at the place where `sockwrite` puts it. -/
def threeBytes : Mbuf :=
  ⟨write (fun _ => 0) mbufDefaultHeadroom [0x61, 0x62, 0x63], mbufDefaultHeadroom, 3⟩

def host (n : BitVec 32) : Host := Host.init (0x0a000200 + n) 0xffffff00

/-- From port 2000 of 10.0.2.15 to port 53 of 10.0.2.16, with empty ARP tables. -/
theorem udp_roundTrip_threeBytes :
    ∃ sent frame, netTxUdp (host 15) ⟨true, 0, []⟩ threeBytes (host 16).localIp 2000 53 =
        .ok (sent ++ [frame]) ∧
      ∀ (pad : List Byte) (r : Mbuf), r.data = frame ++ pad →
        netRx (host 16) ⟨true, 0, []⟩ r =
          .ok (host 16, [], some ⟨threeBytes.data, (host 15).localIp, 53, 2000⟩) :=
  udp_roundTrip (host 15) (host 16) ⟨true, 0, []⟩ ⟨true, 0, []⟩ threeBytes 2000 53 rfl (by decide)

end RiscvBm.Net

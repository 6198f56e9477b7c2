import RiscvBm.Net.Mbuf

/-!
# ARP and the Ethernet layer

The tables of `ip_arp.c` and `ip_neighbor.c`, the packets they build and handle, and the
two functions of `net.c` that put a frame on the wire and take an ARP frame off it. The
functions return the frames that they hand to `e1000_transmit`, in order.
-/

namespace RiscvBm.Net

open Wire

/-! ## §1  The host -/

def ethtypeIp : BitVec 16 := 0x0800
def ethtypeArp : BitVec 16 := 0x0806
def arpHrdEther : BitVec 16 := 1
def arpOpRequest : BitVec 16 := 1
def arpOpReply : BitVec 16 := 2
def maxNeighborTime : BitVec 8 := 128

/-- `MAKE_IP_ADDR(0xff, 0xff, 0xff, 0xff)` -/
def broadcastIp : BitVec 32 := 0xffffffff

def localMac : Mac := #v[0x52, 0x54, 0x00, 0x12, 0x34, 0x56]

def broadcastMac : Mac := #v[0xff, 0xff, 0xff, 0xff, 0xff, 0xff]

structure ArpEntry where
  ipaddr : BitVec 32
  ethaddr : Mac
  time : BitVec 64
deriving DecidableEq, Repr

structure NeighborEntry where
  ipaddr : BitVec 32
  addr : Mac
  time : BitVec 8
deriving DecidableEq, Repr

structure Host where
  localIp : BitVec 32
  localNetmask : BitVec 32
  arpTable : List ArpEntry
  arptime : BitVec 64
  neighbors : List NeighborEntry
deriving DecidableEq, Repr

/-- What `ip_arp_init` and `ip_neighbor_init` leave, with the addresses set by `ipctl`. -/
def Host.init (localIp localNetmask : BitVec 32) : Host where
  localIp := localIp
  localNetmask := localNetmask
  arpTable := List.replicate 8 ⟨0, Vector.replicate _ 0, 0⟩
  arptime := 0
  neighbors := List.replicate 8 ⟨0, Vector.replicate _ 0, maxNeighborTime⟩

/-! ## §2  The tables -/

def arpLookup (tbl : List ArpEntry) (ipaddr : BitVec 32) : Option Mac :=
  (tbl.find? fun e => e.ipaddr = ipaddr).map ArpEntry.ethaddr

/-- The search for the oldest entry, from position `i` on. -/
def oldestEntry (arptime : BitVec 64) : List ArpEntry → ℕ → ℕ → BitVec 64 → ℕ
  | [], _, c, _ => c
  | e :: es, i, c, tmpage =>
    if arptime - e.time > tmpage then oldestEntry arptime es (i + 1) i (arptime - e.time)
    else oldestEntry arptime es (i + 1) c tmpage

def arpUpdate (tbl : List ArpEntry) (arptime : BitVec 64) (ipaddr : BitVec 32) (ethaddr : Mac) :
    List ArpEntry :=
  match tbl.findIdx? fun e => e.ipaddr ≠ 0 ∧ ipaddr = e.ipaddr with
  | some i => tbl.modify i fun e => { e with ethaddr := ethaddr, time := arptime }
  | none =>
    let i :=
      match tbl.findIdx? fun e => e.ipaddr = 0 with
      | some i => i
      -- the table is full: the oldest entry goes
      | none => oldestEntry arptime tbl 0 0 0
    tbl.set i ⟨ipaddr, ethaddr, arptime⟩

/-- The loop of `neighbor_add`, from position `i` on. -/
def neighborSlot (ipaddr : BitVec 32) : List NeighborEntry → ℕ → ℕ → BitVec 8 → ℕ
  | [], _, oldest, _ => oldest
  | e :: es, i, oldest, oldestTime =>
    if e.ipaddr = ipaddr then i
    else if e.time = maxNeighborTime then i
    else if e.time > oldestTime then neighborSlot ipaddr es (i + 1) i e.time
    else neighborSlot ipaddr es (i + 1) oldest oldestTime

def neighborAdd (tbl : List NeighborEntry) (ipaddr : BitVec 32) (addr : Mac) :
    List NeighborEntry :=
  tbl.set (neighborSlot ipaddr tbl 0 0 0) ⟨ipaddr, addr, 0⟩

def neighborAddOrUpdate (tbl : List NeighborEntry) (ipaddr : BitVec 32) (na : Mac) :
    List NeighborEntry :=
  if ipaddr = 0 then tbl
  else
    match tbl.findIdx? fun e => e.ipaddr = ipaddr with
    | none => neighborAdd tbl ipaddr na
    | some i => tbl.modify i fun e => { e with addr := na, time := 0 }

/-! ## §3  Packets out -/

/-- What `e1000_transmit` takes from a buffer: its length is cut to 16 bits. -/
def Mbuf.frame (m : Mbuf) : List Byte := read m.buf m.head (m.len % 2 ^ 16)

/-- What happens to a send while it runs: whether there is memory for an ARP packet, what the
wait for the answer returns, and the table after it. -/
structure Env where
  mem : Bool
  ret : ℤ
  arpTable : List ArpEntry

def arpHeader (h : Host) (op : BitVec 16) (dmac : Mac) (dip : BitVec 32) : Arp where
  hrd := htons arpHrdEther
  pro := htons ethtypeIp
  hln := 6
  pln := 4
  op := htons op
  sha := localMac
  sip := htonl h.localIp
  tha := dmac
  tip := htonl dip

def arpPacketBuild (h : Host) (mem : Bool) (op : BitVec 16) (dmac : Mac) (dip : BitVec 32) :
    Except Panic (Option Mbuf) :=
  match mbufalloc mem mbufDefaultHeadroom with
  | none => .ok none
  | some m => do
    let (p, m) ← mbufput m arp.size
    return some (m.store p (arp.encode (arpHeader h op dmac dip)))

/-- Whether the address of an IP packet is looked up. -/
def resolves (h : Host) (ethtype : BitVec 16) (iphdr : Ip) : Bool :=
  ethtype = ethtypeIp ∧ iphdr.src ≠ 0 ∧ iphdr.dst ≠ broadcastIp ∧ h.localNetmask ≠ 0 ∧
    ntohl iphdr.dst &&& h.localNetmask = h.localIp &&& h.localNetmask

/-- `net_tx_eth`. `request` is the call of `net_tx_arp` for an address that is not in the
table; an ARP packet makes no such call, so there is no recursion. -/
def netTxEth (h : Host) (env : Env) (request : BitVec 32 → Except Panic (List (List Byte)))
    (m : Mbuf) (ethtype : BitVec 16) : Except Panic (List (List Byte)) := do
  let iphdr := m.load ip m.head
  let arphdr := m.load arp m.head
  let (p, m) ← mbufpush m eth.size
  let ethhdr := m.load eth p
  let send (dhost : Mac) : List Byte :=
    (m.store p (eth.encode ⟨dhost, localMac, htons ethtype⟩)).frame
  if resolves h ethtype iphdr then
    match arpLookup h.arpTable (ntohl iphdr.dst) with
    | some mac => return [send mac]
    | none =>
      let sent ← request (ntohl iphdr.dst)
      if env.ret = 0 then return sent ++ [send broadcastMac]
      else
        match arpLookup env.arpTable iphdr.dst with
        | some mac => return sent ++ [send mac]
        -- `dhost` is left as it was
        | none => return sent ++ [send ethhdr.dhost]
  else if ethtype = ethtypeArp then return [send arphdr.tha]
  else return [send broadcastMac]

def netTxArp (h : Host) (env : Env) (op : BitVec 16) (dmac : Mac) (dip : BitVec 32) :
    Except Panic (List (List Byte)) := do
  match ← arpPacketBuild h env.mem op dmac dip with
  | none => return []
  | some m => netTxEth h env (fun _ => return []) m ethtypeArp

/-! ## §4  ARP packets in -/

/-- `arp_packet_handle`: whether it returns 0. -/
def arpPacketHandle (h : Host) (arphdr : Arp) : Bool × Host :=
  if ntohs arphdr.hrd ≠ arpHrdEther ∨ ntohs arphdr.pro ≠ ethtypeIp ∨ arphdr.hln ≠ 6 ∨
      arphdr.pln ≠ 4 then (false, h)
  else
    let tip := ntohl arphdr.tip
    let sip := ntohl arphdr.sip
    let h :=
      if ntohs arphdr.op = arpOpReply then
        { h with neighbors := neighborAddOrUpdate h.neighbors sip arphdr.sha }
      else h
    if ntohs arphdr.op ≠ arpOpReply ∨ tip ≠ h.localIp then (false, h)
    else (true, { h with arpTable := arpUpdate h.arpTable h.arptime tip arphdr.sha })

def netRxArp (h : Host) (env : Env) (m : Mbuf) : Except Panic (Host × List (List Byte)) :=
  match mbufpull m arp.size with
  | none => .ok (h, [])
  | some (p, m) =>
    let arphdr := m.load arp p
    match arpPacketHandle h arphdr with
    | (false, h) => .ok (h, [])
    | (true, h) => do
      let sent ← netTxArp h env arpOpReply arphdr.sha (ntohl arphdr.sip)
      return (h, sent)

/-! ## §5  What is sent -/

theorem frame_eq_data {m : Mbuf} (h : m.len < 2 ^ 16) : m.frame = m.data := by
  rw [Mbuf.frame, Nat.mod_eq_of_lt h, Mbuf.data]

/-- What `net_tx_eth` writes into `dhost`; `old` is what stood there. -/
def dhostOf (h : Host) (env : Env) (ethtype : BitVec 16) (iphdr : Ip) (arphdr : Arp) (old : Mac) :
    Mac :=
  if resolves h ethtype iphdr then
    (arpLookup h.arpTable (ntohl iphdr.dst)).getD
      (if env.ret = 0 then broadcastMac else (arpLookup env.arpTable iphdr.dst).getD old)
  else if ethtype = ethtypeArp then arphdr.tha
  else broadcastMac

/-- `net_tx_eth` puts one Ethernet header in front of the packet and sends it last. -/
theorem netTxEth_frame {h : Host} {env : Env}
    {request : BitVec 32 → Except Panic (List (List Byte))} {m : Mbuf} {ethtype : BitVec 16}
    (hreq : ∀ a, ∃ l, request a = .ok l) (hhead : eth.size ≤ m.head)
    (hlen : m.len + eth.size < 2 ^ 16) :
    ∃ sent, netTxEth h env request m ethtype =
      .ok (sent ++ [eth.encode ⟨dhostOf h env ethtype (m.load ip m.head) (m.load arp m.head)
        (m.load eth (m.head - eth.size)).dhost, localMac, htons ethtype⟩ ++ m.data]) ∧
      (ethtype = ethtypeArp → sent = []) := by
  have hsend : ∃ m', mbufpush m eth.size = .ok (m.head - eth.size, m') ∧
      m'.load eth (m.head - eth.size) = m.load eth (m.head - eth.size) ∧
      ∀ a, (m'.store (m.head - eth.size) (eth.encode a)).frame = eth.encode a ++ m.data := by
    refine ⟨_, if_neg (Nat.not_lt.mpr hhead), rfl, fun a => ?_⟩
    obtain ⟨m', hpush, hdata, -⟩ := pushhdr eth a hhead
    rw [mbufpush, if_neg (Nat.not_lt.mpr hhead)] at hpush
    cases hpush
    rw [frame_eq_data hlen, hdata]
  obtain ⟨m', hpush, hload, hframe⟩ := hsend
  unfold netTxEth dhostOf
  rw [hpush]
  simp only [bind, Except.bind, pure, Except.pure, hframe, hload]
  generalize m.load ip m.head = iphdr
  by_cases hres : resolves h ethtype iphdr = true
  · have hne : ethtype = ethtypeArp → False := by
      rw [(of_decide_eq_true hres).1]
      decide
    rw [if_pos hres, if_pos hres]
    obtain ⟨sent, hsent⟩ := hreq (ntohl iphdr.dst)
    rw [hsent]
    cases arpLookup h.arpTable (ntohl iphdr.dst) with
    | some mac => exact ⟨[], rfl, fun _ => rfl⟩
    | none =>
      refine ⟨sent, ?_, fun h => (hne h).elim⟩
      dsimp only [Option.getD_none]
      split_ifs
      · rfl
      · cases arpLookup env.arpTable iphdr.dst <;> rfl
  · rw [if_neg hres, if_neg hres]
    refine ⟨[], ?_, fun _ => rfl⟩
    split_ifs <;> rfl

/-- The frame of an ARP packet. -/
def arpFrame (h : Host) (op : BitVec 16) (dmac : Mac) (dip : BitVec 32) : List Byte :=
  eth.encode ⟨dmac, localMac, htons ethtypeArp⟩ ++ arp.encode (arpHeader h op dmac dip)

theorem netTxArp_eq (h : Host) (env : Env) (op : BitVec 16) (dmac : Mac) (dip : BitVec 32) :
    netTxArp h env op dmac dip =
      .ok (if env.mem then [arpFrame h op dmac dip] else []) := by
  unfold netTxArp arpPacketBuild mbufalloc
  rw [if_neg (by decide)]
  cases hmem : env.mem with
  | false => rfl
  | true =>
    rw [if_pos rfl]
    obtain ⟨m, hput, hdata, hhead⟩ := @mbufput_store ⟨fun _ => 0, mbufDefaultHeadroom, 0⟩
      (arp.encode (arpHeader h op dmac dip)) (by rw [arp.length_encode]; decide)
    rw [arp.length_encode] at hput
    generalize hm : m.store _ (arp.encode (arpHeader h op dmac dip)) = m₁ at hdata hhead
    -- the packet is the header and nothing else
    have hdata : m₁.data = arp.encode (arpHeader h op dmac dip) := hdata
    have hload := load_of_data arp (hdata.trans (List.append_nil _).symm)
    have hlen : m₁.len = arp.size := by rw [← length_data, hdata, arp.length_encode]
    obtain ⟨sent, hsend, harp⟩ := @netTxEth_frame h env (fun _ => .ok []) m₁ ethtypeArp
      (fun _ => ⟨[], rfl⟩) (by rw [hhead]; decide) (by rw [hlen]; decide)
    have hdhost : ∀ old, dhostOf h env ethtypeArp (m₁.load ip m₁.head)
        (arpHeader h op dmac dip) old = dmac := by
      intro old
      rw [dhostOf, if_neg (by simp [resolves, ethtypeArp, ethtypeIp]), if_pos rfl]
      rfl
    simp only [hput, bind, Except.bind, pure, Except.pure, hm]
    rw [hsend, harp rfl, hload, hdhost, hdata]
    rfl

/-! ## §6  The address on a frame -/

/-- The table when the frame is sent: the send waits for an address that it looks up and does
not find. -/
def sendTable (h : Host) (env : Env) (d : BitVec 32) : List ArpEntry :=
  if h.localNetmask = 0 ∨ arpLookup h.arpTable d ≠ none then h.arpTable else env.arpTable

/-- The frame of an IP packet goes to the hardware address of its destination if the table has
it and to everybody if not, whatever stood in front of the packet. -/
def Addressed (h : Host) (env : Env) (m : Mbuf) : Prop :=
  let d := ntohl (m.load ip m.head).dst
  ∀ front : List Byte, front.length = eth.size → ∃ sent,
    netTxEth h env (netTxArp h env arpOpRequest broadcastMac)
        (m.store (m.head - eth.size) front) ethtypeIp =
      .ok (sent ++ [eth.encode ⟨(arpLookup (sendTable h env d) d).getD broadcastMac, localMac,
        htons ethtypeIp⟩ ++ m.data])

/-- The address is in the table at once, or the wait ends in one of these ways: it times out and
the table has nothing but the broadcast address, or the table has the same answer for `d` with
its bytes reversed. -/
def Resolved (h : Host) (env : Env) (d : BitVec 32) : Prop :=
  let later := (arpLookup env.arpTable d).getD broadcastMac
  if h.localNetmask = 0 then (arpLookup h.arpTable d).getD broadcastMac = broadcastMac
  else arpLookup h.arpTable d ≠ none ∨
    if env.ret = 0 then later = broadcastMac else arpLookup env.arpTable (htonl d) = some later

theorem forall_getD_iff {o : Option Mac} {a : Mac} : (∀ old, o.getD old = a) ↔ o = some a := by
  cases o with
  | some b => simp
  | none =>
    refine iff_of_false (fun hall => ?_) nofun
    have hne : localMac = broadcastMac := (hall localMac).trans (hall broadcastMac).symm
    exact absurd hne (by decide)

/-- What is written into `dhost` decides. -/
theorem addressed_iff_dhost {h : Host} {env : Env} {m : Mbuf} (hhead : eth.size ≤ m.head)
    (hlen : m.head + m.len ≤ mbufSize) :
    Addressed h env m ↔ ∀ old, dhostOf h env ethtypeIp (m.load ip m.head) (m.load arp m.head) old =
      (arpLookup (sendTable h env (ntohl (m.load ip m.head).dst))
        (ntohl (m.load ip m.head).dst)).getD broadcastMac := by
  have hsize : mbufSize = 2048 := rfl
  have hframe : ∀ front : List Byte, front.length = eth.size → ∃ sent,
      netTxEth h env (netTxArp h env arpOpRequest broadcastMac)
          (m.store (m.head - eth.size) front) ethtypeIp =
        .ok (sent ++ [eth.encode ⟨dhostOf h env ethtypeIp (m.load ip m.head) (m.load arp m.head)
          (eth.decode front).dhost, localMac, htons ethtypeIp⟩ ++ m.data]) := by
    intro front hfront
    obtain ⟨sent, hsend, -⟩ := @netTxEth_frame h env (netTxArp h env arpOpRequest broadcastMac)
      (m.store (m.head - eth.size) front) ethtypeIp (fun a => ⟨_, netTxArp_eq ..⟩) hhead
      (by show m.len + 14 < 2 ^ 16; omega)
    -- the packet itself is not touched
    have hread : ∀ n, read (m.store (m.head - eth.size) front).buf m.head n =
        read m.buf m.head n := by
      intro n
      apply read_write_of_disjoint
      right
      omega
    have hold : (m.store (m.head - eth.size) front).load eth (m.head - eth.size) =
        eth.decode front := by
      rw [Mbuf.load, ← hfront]
      exact congrArg eth.decode read_write_same
    have hdata : (m.store (m.head - eth.size) front).data = m.data := hread m.len
    refine ⟨sent, hsend.trans ?_⟩
    rw [show (m.store (m.head - eth.size) front).head = m.head from rfl, hold, hdata]
    simp only [Mbuf.load, hread]
  unfold Addressed
  constructor
  · intro hall old
    have hfront := eth.length_encode ⟨old, localMac, 0⟩
    obtain ⟨sent, hsend⟩ := hframe _ hfront
    obtain ⟨sent', hsend'⟩ := hall _ hfront
    rw [hsend, eth.decode_encode, Except.ok.injEq] at hsend'
    have heq := congrArg eth.decode (List.cons.inj (List.append_inj_right' hsend' rfl)).1
    rw [eth.decode_append, eth.decode_append] at heq
    exact congrArg Eth.dhost heq
  · intro hall d front hfront
    obtain ⟨sent, hsend⟩ := hframe front hfront
    exact ⟨sent, by rw [hsend, hall]⟩

/-- **The frame of a packet to the local subnet is addressed right exactly if the address is
known at once, or the wait ends so that the second lookup, with the bytes reversed, does no
harm.** -/
theorem addressed_iff (h : Host) (env : Env) (m : Mbuf) (hhead : eth.size ≤ m.head)
    (hlen : m.head + m.len ≤ mbufSize) (hsrc : (m.load ip m.head).src ≠ 0)
    (hdst : (m.load ip m.head).dst ≠ broadcastIp)
    (hnet : ntohl (m.load ip m.head).dst &&& h.localNetmask = h.localIp &&& h.localNetmask) :
    Addressed h env m ↔ Resolved h env (ntohl (m.load ip m.head).dst) := by
  rw [addressed_iff_dhost hhead hlen]
  generalize m.load ip m.head = iphdr at *
  unfold dhostOf sendTable Resolved resolves
  dsimp only
  rw [show htonl (ntohl iphdr.dst) = iphdr.dst from bswapl_bswapl _]
  by_cases hmask : h.localNetmask = 0
  · have hne : ethtypeIp ≠ ethtypeArp := by decide
    simp only [hmask, hne, ne_eq, not_true_eq_false, false_and, and_false, decide_false,
      Bool.false_eq_true, if_true, if_false, true_or, forall_const]
    exact eq_comm
  · simp only [hsrc, hdst, hmask, hnet, ne_eq, not_false_eq_true, and_self, decide_true, if_true,
      if_false, false_or]
    cases hnow : arpLookup h.arpTable (ntohl iphdr.dst) with
    | some mac => simp [hnow]
    | none =>
      by_cases hret : env.ret = 0
      · simp only [hret, not_true_eq_false, Option.getD_none, if_true, if_false, false_or,
          forall_const]
        exact eq_comm
      · simp [hret, forall_getD_iff]

/-- A packet from 10.0.2.15 to 10.0.2.2. -/
def toGateway : Mbuf :=
  let iphdr : Ip := { Ip.zero with src := htonl 0x0a00020f, dst := htonl 0x0a000202 }
  ⟨write (fun _ => 0) mbufDefaultHeadroom (ip.encode iphdr), mbufDefaultHeadroom, ip.size⟩

/-- A host 10.0.2.15 that knows 10.0.2.2. -/
def knowsGateway : Host :=
  let h := Host.init 0x0a00020f 0xffffff00
  { h with arpTable := arpUpdate h.arpTable h.arptime 0x0a000202 localMac }

theorem addressed_known : Addressed knowsGateway ⟨true, 0, []⟩ toGateway :=
  (addressed_iff _ _ _ (by decide) (by decide) (by decide) (by decide) (by decide)).mpr
    (by unfold Resolved; decide)

/-- The reply arrives while the send waits: the frame keeps what stood in the buffer. -/
theorem not_addressed_reply :
    ¬ Addressed (Host.init 0x0a00020f 0xffffff00) ⟨true, 100, knowsGateway.arpTable⟩ toGateway := by
  rw [addressed_iff_dhost (by decide) (by decide)]
  intro hall
  exact absurd (hall broadcastMac) (by decide)

end RiscvBm.Net

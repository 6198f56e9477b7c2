import Mathlib.Tactic.IntervalCases
import RiscvBm.Lib.Codec

/-!
# Packet buffers and packet headers

An `mbuf` is a block of `MBUF_SIZE` bytes of which the packet is the `len` bytes from `head`
on. Headers are pushed in front of the packet and pulled off it again. `Mbuf.data` is the
packet, and each operation is described by what it does to `data`.

The headers are the structs of `net.h` and `ip_arp.h`, field by field as they are in
memory. Numbers in them are in network order, so they pass through `bswaps` and `bswapl`.
-/

namespace RiscvBm.Net

open Wire

/-! ## §1  Buffers -/

def mbufSize : ℕ := 2048

def mbufDefaultHeadroom : ℕ := 128

structure Mbuf where
  /-- the backing store -/
  buf : ℕ → Byte
  /-- where the packet starts in it -/
  head : ℕ
  len : ℕ

/-- The packet. -/
def Mbuf.data (m : Mbuf) : List Byte := read m.buf m.head m.len

def Mbuf.store (m : Mbuf) (p : ℕ) (l : List Byte) : Mbuf := { m with buf := write m.buf p l }

/-- The texts of the two panics. -/
inductive Panic where
  | mbufpush
  | mbufput
deriving DecidableEq, Repr

/-- Strip `len` bytes off the front; `none` stands for the null pointer. -/
def mbufpull (m : Mbuf) (len : ℕ) : Option (ℕ × Mbuf) :=
  if m.len < len then none
  else some (m.head, { m with len := m.len - len, head := m.head + len })

/-- Make room for `len` bytes at the front. -/
def mbufpush (m : Mbuf) (len : ℕ) : Except Panic (ℕ × Mbuf) :=
  if m.head < len then .error .mbufpush
  else .ok (m.head - len, { m with head := m.head - len, len := m.len + len })

/-- Make room for `len` bytes at the end. -/
def mbufput (m : Mbuf) (len : ℕ) : Except Panic (ℕ × Mbuf) :=
  if m.len + len > mbufSize then .error .mbufput
  else .ok (m.head + m.len, { m with len := m.len + len })

/-- Strip `len` bytes off the end; a longer `len` does nothing. -/
def mbuftrim (m : Mbuf) (len : ℕ) : Mbuf :=
  if len > m.len then m else { m with len := m.len - len }

/-- `mem` says whether `kmalloc` finds memory. -/
def mbufalloc (mem : Bool) (headroom : ℕ) : Option Mbuf :=
  if headroom > mbufSize then none
  else if mem then some ⟨fun _ => 0, headroom, 0⟩
  else none

variable {m : Mbuf} {l l' : List Byte} {n : ℕ}

@[simp] theorem length_data (m : Mbuf) : m.data.length = m.len := length_read _ _ _

/-- A header that is pushed and filled stands in front of the packet. -/
theorem mbufpush_store (h : l.length ≤ m.head) :
    ∃ m', mbufpush m l.length = .ok (m.head - l.length, m') ∧
      (m'.store (m.head - l.length) l).data = l ++ m.data ∧
      (m'.store (m.head - l.length) l).head = m.head - l.length := by
  refine ⟨_, if_neg (Nat.not_lt.mpr h), ?_, rfl⟩
  unfold Mbuf.data Mbuf.store
  dsimp only
  rw [Nat.add_comm m.len, read_add, read_write_same, Nat.sub_add_cancel h,
    read_write_of_disjoint (Or.inr (by omega))]

/-- What is put and filled stands at the end. -/
theorem mbufput_store (h : m.len + l.length ≤ mbufSize) :
    ∃ m', mbufput m l.length = .ok (m.head + m.len, m') ∧
      (m'.store (m.head + m.len) l).data = m.data ++ l ∧
      (m'.store (m.head + m.len) l).head = m.head := by
  refine ⟨_, if_neg (Nat.not_lt.mpr h), ?_, rfl⟩
  unfold Mbuf.data Mbuf.store
  dsimp only
  rw [read_add, read_write_same, read_write_of_disjoint (Or.inl le_rfl)]

/-- What is pulled is the front of the packet. -/
theorem mbufpull_of_data (h : m.data = l ++ l') :
    ∃ m', mbufpull m l.length = some (m.head, m') ∧ m'.buf = m.buf ∧
      read m.buf m.head l.length = l ∧ m'.data = l' := by
  have hlen := congrArg List.length h
  rw [length_data, List.length_append] at hlen
  obtain ⟨hl, hl'⟩ := read_of_append h
  exact ⟨_, if_neg (by omega), rfl, hl, hl'⟩

/-- Trimming leaves the first bytes. -/
theorem mbuftrim_data (h : m.data = l ++ l') : (mbuftrim m (m.len - l.length)).data = l := by
  have hlen := congrArg List.length h
  rw [length_data, List.length_append] at hlen
  have hrest : m.len - (m.len - l.length) = l.length := by omega
  rw [mbuftrim, if_neg (by omega), Mbuf.data, hrest]
  exact (read_of_append h).1

/-! ## §2  Byte order -/

def bswaps (val : BitVec 16) : BitVec 16 :=
  ((val &&& 0x00ff) <<< 8) ||| ((val &&& 0xff00) >>> 8)

def bswapl (val : BitVec 32) : BitVec 32 :=
  ((val &&& 0x000000ff) <<< 24) ||| ((val &&& 0x0000ff00) <<< 8) |||
    ((val &&& 0x00ff0000) >>> 8) ||| ((val &&& 0xff000000) >>> 24)

abbrev ntohs := bswaps
abbrev htons := bswaps
abbrev ntohl := bswapl
abbrev htonl := bswapl

@[simp] theorem bswaps_bswaps (v : BitVec 16) : bswaps (bswaps v) = v := by
  apply BitVec.eq_of_getLsbD_eq
  intro i hi
  unfold bswaps
  interval_cases i <;> simp

@[simp] theorem bswapl_bswapl (v : BitVec 32) : bswapl (bswapl v) = v := by
  apply BitVec.eq_of_getLsbD_eq
  intro i hi
  unfold bswapl
  interval_cases i <;> simp

/-! ## §3  Headers -/

def ethaddrLen : ℕ := 6

abbrev Mac := Vector Byte ethaddrLen

structure Eth where
  dhost : Mac
  shost : Mac
  type : BitVec 16
deriving DecidableEq, Repr

open Codec in
def eth : Codec Eth :=
  (pair (array ethaddrLen) (pair (array ethaddrLen) u16)).iso
    (fun e => (e.dhost, e.shost, e.type)) (fun p => ⟨p.1, p.2.1, p.2.2⟩) (fun _ => rfl)

structure Ip where
  vhl : Byte
  tos : Byte
  len : BitVec 16
  id : BitVec 16
  off : BitVec 16
  ttl : Byte
  p : Byte
  sum : BitVec 16
  src : BitVec 32
  dst : BitVec 32
deriving DecidableEq, Repr

/-- What `memset` leaves. -/
def Ip.zero : Ip := ⟨0, 0, 0, 0, 0, 0, 0, 0, 0, 0⟩

open Codec in
def ip : Codec Ip :=
  (pair u8 (pair u8 (pair u16 (pair u16 (pair u16 (pair u8 (pair u8 (pair u16
    (pair u32 u32))))))))).iso
    (fun h => (h.vhl, h.tos, h.len, h.id, h.off, h.ttl, h.p, h.sum, h.src, h.dst))
    (fun (vhl, tos, len, id, off, ttl, p, sum, src, dst) =>
      ⟨vhl, tos, len, id, off, ttl, p, sum, src, dst⟩)
    (fun _ => rfl)

structure Udp where
  sport : BitVec 16
  dport : BitVec 16
  ulen : BitVec 16
  sum : BitVec 16
deriving DecidableEq, Repr

open Codec in
def udp : Codec Udp :=
  (pair u16 (pair u16 (pair u16 u16))).iso
    (fun h => (h.sport, h.dport, h.ulen, h.sum)) (fun (s, d, l, c) => ⟨s, d, l, c⟩) (fun _ => rfl)

structure Arp where
  hrd : BitVec 16
  pro : BitVec 16
  hln : Byte
  pln : Byte
  op : BitVec 16
  sha : Mac
  sip : BitVec 32
  tha : Mac
  tip : BitVec 32
deriving DecidableEq, Repr

open Codec in
def arp : Codec Arp :=
  (pair u16 (pair u16 (pair u8 (pair u8 (pair u16 (pair (array ethaddrLen) (pair u32
    (pair (array ethaddrLen) u32)))))))).iso
    (fun h => (h.hrd, h.pro, h.hln, h.pln, h.op, h.sha, h.sip, h.tha, h.tip))
    (fun (hrd, pro, hln, pln, op, sha, sip, tha, tip) =>
      ⟨hrd, pro, hln, pln, op, sha, sip, tha, tip⟩)
    (fun _ => rfl)

/-- The struct at `p`. -/
def Mbuf.load {α : Type} (m : Mbuf) (c : Codec α) (p : ℕ) : α := c.decode (read m.buf p c.size)

example : eth.size = 14 ∧ ip.size = 20 ∧ udp.size = 8 ∧ arp.size = 28 := by decide

theorem load_of_data {α : Type} (c : Codec α) {a : α} (h : m.data = c.encode a ++ l) :
    m.load c m.head = a := by
  have hread := (read_of_append h).1
  rw [c.length_encode] at hread
  rw [Mbuf.load, hread, c.decode_encode]

/-- `mbufpushhdr` and the assignment of the struct. -/
theorem pushhdr {α : Type} (c : Codec α) (a : α) (h : c.size ≤ m.head) :
    ∃ m', mbufpush m c.size = .ok (m.head - c.size, m') ∧
      (m'.store (m.head - c.size) (c.encode a)).data = c.encode a ++ m.data ∧
      (m'.store (m.head - c.size) (c.encode a)).head = m.head - c.size := by
  have hpush := mbufpush_store (m := m) (l := c.encode a) (by rw [c.length_encode]; exact h)
  rwa [c.length_encode] at hpush

/-- `mbufpullhdr` and the struct that it finds. -/
theorem pullhdr {α : Type} (c : Codec α) {a : α} (h : m.data = c.encode a ++ l) :
    ∃ m', mbufpull m c.size = some (m.head, m') ∧ read m'.buf m.head c.size = c.encode a ∧
      m'.data = l := by
  obtain ⟨m', hpull, hbuf, hread, hdata⟩ := mbufpull_of_data h
  rw [c.length_encode] at hpull hread
  refine ⟨m', hpull, ?_, hdata⟩
  rw [hbuf, hread]

end RiscvBm.Net

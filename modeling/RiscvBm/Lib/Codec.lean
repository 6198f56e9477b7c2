import Mathlib.Data.List.Basic

/-!
# Records in a memory of bytes

A `Codec` lays out the values of a type in a fixed number of bytes: `encode` gives the bytes,
`decode` reads them back from the front of a longer text. Codecs are built field by field
(`u8`, `u16`, `u32`, `array`, `pair`, `iso`), so that a record in memory is the
product of its fields. Words are stored with the low byte first.

`read` and `write` are the memory such records live in.
-/

namespace RiscvBm.Wire

abbrev Byte := BitVec 8

/-! ## Memory -/

/-- The `n` bytes from `off` on. -/
def read (buf : ℕ → Byte) (off n : ℕ) : List Byte :=
  (List.range n).map fun i => buf (off + i)

/-- Overwrite the bytes from `off` on with `l`. -/
def write (buf : ℕ → Byte) (off : ℕ) (l : List Byte) : ℕ → Byte := fun i =>
  if off ≤ i then (l[i - off]?).getD (buf i) else buf i

variable {buf : ℕ → Byte} {off off' n : ℕ} {l l' : List Byte}

@[simp] theorem length_read (buf : ℕ → Byte) (off n : ℕ) : (read buf off n).length = n := by
  simp [read]

theorem getElem_read {i : ℕ} (hi : i < (read buf off n).length) :
    (read buf off n)[i] = buf (off + i) := by
  simp [read]

theorem read_eq_iff : read buf off n = l ↔
    l.length = n ∧ ∀ i (hi : i < l.length), buf (off + i) = l[i] := by
  constructor
  · rintro rfl
    exact ⟨length_read _ _ _, fun i hi => (getElem_read hi).symm⟩
  · rintro ⟨hlen, hget⟩
    apply List.ext_getElem
    · rw [length_read, hlen]
    · intro i hi hil
      rw [getElem_read, hget i hil]

theorem write_of_lt {i : ℕ} (h : i < off) : write buf off l i = buf i :=
  if_neg (Nat.not_le.mpr h)

theorem write_of_le {i : ℕ} (h : off + l.length ≤ i) : write buf off l i = buf i := by
  unfold write
  rw [List.getElem?_eq_none (by omega)]
  exact ite_id _

theorem write_add {i : ℕ} (hi : i < l.length) : write buf off l (off + i) = l[i] := by
  unfold write
  rw [if_pos (Nat.le_add_right _ _), Nat.add_sub_cancel_left, List.getElem?_eq_getElem hi]
  rfl

theorem read_write_same : read (write buf off l) off l.length = l :=
  read_eq_iff.mpr ⟨rfl, fun _ hi => write_add hi⟩

theorem read_write_of_disjoint (h : off' + n ≤ off ∨ off + l.length ≤ off') :
    read (write buf off l) off' n = read buf off' n := by
  apply List.map_congr_left
  intro i hi
  rw [List.mem_range] at hi
  rcases h with h | h
  · exact write_of_lt (by omega)
  · exact write_of_le (by omega)

theorem read_add (buf : ℕ → Byte) (off n k : ℕ) :
    read buf off (n + k) = read buf off n ++ read buf (off + n) k := by
  simp [read, List.range_add, Nat.add_assoc]

theorem read_of_append (h : read buf off n = l ++ l') :
    read buf off l.length = l ∧ read buf (off + l.length) (n - l.length) = l' := by
  have hlen := congrArg List.length h
  rw [length_read, List.length_append] at hlen
  have hn : n = l.length + (n - l.length) := by omega
  rw [hn, read_add] at h
  exact List.append_inj h (by rw [length_read])

/-! ## Codecs -/

structure Codec (α : Type) where
  size : ℕ
  encode : α → List Byte
  decode : List Byte → α
  length_encode : ∀ a, (encode a).length = size
  decode_append : ∀ a l, decode (encode a ++ l) = a

attribute [simp] Codec.length_encode Codec.decode_append

namespace Codec

variable {α β : Type}

@[simp] theorem decode_encode (c : Codec α) (a : α) : c.decode (c.encode a) = a := by
  have h := c.decode_append a []
  rwa [List.append_nil] at h

def u8 : Codec Byte where
  size := 1
  encode b := [b]
  decode l := l.getD 0 0
  length_encode _ := rfl
  decode_append _ _ := rfl

/-- The upper and the lower part of a word make up the word. -/
theorem append_extractLsb' {m n : ℕ} (w : BitVec (m + n)) :
    w.extractLsb' n m ++ w.extractLsb' 0 n = w := by
  apply BitVec.eq_of_getLsbD_eq
  intro i hi'
  simp only [BitVec.getLsbD_append, BitVec.getLsbD_extractLsb']
  by_cases h : i < n
  · simp [h]
  · have hm : i - n < m := by omega
    simp [h, hm, Nat.add_sub_cancel' (Nat.not_lt.mp h)]

/-- The value of two bytes, low byte first. -/
def word (b₀ b₁ : Byte) : BitVec 16 := b₁ ++ b₀

def lo (w : BitVec 16) : Byte := w.extractLsb' 0 8

def hi (w : BitVec 16) : Byte := w.extractLsb' 8 8

theorem word_lo_hi (w : BitVec 16) : word (lo w) (hi w) = w :=
  append_extractLsb' (m := 8) (n := 8) w

def u16 : Codec (BitVec 16) where
  size := 2
  encode w := [lo w, hi w]
  decode l := word (l.getD 0 0) (l.getD 1 0)
  length_encode _ := rfl
  decode_append w _ := word_lo_hi w

/-- The parts one after the other. -/
def pair (c : Codec α) (d : Codec β) : Codec (α × β) where
  size := c.size + d.size
  encode p := c.encode p.1 ++ d.encode p.2
  decode l := (c.decode l, d.decode (l.drop c.size))
  length_encode p := by simp
  decode_append p l := by
    rw [List.append_assoc, c.decode_append, List.drop_left' (c.length_encode _), d.decode_append]

/-- Another way to see the same values. -/
def iso (c : Codec α) (f : β → α) (g : α → β) (h : ∀ b, g (f b) = b) : Codec β where
  size := c.size
  encode b := c.encode (f b)
  decode l := g (c.decode l)
  length_encode _ := c.length_encode _
  decode_append b l := by rw [c.decode_append, h]

def u32 : Codec (BitVec 32) :=
  (pair u16 u16).iso (fun w => (w.extractLsb' 0 16, w.extractLsb' 16 16)) (fun p => p.2 ++ p.1)
    (append_extractLsb' (m := 16) (n := 16))

/-- `n` bytes. -/
def array (n : ℕ) : Codec (Vector Byte n) where
  size := n
  encode v := v.toList
  decode l := Vector.ofFn fun i => l.getD i 0
  length_encode v := v.length_toList
  decode_append v l := by
    apply Vector.ext
    intro i hi'
    have hlen : i < v.toList.length := by rw [v.length_toList]; exact hi'
    rw [Vector.getElem_ofFn, List.getD_eq_getElem?_getD, List.getElem?_append_left hlen,
      List.getElem?_eq_getElem hlen]
    simp

end Codec

end RiscvBm.Wire

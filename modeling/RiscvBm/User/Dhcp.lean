import Mathlib.Data.List.Basic

/-!
# The options of a DHCP reply (`user/dhcpc.c`)

`dhcp_parse_options` takes every option for a code, a length and a value, and copies a fixed
number of bytes whatever the length says. `reference` reads the area as RFC 2132 has it: a Pad
is one byte, and an option that does not fit is ignored. `parses_of_regular` says of which areas
the two make the same.
-/

namespace RiscvBm.Dhcp

/-! ## §1  The parser -/

/-- The part of `dhcpc_s` that the options are stored in. `lease_time` has two bytes, and the
two of `padding` behind it belong to no field. -/
structure State where
  serverid : List UInt8
  leaseTime : List UInt8
  padding : List UInt8
  netmask : List UInt8
  dnsaddr : List UInt8
  defaultRouter : List UInt8
deriving DecidableEq

/-- The cases of the `switch` that store something. -/
inductive Field where
  | subnetMask
  | router
  | dnsServer
  | msgType
  | serverId
  | leaseTime
deriving DecidableEq

def optionPad : UInt8 := 0
def optionEnd : UInt8 := 255

def fieldOf (code : UInt8) : Option Field :=
  if code = 1 then some .subnetMask
  else if code = 3 then some .router
  else if code = 6 then some .dnsServer
  else if code = 53 then some .msgType
  else if code = 54 then some .serverId
  else if code = 51 then some .leaseTime
  else none

/-- The number of bytes that are copied. -/
def Field.size : Field → ℕ
  | .msgType => 1
  | _ => 4

/-- `type` and `dhcpc_s` after the copy. -/
def store (r : UInt8 × State) (f : Field) (bytes : List UInt8) : UInt8 × State :=
  match f with
  | .subnetMask => (r.1, { r.2 with netmask := bytes })
  | .router => (r.1, { r.2 with defaultRouter := bytes })
  | .dnsServer => (r.1, { r.2 with dnsaddr := bytes })
  | .msgType => (bytes.headD 0, r.2)
  | .serverId => (r.1, { r.2 with serverid := bytes })
  | .leaseTime => (r.1, { r.2 with leaseTime := bytes.take 2, padding := bytes.drop 2 })

/-- `n` bytes from `optptr + 2` on; `none` when they are not all in the area. -/
def copy (bytes : List UInt8) (n : ℕ) : Option (List UInt8) :=
  if n ≤ bytes.length then some (bytes.take n) else none

/-- The `switch`. -/
def storeOption (r : UInt8 × State) (code : UInt8) (bytes : List UInt8) :
    Option (UInt8 × State) :=
  ((fieldOf code).map fun f => (copy bytes f.size).map (store r f)).getD (some r)

/-- `while(optptr < end)`, on the bytes from `optptr` to `end`. `none` is a read behind the
area. -/
def parseLoop (r : UInt8 × State) : List UInt8 → Option (UInt8 × State)
  | [] => some r
  | code :: rest =>
    if code = optionEnd then some r
    else (storeOption r code (rest.drop 1)).bind fun r' =>
      rest.head?.bind fun len => parseLoop r' (rest.drop (len.toNat + 1))
termination_by bytes => bytes.length
decreasing_by
  simp only [List.length_drop, List.length_cons]
  omega

def dhcpParseOptions (st : State) (area : List UInt8) : Option (UInt8 × State) :=
  parseLoop (0, st) area

/-! ## §2  RFC 2132 -/

/-- The options of an area, each with its value. -/
def options : List UInt8 → List (UInt8 × List UInt8)
  | [] => []
  | code :: rest =>
    if code = optionPad then options rest
    else if code = optionEnd then []
    else
      let len := (rest.headD 0).toNat
      if len + 1 ≤ rest.length then
        (code, (rest.drop 1).take len) :: options (rest.drop (len + 1))
      else []
termination_by bytes => bytes.length
decreasing_by
  · simp
  · simp only [List.length_drop, List.length_cons]
    omega

/-- A value that is too short is ignored. There is no use for the lease time. -/
def assign (r : UInt8 × State) (o : UInt8 × List UInt8) : UInt8 × State :=
  ((fieldOf o.1).map fun f =>
    if f ≠ .leaseTime ∧ f.size ≤ o.2.length then store r f (o.2.take f.size) else r).getD r

def reference (st : State) (area : List UInt8) : UInt8 × State :=
  (options area).foldl assign (0, st)

/-! ## §3  Areas that are read as RFC 2132 has it -/

/-- The parser reads only bytes of the area and makes what the reference does. -/
def Parses (area : List UInt8) : Prop :=
  ∀ st, dhcpParseOptions st area = some (reference st area)

/-- Pads come in twos. An option that is stored is not the lease time, is at least as long as
what is copied, and ends in the area. -/
inductive Regular : List UInt8 → Prop where
  | nil : Regular []
  | fin (rest : List UInt8) : Regular (optionEnd :: rest)
  | pads {rest : List UInt8} (h : Regular rest) : Regular (optionPad :: optionPad :: rest)
  | option {code len : UInt8} {rest : List UInt8} (hpad : code ≠ optionPad)
      (hend : code ≠ optionEnd)
      (hfield : ∀ f, fieldOf code = some f → f ≠ .leaseTime ∧ f.size ≤ len.toNat ∧
        len.toNat ≤ rest.length)
      (h : Regular (rest.drop len.toNat)) : Regular (code :: len :: rest)

variable {r : UInt8 × State} {code len : UInt8} {rest area : List UInt8}

theorem parseLoop_cons (hend : code ≠ optionEnd) :
    parseLoop r (code :: len :: rest) =
      (storeOption r code rest).bind fun r' => parseLoop r' (rest.drop len.toNat) := by
  rw [parseLoop, if_neg hend]
  rfl

theorem options_cons (hpad : code ≠ optionPad) (hend : code ≠ optionEnd) :
    options (code :: len :: rest) =
      if len.toNat ≤ rest.length then
        (code, rest.take len.toNat) :: options (rest.drop len.toNat)
      else [] := by
  rw [options, if_neg hpad, if_neg hend]
  simp

/-- The option is stored as the reference does it. -/
theorem storeOption_eq
    (hfield : ∀ f, fieldOf code = some f → f ≠ .leaseTime ∧ f.size ≤ len.toNat ∧
      len.toNat ≤ rest.length) :
    storeOption r code rest = some (assign r (code, rest.take len.toNat)) := by
  unfold storeOption assign
  cases hcode : fieldOf code with
  | none => rfl
  | some f =>
    obtain ⟨hlease, hsize, hfit⟩ := hfield f hcode
    have hlen : f.size ≤ (rest.take len.toNat).length := by
      rw [List.length_take, Nat.min_eq_left hfit]
      exact hsize
    rw [Option.map_some, Option.map_some, Option.getD_some, Option.getD_some, copy,
      if_pos (Nat.le_trans hsize hfit), Option.map_some, if_pos ⟨hlease, hlen⟩, List.take_take,
      Nat.min_eq_left hsize]

theorem parseLoop_eq (h : Regular area) (r : UInt8 × State) :
    parseLoop r area = some ((options area).foldl assign r) := by
  induction h generalizing r with
  | nil => rw [parseLoop, options, List.foldl_nil]
  | fin rest =>
    rw [parseLoop, if_pos rfl, options, if_neg (by decide), if_pos rfl, List.foldl_nil]
  | pads h ih =>
    -- the second Pad is taken for the length
    rw [parseLoop_cons (by decide), options, if_pos rfl, options, if_pos rfl]
    exact ih r
  | @option code len rest hpad hend hfield h ih =>
    rw [parseLoop_cons hend, storeOption_eq hfield, Option.bind_some, ih, options_cons hpad hend]
    split_ifs with hfit
    · rfl
    · -- it does not fit and is not stored, and nothing is left behind it
      have hnone : fieldOf code = none := by
        cases hcode : fieldOf code with
        | none => rfl
        | some f => exact absurd (hfield f hcode).2.2 hfit
      rw [List.drop_eq_nil_of_le (Nat.le_of_not_le hfit), options]
      simp [assign, hnone]

/-- **A regular area is parsed as RFC 2132 has it**, without a read behind it. -/
theorem parses_of_regular (h : Regular area) : Parses area :=
  fun st => parseLoop_eq h (0, st)

/-- A subnet mask, the message type and the end. -/
theorem parses_of_regular_offer :
    Regular [1, 4, 255, 255, 255, 0, 53, 1, 2, 255] ∧
      Parses [1, 4, 255, 255, 255, 0, 53, 1, 2, 255] := by
  have h : Regular [1, 4, 255, 255, 255, 0, 53, 1, 2, 255] := by
    refine .option (by decide) (by decide) ?_ (.option (by decide) (by decide) ?_ (.fin []))
    · rintro f ⟨rfl⟩
      decide
    · rintro f ⟨rfl⟩
      decide
  exact ⟨h, parses_of_regular h⟩

/-- A Pad in front of the message type: the code of the option is taken for a length, and the
type is not found. -/
theorem not_parses_pad : ¬ Parses [0, 53, 1, 5, 255] := by
  intro h
  have hcode (st : State) : dhcpParseOptions st [0, 53, 1, 5, 255] = some (0, st) := by
    rw [dhcpParseOptions, parseLoop_cons (by decide)]
    exact parseLoop.eq_1 _
  have hoptions : options [optionPad, 53, 1, 5, optionEnd] = [(53, [5])] := by
    rw [options, if_pos rfl, options_cons (by decide) (by decide), if_pos (by decide)]
    show _ :: options [optionEnd] = _
    rw [options, if_neg (by decide), if_pos rfl]
    rfl
  have hst := h ⟨[], [], [], [], [], []⟩
  rw [hcode, reference, show [0, 53, 1, 5, 255] = [optionPad, 53, 1, 5, optionEnd] from rfl,
    hoptions] at hst
  revert hst
  decide

end RiscvBm.Dhcp

/-!
# Field keys

On the wire every field is announced by a *key*: one varint that packs the number of the field
with the way its payload is laid out. The six layouts are the wire types; two of them, the start
and the end of a group, bracket a run of further fields instead of carrying a payload.

## Main definitions

* `WireType` — the six payload layouts.
* `WireType.code`, `WireType.ofCode?` — the three-bit code of a layout, and back.
* `Wire.key` — the number that announces a field.

## Main results

* `WireType.ofCode?_code` — every layout is found again under its own code.
-/

namespace Protobuf

/-- How the payload of a field is laid out on the wire. -/
inductive WireType where
  /-- A base-128 integer. -/
  | varint
  /-- Eight bytes, least significant first. -/
  | fixed64
  /-- A byte count and that many bytes. -/
  | lengthDelimited
  /-- The opening bracket of a group. -/
  | startGroup
  /-- The closing bracket of a group. -/
  | endGroup
  /-- Four bytes, least significant first. -/
  | fixed32
  deriving DecidableEq, Repr, Inhabited

namespace WireType

/-- The three-bit code of a wire type. -/
def code : WireType → UInt8
  | varint => 0
  | fixed64 => 1
  | lengthDelimited => 2
  | startGroup => 3
  | endGroup => 4
  | fixed32 => 5

/-- The wire type of a code. The codes 6 and 7, and all that need more than three bits, name
none. -/
def ofCode? : UInt8 → Option WireType
  | 0 => some varint
  | 1 => some fixed64
  | 2 => some lengthDelimited
  | 3 => some startGroup
  | 4 => some endGroup
  | 5 => some fixed32
  | _ => none

/-- The name of a wire type in messages. -/
def name : WireType → String
  | varint => "Varint"
  | fixed64 => "Fixed64"
  | lengthDelimited => "LengthDelimited"
  | startGroup => "StartGroup"
  | endGroup => "EndGroup"
  | fixed32 => "Fixed32"

@[simp] theorem ofCode?_code (w : WireType) : ofCode? w.code = some w := by
  cases w <;> rfl

end WireType

namespace Wire

/-- The number that announces field `id` with payload layout `w`: the code of the layout in the
low three bits, the number of the field above them. -/
def key (id : UInt32) (w : WireType) : UInt64 :=
  (id.toUInt64 <<< 3) ||| w.code.toUInt64

end Wire

end Protobuf

import Protobuf.Atom
import Protobuf.Graph.Basic
import Protobuf.Wire.Record
import Protobuf.Wire.Zigzag

/-!
# Atoms on the wire

Every scalar type has one layout for its canonical atoms. Integers of variable width are varints:
negative ones are spread over 64 bits, unless the type is one that interleaves the signs. Reading
cuts a varint to the width of the type.

## Main definitions

* `Scalar.payload?`, `Scalar.ofPayload` — between canonical atoms and payloads.
* `FieldType.payload?`, `FieldType.ofPayload` — the same for all types of single values.
-/

namespace Protobuf

/-- The varint of a 32-bit integer, whose sign is spread over 64 bits. -/
def Wire.Payload.ofInt32 (v : Int32) : Wire.Payload :=
  .varint v.toInt64.toUInt64

/-- The 32-bit integer in the low bits of a varint. -/
def Wire.low32 (v : UInt64) : Int32 :=
  v.toUInt32.toInt32

/-- Why a payload is no value of a scalar type. -/
inductive PayloadFault where
  /-- Values of the type are laid out in another way. -/
  | layout
  | text (fault : Utf8.Fault)
  deriving DecidableEq, Repr

namespace Scalar

/-- The payload of a canonical atom of a scalar type. -/
def payload? : Scalar → Atom → Option Wire.Payload
  | .int32, .i32 v => some (.ofInt32 v)
  | .int64, .i64 v => some (.varint v.toUInt64)
  | .uint32, .u32 v => some (.varint v.toUInt64)
  | .uint64, .u64 v => some (.varint v)
  | .sint32, .i32 v => some (.varint (Zigzag.encode32 v).toUInt64)
  | .sint64, .i64 v => some (.varint (Zigzag.encode64 v))
  | .fixed32, .u32 v => some (.fixed32 v)
  | .fixed64, .u64 v => some (.fixed64 v)
  | .sfixed32, .i32 v => some (.fixed32 v.toUInt32)
  | .sfixed64, .i64 v => some (.fixed64 v.toUInt64)
  | .float, .f32 bits => some (.fixed32 bits)
  | .double, .f64 bits => some (.fixed64 bits)
  | .bool, .bool v => some (.varint v.toUInt64)
  | .string, .string text => some (.bytes (Utf8.encode text))
  | .bytes, .bytes content => some (.bytes content)
  | _, _ => none

/-- The canonical atom of a scalar type that a payload holds. -/
def ofPayload : Scalar → Wire.Payload → Except PayloadFault Atom
  | .int32, .varint v => .ok (.i32 (Wire.low32 v))
  | .int64, .varint v => .ok (.i64 v.toInt64)
  | .uint32, .varint v => .ok (.u32 v.toUInt32)
  | .uint64, .varint v => .ok (.u64 v)
  | .sint32, .varint v => .ok (.i32 (Zigzag.decode32 v.toUInt32))
  | .sint64, .varint v => .ok (.i64 (Zigzag.decode64 v))
  | .fixed32, .fixed32 v => .ok (.u32 v)
  | .fixed64, .fixed64 v => .ok (.u64 v)
  | .sfixed32, .fixed32 v => .ok (.i32 v.toInt32)
  | .sfixed64, .fixed64 v => .ok (.i64 v.toInt64)
  | .float, .fixed32 bits => .ok (.f32 bits)
  | .double, .fixed64 bits => .ok (.f64 bits)
  | .bool, .varint v => .ok (.bool (v ≠ 0))
  | .string, .bytes content => ((Utf8.decode content).map .string).mapError .text
  | .bytes, .bytes content => .ok (.bytes content)
  | _, _ => .error .layout

end Scalar

/-- The payload of a single value of a type, as far as the atom can be brought into its canonical
form. Messages are no atoms. -/
def FieldType.payload? (type : FieldType) (a : Atom) : Option Wire.Payload :=
  match type with
  | .scalar s => ((s.coerce a).toOption).bind s.payload?
  | .enumeration _ =>
    (a.integer?.filter (· ∈ IntRange.int32)).map fun v => .ofInt32 v.toInt32
  | .message _ | .group _ => none

/-- The atom of a single value of a type that a payload holds. -/
def FieldType.ofPayload (type : FieldType) (p : Wire.Payload) : Except PayloadFault Atom :=
  match type, p with
  | .scalar s, p => s.ofPayload p
  | .enumeration _, .varint v => .ok (.enumeration (Wire.low32 v))
  | _, _ => .error .layout

end Protobuf

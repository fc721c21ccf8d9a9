import Protobuf.Wire.Key

/-!
# Scalar types

## Main definitions

* `Scalar` — the fifteen scalar types of the schema language.
* `Scalar.name`, `Scalar.ofName?` — their keywords.
* `Scalar.wireType`, `Scalar.isPackable`, `Scalar.isMapKey` — what may be done with them.

## Main results

* `Scalar.ofName?_name` — every type is found again under its keyword.
-/

namespace Protobuf

/-- The scalar types of the schema language. -/
inductive Scalar where
  | double
  | float
  | int32
  | int64
  | uint32
  | uint64
  | sint32
  | sint64
  | fixed32
  | fixed64
  | sfixed32
  | sfixed64
  | bool
  | string
  | bytes
  deriving DecidableEq, Repr, Inhabited

namespace Scalar

/-- The keyword of a scalar type. -/
def name : Scalar → String
  | double => "double"
  | float => "float"
  | int32 => "int32"
  | int64 => "int64"
  | uint32 => "uint32"
  | uint64 => "uint64"
  | sint32 => "sint32"
  | sint64 => "sint64"
  | fixed32 => "fixed32"
  | fixed64 => "fixed64"
  | sfixed32 => "sfixed32"
  | sfixed64 => "sfixed64"
  | bool => "bool"
  | string => "string"
  | bytes => "bytes"

/-- The scalar type of a keyword. -/
def ofName? : String → Option Scalar
  | "double" => some double
  | "float" => some float
  | "int32" => some int32
  | "int64" => some int64
  | "uint32" => some uint32
  | "uint64" => some uint64
  | "sint32" => some sint32
  | "sint64" => some sint64
  | "fixed32" => some fixed32
  | "fixed64" => some fixed64
  | "sfixed32" => some sfixed32
  | "sfixed64" => some sfixed64
  | "bool" => some bool
  | "string" => some string
  | "bytes" => some bytes
  | _ => none

/-- Every type is found again under its keyword. -/
@[simp] theorem ofName?_name (s : Scalar) : ofName? s.name = some s := by
  cases s <;> rfl

/-- The keyword with a capital letter, as scalar types are shown for inspection. -/
def inspect (s : Scalar) : String :=
  s.name.capitalize

/-- The wire type of a single value. -/
def wireType : Scalar → WireType
  | int32 | int64 | uint32 | uint64 | sint32 | sint64 | bool => .varint
  | fixed64 | sfixed64 | double => .fixed64
  | fixed32 | sfixed32 | float => .fixed32
  | string | bytes => .lengthDelimited

/-- Many values of the type may share one key. Types of variable size may not. -/
def isPackable : Scalar → Bool
  | string | bytes => false
  | _ => true

/-- The type may be the key type of a map. -/
def isMapKey : Scalar → Bool
  | double | float | bytes => false
  | _ => true

end Scalar

end Protobuf

import Protobuf.Number.Notation
import Protobuf.Number.Range
import Protobuf.Scalar
import Protobuf.Text.Quoted
import Protobuf.Text.Utf8

/-!
# Single values

An atom is a value without parts: a truth value, a number, a text, some bytes, or the number of an
enum value. Every scalar type keeps its values in one kind of atom, its canonical kind; atoms of
another kind are accepted for a scalar type when they can be converted without loss, or by rounding
in the case of floating-point numbers.

## Main definitions

* `Atom`, `Atom.kind` — the atoms and the names of their kinds.
* `Atom.integer?` — the integer that an atom stands for.
* `Scalar.zero`, `Atom.isZero` — zero values.
* `Scalar.coerce` — the canonical atom of a scalar type, or why there is none.
* `Atom.display`, `Atom.inspect` — two ways of writing an atom; `Atom.keyText` — one as a map key.
-/

namespace Protobuf

/-- A value without parts. -/
inductive Atom where
  | bool (value : Bool)
  | i32 (value : Int32)
  | i64 (value : Int64)
  | u32 (value : UInt32)
  | u64 (value : UInt64)
  /-- A floating-point number, as its 32-bit word. -/
  | f32 (bits : UInt32)
  /-- A floating-point number, as its 64-bit word. -/
  | f64 (bits : UInt64)
  | string (text : String)
  | bytes (content : List UInt8)
  /-- The number of an enum value. -/
  | enumeration (id : Int32)
  deriving DecidableEq, Repr, Inhabited

namespace Atom

/-- The name of the kind of an atom. -/
def kind : Atom → String
  | bool _ => "bool"
  | i32 _ => "i32"
  | i64 _ => "i64"
  | u32 _ => "u32"
  | u64 _ => "u64"
  | f32 _ => "f32"
  | f64 _ => "f64"
  | string _ => "string"
  | bytes _ => "bytes"
  | enumeration _ => "enum"

/-- The integer that an atom stands for, if it does for one. -/
def integer? : Atom → Option Int
  | i32 v => some v.toInt
  | i64 v => some v.toInt
  | u32 v => some v.toNat
  | u64 v => some v.toNat
  | enumeration id => some id.toInt
  | _ => none

/-- The integer that an atom stands for, if it fits 64 bits with sign. -/
def int64? (a : Atom) : Option Int64 :=
  (a.integer?.filter (· ∈ IntRange.int64)).map Int.toInt64

/-- The integer that an atom stands for, if it fits 64 bits without sign. -/
def uint64? (a : Atom) : Option UInt64 :=
  (a.integer?.filter (· ∈ IntRange.uint64)).map fun v => v.toNat.toUInt64

/-- The 64-bit word of a floating-point atom. -/
def double? : Atom → Option UInt64
  | f32 bits => some (widen bits)
  | f64 bits => some bits
  | _ => none

/-- The atom is the zero value of its kind. Negative zero is not. -/
def isZero : Atom → Bool
  | bool v => !v
  | i32 v => v == 0
  | i64 v => v == 0
  | u32 v => v == 0
  | u64 v => v == 0
  | f32 bits => bits == 0
  | f64 bits => bits == 0
  | string text => text == ""
  | bytes content => content == []
  | enumeration id => id == 0

/-- An atom as a reader of a message would write it. -/
def display : Atom → String
  | bool v => toString v
  | i32 v => toString v.toInt
  | i64 v => toString v.toInt
  | u32 v => toString v.toNat
  | u64 v => toString v.toNat
  | f32 bits => FloatFormat.single.plain bits.toNat
  | f64 bits => FloatFormat.double.plain bits.toNat
  | string text => Text.quoted text
  | bytes content => s!"<{content.length} bytes>"
  | enumeration id => toString id.toInt

/-- The text by which a map orders its keys and tells them apart: a text is its own, any other atom
has the text that it is written as. -/
def keyText : Atom → String
  | string text => text
  | a => a.display

/-- An atom with its kind, for inspection. -/
def inspect : Atom → String
  | bool v => s!"Bool({v})"
  | i32 v => s!"I32({v.toInt})"
  | i64 v => s!"I64({v.toInt})"
  | u32 v => s!"U32({v.toNat})"
  | u64 v => s!"U64({v.toNat})"
  | f32 bits => "F32(" ++ FloatFormat.single.marked bits.toNat ++ ")"
  | f64 bits => "F64(" ++ FloatFormat.double.marked bits.toNat ++ ")"
  | string text => "String(" ++ Text.quoted text ++ ")"
  | bytes content => "Bytes(" ++ Text.bracketed (content.map fun b => toString b.toNat) ++ ")"
  | enumeration id => s!"Enum({id.toInt})"

end Atom

/-- The zero value of a scalar type. -/
def Scalar.zero : Scalar → Atom
  | .double => .f64 0
  | .float => .f32 0
  | .int32 | .sint32 | .sfixed32 => .i32 0
  | .int64 | .sint64 | .sfixed64 => .i64 0
  | .uint32 | .fixed32 => .u32 0
  | .uint64 | .fixed64 => .u64 0
  | .bool => .bool false
  | .string => .string ""
  | .bytes => .bytes []

/-- Why a value does not fit a scalar type. -/
inductive CoercionFault where
  /-- Values of this kind are not accepted. -/
  | mismatch (expected : Scalar) (actual : String)
  /-- The integer is beyond the range of the type. -/
  | outOfRange (value : Int) (expected : Scalar)
  deriving DecidableEq, Repr

/-- The wording of a fault. -/
def CoercionFault.message : CoercionFault → String
  | mismatch expected actual => s!"expected {expected.name}, got {actual}"
  | outOfRange value expected => s!"{value} is out of range for {expected.name}"

namespace Scalar

/-- The integers of a range, made into atoms by `make`. -/
def coerceInteger (s : Scalar) (range : IntRange) (make : Int → Atom) (a : Atom) :
    Except CoercionFault Atom :=
  match a.integer? with
  | none => .error (.mismatch s a.kind)
  | some v => if v ∈ range then .ok (make v) else .error (.outOfRange v s)

/-- The canonical atom of a scalar type for a given atom. Integers change their width when they
fit, integers become floating-point numbers, floating-point numbers change their width, and text
is taken for bytes. -/
def coerce (s : Scalar) (a : Atom) : Except CoercionFault Atom :=
  let mismatch : Except CoercionFault Atom := .error (.mismatch s a.kind)
  match s with
  | .int32 | .sint32 | .sfixed32 => s.coerceInteger .int32 (fun v => .i32 v.toInt32) a
  | .int64 | .sint64 | .sfixed64 => s.coerceInteger .int64 (fun v => .i64 v.toInt64) a
  | .uint32 | .fixed32 => s.coerceInteger .uint32 (fun v => .u32 v.toNat.toUInt32) a
  | .uint64 | .fixed64 => s.coerceInteger .uint64 (fun v => .u64 v.toNat.toUInt64) a
  | .float =>
    match a, a.integer? with
    | .f32 bits, _ => .ok (.f32 bits)
    | .f64 bits, _ => .ok (.f32 (narrow bits))
    | _, some v => .ok (.f32 (FloatFormat.single.ofInt v).toUInt32)
    | _, none => mismatch
  | .double =>
    match a, a.integer? with
    | .f64 bits, _ => .ok (.f64 bits)
    | .f32 bits, _ => .ok (.f64 (widen bits))
    | _, some v => .ok (.f64 (FloatFormat.double.ofInt v).toUInt64)
    | _, none => mismatch
  | .bool => match a with
    | .bool v => .ok (.bool v)
    | _ => mismatch
  | .string => match a with
    | .string text => .ok (.string text)
    | _ => mismatch
  | .bytes => match a with
    | .bytes content => .ok (.bytes content)
    | .string text => .ok (.bytes (Utf8.encode text))
    | _ => mismatch

end Scalar

end Protobuf

import Protobuf.Graph.Field

/-!
# Slots

A slot is what a field tells about its values once the references of the graph have been looked
up: of which type they are, whether there may be several of them, and how they go over the wire.
Setting, writing and reading a field all go by its slot. The two halves of a map entry travel like
fields of a message, so they have slots as well.

## Main definitions

* `Shape`, `Slot` — how many values there are, and what else is known of them.
* `Graph.slot?` — the slot of a field.
* `Slot.element`, `Slot.entryKey`, `Slot.entryValue` — the slots of the parts of lists and maps.
* `Slot.wireType`, `Slot.accepts` — the layouts in which values are written and read.
-/

namespace Protobuf

/-- How many values a field has, and how they are kept together. -/
inductive Shape where
  | single
  | list
  /-- The entries of a map with keys of the type `key`. -/
  | map (key : Scalar)
  deriving DecidableEq, Repr, Inhabited

/-- What a field tells about its values. -/
structure Slot where
  /-- The name of the field in messages. -/
  label : String
  id : UInt32
  type : FieldType
  shape : Shape
  /-- The elements of the list are written under one key. -/
  packed : Bool
  /-- A zero value is not written. -/
  omitsZero : Bool
  deriving Repr, Inhabited

/-- The slot of a field whose references have been looked up. -/
def Graph.slot? (g : Graph) (field : NodeId) : Option Slot := do
  let f ← g.field? field
  let link ← f.link
  let shape ← match f.rule with
    | .repeated => some .list
    | .map => link.keyType.map .map
    | _ => some .single
  return {
    label := g.fieldLabel field
    id := f.id
    type := link.type
    shape
    packed := link.packed
    omitsZero := f.hasImplicitPresence }

namespace Slot

variable (s : Slot)

/-- The slot of an element of a list, or of a value in a map. -/
def element : Slot :=
  { s with shape := .single }

/-- The slot of the key of a map entry, under the number 1. -/
def entryKey (key : Scalar) : Slot :=
  { s.element with id := 1, type := .scalar key }

/-- The slot of the value of a map entry, under the number 2. -/
def entryValue : Slot :=
  { s.element with id := 2 }

/-- The layout of a value as it is written by itself; a map entry is written as a message. -/
def wireType : WireType :=
  match s.shape with
  | .map _ => .lengthDelimited
  | _ => s.type.wireType

/-- Many values may stand under one key. -/
def isPackable : Bool :=
  s.shape = .list && s.type.isPackable

/-- The layout is one in which values are read. Packed and single elements are both read, whichever
way they are written. -/
def accepts (w : WireType) : Bool :=
  w = s.wireType || (s.isPackable && w = .lengthDelimited)

/-- What is expected of a value, in messages. -/
def expectation : String :=
  match s.shape, s.type with
  | .list, _ => "list"
  | .map _, _ => "map"
  | .single, .scalar s => s.name
  | .single, .enumeration _ => "enum"
  | .single, .message _ => "message"
  | .single, .group _ => "group"

end Slot

end Protobuf

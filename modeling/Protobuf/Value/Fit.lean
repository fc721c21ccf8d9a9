import Protobuf.Value.Basic
import Protobuf.Value.Error

/-!
# Values that fit a type

A value that is put into a message or a map has to fit the type that is declared there, and is
brought into the one form in which values of that type are kept. Enum values may be given by name.
Those of the older dialect are closed: no other numbers than the declared ones are accepted.

## Main definitions

* `Value.coerce` — the canonical atom of a scalar type.
* `Snapshot.fit` — a single value of a type.
* `FieldType.fitDetached` — the same where the definitions are not at hand.
-/

namespace Protobuf

namespace Value

/-- The canonical atom of a scalar type for a value. -/
def coerce (s : Scalar) : Value → Except CoercionFault Atom
  | atom a => s.coerce a
  | v => .error (.mismatch s v.kind)

/-- The number that a value gives for an enum value. -/
def enumNumber (v : Value) : Except ValueFault Int32 :=
  match v.atom?.bind Atom.integer? with
  | none => .error (.notAnEnum v.kind)
  | some n => if n ∈ IntRange.int32 then .ok n.toInt32 else .error (.enumRange n)

end Value

namespace Graph

variable (g : Graph)

/-- The number of the enum value that a value gives by name or by number. -/
def enumNumber (enumeration : NodeId) : Value → Except ValueFault Int32
  | .atom (.string name) =>
    match g.enumId? enumeration name with
    | some id => .ok id
    | none => .error (.enumName name (g.fqn enumeration))
  | v => v.enumNumber

/-- The number of the enum value that a value gives, which a closed enum has to declare. -/
def fitEnum (enumeration : NodeId) (v : Value) : Except ValueFault Int32 := do
  let id ← g.enumNumber enumeration v
  if g.dialectOf enumeration = .proto2 ∧ !g.enumHas enumeration id then
    throw (.enumNumber id (g.fqn enumeration))
  return id

end Graph

/-- The value as it is kept where values of a type are declared. A message has to be of the type
itself, taken from the same snapshot. -/
def Snapshot.fit (owner : Snapshot) (type : FieldType) (v : Value) : Except ValueFault Value :=
  match type with
  | .scalar s => ((v.coerce s).map .atom).mapError .coercion
  | .enumeration e => (owner.graph.fitEnum e v).map fun id => .atom (.enumeration id)
  | .message node | .group node =>
    match v with
    | .message m =>
      if m.type.sameAs ⟨⟨owner, node⟩⟩ then .ok (.message m)
      else .error (.wrongMessage (owner.graph.fqn node) m.type.fqn)
    | v => .error (.notAMessage (some (owner.graph.fqn node)) v.kind)

/-- The value as it is kept where values of a type are declared, as far as this can be told without
the definitions: enum values are given by number, and a message is known by the number of its type
alone. -/
def FieldType.fitDetached (type : FieldType) (v : Value) : Except ValueFault Value :=
  match type with
  | .scalar s => ((v.coerce s).map .atom).mapError .coercion
  | .enumeration _ => v.enumNumber.map fun id => .atom (.enumeration id)
  | .message node | .group node =>
    match v with
    | .message m =>
      if m.type.node = node then .ok (.message m)
      else .error (.wrongMessage (m.type.graph.fqn node) m.type.fqn)
    | v => .error (.notAMessage none v.kind)

end Protobuf

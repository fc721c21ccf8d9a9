import Protobuf.Value.Fit

/-!
# Maps

A map has keys of one scalar type and values of one type. Keys are given as values and brought into
the canonical form of the key type first, so that an entry is found under every value that stands
for its key. Entries ascend by the texts of their keys.

A map that belongs to a message is checked against the definitions of the message. A map made by
itself is detached; it is checked when it is put into a message.

## Main definitions

* `MapValue.empty`, `MapValue.set`, `MapValue.get?`, `MapValue.erase`, `MapValue.clear`.
* `MapValue.attach` — a map as part of a message.
-/

namespace Protobuf.MapValue

/-- A map without entries. -/
def empty (keyType : Scalar) (valueType : FieldType) (owner : Option Snapshot) : MapValue :=
  ⟨keyType, valueType, owner, []⟩

variable (m : MapValue)

/-- How many entries there are. -/
def size : Nat :=
  m.entries.length

/-- There are no entries. -/
def isEmpty : Bool :=
  m.entries.isEmpty

/-- The keys, ascending by their texts. -/
def keys : List Atom :=
  m.entries.map Prod.fst

/-- The values, in the order of their keys. -/
def values : List Value :=
  m.entries.map Prod.snd

/-- The value as it is kept in the map. -/
def fit (v : Value) : Except ValueFault Value :=
  match m.owner with
  | some owner => owner.fit m.valueType v
  | none => m.valueType.fitDetached v

/-- Puts in an entry that is known to fit; an entry of the same key gives way. -/
def insert (key : Atom) (v : Value) : MapValue :=
  { m with entries := Keyed.insert (fun e => e.1.keyText) (key, v) m.entries }

/-- Puts in an entry; an entry of the same key gives way. The key is judged first. -/
def set (key v : Value) : Except ValueError MapValue := do
  let key ← (key.coerce m.keyType).mapError fun fault => .illegalKey (.coercion fault)
  let v ← (m.fit v).mapError .illegalEntry
  return m.insert key v

/-- The text of the key that a value stands for. -/
def keyText? (key : Value) : Option String :=
  ((key.coerce m.keyType).map Atom.keyText).toOption

/-- The value of a key. What is no key of the map's type has none. -/
def get? (key : Value) : Option Value := do
  let text ← m.keyText? key
  let entry ← Keyed.find? (fun e => e.1.keyText) text m.entries
  return entry.2

/-- The map has a value for the key. -/
def has (key : Value) : Bool :=
  (m.get? key).isSome

/-- The map without the entry of a key. -/
def erase (key : Value) : MapValue :=
  match m.keyText? key with
  | some text => { m with entries := Keyed.erase (fun e => e.1.keyText) text m.entries }
  | none => m

/-- The map without its entries. -/
def clear : MapValue :=
  { m with entries := [] }

/-- Changes the value of a key that has one, as `f` says. The result is not checked. -/
def update? (key : Value) (f : Value → Option Value) : Option MapValue := do
  let text ← m.keyText? key
  let (k, v) ← Keyed.find? (fun e => e.1.keyText) text m.entries
  return m.insert k (← f v)

/-- The map as part of a message of `owner`: every value is checked, in the order of the keys. -/
def attach (owner : Snapshot) : Except ValueFault MapValue := do
  let entries ← m.entries.mapM fun (key, v) => return (key, ← owner.fit m.valueType v)
  return { m with owner := some owner, entries }

end Protobuf.MapValue

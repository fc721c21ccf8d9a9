import Protobuf.Graph.Entity

/-!
# Values

What a field of a message holds: an atom, a list, a map or another message. Messages and maps are
kept as lists that ascend by field and by key, so that the order in which they were filled leaves
no trace.

A map as well as a message holds values in turn. Both are first defined for any type of values.

## Main definitions

* `MapOf`, `MessageOf` — maps and messages that hold values of a given type.
* `Value`, with `Message` and `MapValue` for its two compound kinds.
* `Value.kind` — the name of the kind of a value.
* `Value.same` — equality, for which an empty list or map is as good as none.
-/

namespace Protobuf

/-- The entries of a map field. `V` is the type of its values. -/
structure MapOf (V : Type) where
  keyType : Scalar
  valueType : FieldType
  /-- The definitions that values are checked against. A map that has never been part of a message
  knows none. -/
  owner : Option Snapshot
  /-- Keys and values, ascending by the text of the key. -/
  entries : List (Atom × V)

/-- A message. `V` is the type of its values. -/
structure MessageOf (V : Type) where
  type : MessageType
  /-- The fields that are present, ascending by their nodes. -/
  entries : List (NodeId × V)

/-- What a field of a message holds. -/
inductive Value where
  | atom (a : Atom)
  | list (items : List Value)
  | map (m : MapOf Value)
  | message (m : MessageOf Value)

/-- A message. -/
abbrev Message := MessageOf Value

/-- The entries of a map field. -/
abbrev MapValue := MapOf Value

namespace Value

/-- The name of the kind of a value. -/
def kind : Value → String
  | atom a => a.kind
  | list _ => "list"
  | map _ => "map"
  | message _ => "message"

/-- The atom that a value is. -/
def atom? : Value → Option Atom
  | atom a => some a
  | _ => none

/-- The elements of a list. -/
def list? : Value → Option (List Value)
  | list items => some items
  | _ => none

/-- The map that a value is. -/
def map? : Value → Option MapValue
  | map m => some m
  | _ => none

/-- The message that a value is. -/
def message? : Value → Option Message
  | message m => some m
  | _ => none

/-- The value is a list or a map without elements, which cannot be told from none at all. -/
def isEmptyCollection : Value → Bool
  | list items => items.isEmpty
  | map m => m.entries.isEmpty
  | _ => false

end Value

mutual

/-- Two values are equal. Floating-point numbers are compared by their bits. Maps need not have the
same type of values, and messages need not agree on fields that are present with an empty list or
map. -/
def Value.same : Value → Value → Bool
  | .atom a, .atom b => a = b
  | .list xs, .list ys => Value.sameItems xs ys
  | .map ⟨key, _, _, xs⟩, .map m => key = m.keyType && Value.sameEntries xs m.entries
  | .message ⟨type, xs⟩, .message m =>
    type.sameAs m.type && Value.covered xs m.entries &&
      m.entries.all fun (field, y) => (Keyed.find? Prod.fst field xs).isSome || y.isEmptyCollection
  | _, _ => false

/-- Two lists have equal elements. -/
def Value.sameItems : List Value → List Value → Bool
  | [], [] => true
  | x :: xs, y :: ys => x.same y && Value.sameItems xs ys
  | _, _ => false

/-- Two maps have equal entries. -/
def Value.sameEntries : List (Atom × Value) → List (Atom × Value) → Bool
  | [], [] => true
  | (k, x) :: xs, (l, y) :: ys => k = l && x.same y && Value.sameEntries xs ys
  | _, _ => false

/-- The fields are present in `ys` with equal values, as far as they are no empty lists and maps. -/
def Value.covered (xs ys : List (NodeId × Value)) : Bool :=
  match xs with
  | [] => true
  | (field, x) :: more =>
    (match Keyed.find? Prod.fst field ys with
      | some (_, y) => x.same y
      | none => x.isEmptyCollection) && Value.covered more ys

end

instance : BEq Value := ⟨Value.same⟩

instance : BEq Message := ⟨fun m n => Value.same (.message m) (.message n)⟩

end Protobuf

import Protobuf.Message.Basic

/-!
# Places inside of values

A place is where one looks for a value inside of another one: a field of a message, a key of a map,
or an item of a list. A list of places leads to a value deep inside.

## Main definitions

* `Place` — a step from a value to one inside of it.
* `Value.replaceAt` — a value with another one deep inside of it.
-/

namespace Protobuf

/-- A step from a value to one inside of it. -/
inductive Place where
  | field (name : String)
  | key (key : Value)
  | item (index : Nat)

/-- The value with `v` in the place that others lead to, if there is a value already. Nothing is
checked, so the result may hold what could not be set. -/
def Value.replaceAt (whole : Value) (places : List Place) (v : Value) : Option Value :=
  match places, whole with
  | [], _ => some v
  | .field name :: more, .message m =>
    (Message.update? m name fun inner => inner.replaceAt more v).map .message
  | .key key :: more, .map m =>
    (MapValue.update? m key fun inner => inner.replaceAt more v).map .map
  | .item index :: more, .list items => do
    let inner ← (← items[index]?).replaceAt more v
    return .list (items.set index inner)
  | _, _ => none

end Protobuf

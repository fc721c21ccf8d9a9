import Protobuf.Graph.Name

/-!
# Fields and enum values in a graph

A message has fields of its own and fields that extensions add to it. The latter are known by
their paths, because their names may coincide with those of own fields.

## Main definitions

* `Graph.allFields` — own fields in order of declaration, then extensions by number.
* `Graph.fieldById?`, `Graph.fieldByName?` — a field of a message.
* `Graph.fieldLabel` — the name by which a message knows a field.
* `Graph.enumValues` and what is found in it.
-/

namespace Protobuf.Graph

variable (g : Graph)

/-- The fields of a message of its own. -/
def ownFields (message : NodeId) : List NodeId :=
  (g.message? message).elim [] MessageNode.fields

/-- The field node has the number `id`. -/
def hasFieldId (id : UInt32) (field : NodeId) : Bool :=
  (g.field? field).any fun f => f.id = id

/-- The fields that extensions add to a message, by number. -/
def extensionsOf (message : NodeId) : List NodeId :=
  let entries := g.extensions.filter fun e => e.target = message
  (entries.mergeSort fun a b => a.id ≤ b.id).map ExtensionEntry.field

/-- The fields of a message: its own, then extensions. -/
def allFields (message : NodeId) : List NodeId :=
  g.ownFields message ++ g.extensionsOf message

/-- The field of a message that has the number `id`. -/
def fieldById? (message : NodeId) (id : UInt32) : Option NodeId :=
  (g.ownFields message).find? (g.hasFieldId id) <|>
    (g.extensions.find? fun e => e.target = message ∧ e.id = id).map ExtensionEntry.field

/-- The field of a message that has the name `name`. An extension has its path for a name, with
or without the leading dot. -/
def fieldByName? (message : NodeId) (name : String) : Option NodeId :=
  (g.ownFields message).find? (fun f => g.name f = name) <|>
    (g.extensionsOf message).find? fun f =>
      Path.anchored? (g.fqn f) = some (Path.unanchored name)

/-- The name by which a message knows a field: that of an own field, the path of an extension. -/
def fieldLabel (field : NodeId) : String :=
  if ((g.field? field).bind FieldNode.extension).isSome then g.fqn field else g.name field

/-- The names and numbers of the values of an enum, in order of declaration. -/
def enumValues (enumeration : NodeId) : List (String × Int32) :=
  (g.children enumeration).filterMap fun v =>
    match g.kind v with
    | .enumValue id _ => some (g.name v, id)
    | _ => none

/-- The number of an enum value. -/
def enumId? (enumeration : NodeId) (name : String) : Option Int32 :=
  (g.enumValues enumeration).lookup name

/-- The name of an enum value; the first declared one, if there are several. -/
def enumName? (enumeration : NodeId) (id : Int32) : Option String :=
  ((g.enumValues enumeration).find? fun v => v.2 = id).map Prod.fst

/-- The number is that of an enum value. -/
def enumHas (enumeration : NodeId) (id : Int32) : Bool :=
  (g.enumValues enumeration).any fun v => v.2 = id

/-- The number that an enum field has when nothing else is said: that of the first value, and zero
if there is none. -/
def enumDefault (enumeration : NodeId) : Int32 :=
  (g.enumValues enumeration).head?.elim 0 Prod.snd

/-- The zero value of a field type. Messages have none. -/
def zero? : FieldType → Option Atom
  | .scalar s => some s.zero
  | .enumeration e => some (.enumeration (g.enumDefault e))
  | .message _ => none
  | .group _ => none

end Protobuf.Graph

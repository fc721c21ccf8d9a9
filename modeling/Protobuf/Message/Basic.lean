import Protobuf.Graph.Slot
import Protobuf.Value.Map

/-!
# Messages

A message knows its type and holds the values of the fields that are present. Fields are accessed
by name, extensions by their paths. What is set is checked first, and a refused access leaves the
message as it was. Of the fields of a oneof at most one is present: setting one clears the others.

## Main definitions

* `Message.new`, `Message.ofFields` — new messages.
* `Message.get?`, `Message.getOrDefault?`, `Message.has`, `Message.whichOneof?`,
  `Message.fields` — what is in a message.
* `Message.set`, `Message.add`, `Message.clear`, `Message.openMap` — checked changes.
* `Message.update?` — a change that is not checked.
-/

namespace Protobuf

/-- The value as it is kept in a field. -/
def Snapshot.fitField (owner : Snapshot) (slot : Slot) (v : Value) : Except ValueFault Value :=
  match slot.shape with
  | .single => owner.fit slot.type v
  | .list =>
    match v with
    | .list items => (items.mapM (owner.fit slot.type)).map .list
    | v => .error (.notAList v.kind)
  | .map key =>
    match v with
    | .map m =>
      if m.keyType = key ∧ m.valueType = slot.type then (MapValue.attach m owner).map .map
      else .error .wrongEntryTypes
    | v => .error (.notAMap v.kind)

namespace Message

/-- A message of which no field is present. -/
def empty (type : MessageType) : Message :=
  ⟨type, []⟩

variable (m : Message)

/-- The definitions that the message belongs to. -/
def graph : Graph :=
  m.type.graph

/-! ### Access by node -/

/-- The value of a field. -/
def value? (field : NodeId) : Option Value :=
  (Keyed.find? Prod.fst field m.entries).map Prod.snd

/-- The message with a value for a field. -/
def insert (field : NodeId) (v : Value) : Message :=
  { m with entries := Keyed.insert Prod.fst (field, v) m.entries }

/-- The message without the value of a field. -/
def erase (field : NodeId) : Message :=
  { m with entries := Keyed.erase Prod.fst field m.entries }

/-- The other fields of the oneof that a field belongs to. -/
def rivals (field : NodeId) : List NodeId :=
  let oneof := ((m.graph.field? field).bind FieldNode.oneof).bind m.graph.oneof?
  (oneof.elim [] OneofNode.fields).filter (· ≠ field)

/-- The message with a value for a field, and without the other fields of its oneof. -/
def put (field : NodeId) (v : Value) : Message :=
  ((m.rivals field).foldl erase m).insert field v

/-- The message with further elements in a list. -/
def append (field : NodeId) (items : List Value) : Message :=
  if items.isEmpty then m
  else m.insert field (.list ((((m.value? field).bind Value.list?).getD []) ++ items))

/-- An empty map with the types of a map field. -/
def emptyMap (slot : Slot) (key : Scalar) : MapValue :=
  .empty key slot.type (some m.type.snapshot)

/-- The message with a further entry in a map. An entry of the same key gives way. -/
def putEntry (field : NodeId) (slot : Slot) (keyType : Scalar) (key : Atom) (v : Value) : Message :=
  match m.value? field with
  | none => m.insert field (.map ((m.emptyMap slot keyType).insert key v))
  | some (.map entries) => m.insert field (.map (MapValue.insert entries key v))
  | some _ => m

/-! ### Required fields and defaults -/

/-- The paths of the own fields that are required but absent. -/
def missingFields : List String :=
  let isMissing (field : NodeId) : Bool :=
    ((m.graph.field? field).any fun f => f.rule = .required) && (m.value? field).isNone
  ((m.graph.ownFields m.type.node).filter isMissing).map m.graph.fqn

/-- The message with the default of a field that is absent but should always be present. -/
def fill (field : NodeId) : Message :=
  let default := ((m.graph.field? field).filter FieldNode.isAlwaysPresent).bind FieldNode.default?
  match m.value? field, default with
  | none, some a => m.insert field (.atom a)
  | _, _ => m

/-- The message with the defaults of its own fields, if the settings ask for them. -/
def populate : Message :=
  if m.graph.settings.populateDefaults then (m.graph.ownFields m.type.node).foldl fill m else m

/-- A new message of a type. -/
def new (type : MessageType) : Message :=
  (empty type).populate

/-! ### Access by name -/

/-- The node of a field. -/
def node (name : String) : Except ValueError NodeId :=
  match m.type.field? name with
  | some field => .ok field
  | none => .error (.noSuchField m.type.fqn name)

/-- The value of a field that is present. -/
def get? (name : String) : Option Value :=
  (m.type.field? name).bind m.value?

/-- The field is present. -/
def has (name : String) : Bool :=
  (m.get? name).isSome

/-- The value that a field has when it is absent: its default, an empty list or map, or the zero
value. A message has none. -/
def absentValue? (field : NodeId) : Option Value := do
  let f ← m.graph.field? field
  if let some a := f.default? then return .atom a
  let slot ← m.graph.slot? field
  match slot.shape with
  | .single => (m.graph.zero? slot.type).map .atom
  | .list => some (.list [])
  | .map key => some (.map (m.emptyMap slot key))

/-- The value of a field, or the value that it has when it is absent. -/
def getOrDefault? (name : String) : Option Value := do
  let field ← m.type.field? name
  m.value? field <|> m.absentValue? field

/-- Sets a field, and clears the other fields of its oneof. -/
def set (name : String) (v : Value) : Except ValueError Message := do
  let field ← m.node name
  match m.graph.slot? field with
  | none => throw (.illegalValue name .unlinked)
  | some slot =>
    let v ← (m.type.snapshot.fitField slot v).mapError (.illegalValue name)
    return m.put field v

/-- Appends an element to a list. -/
def add (name : String) (v : Value) : Except ValueError Message := do
  let field ← m.node name
  match m.graph.slot? field with
  | none => throw (.illegalValue name .unlinked)
  | some slot =>
    unless slot.shape = .list do throw (.notRepeated name)
    let v ← (m.type.snapshot.fit slot.type v).mapError (.illegalValue name)
    return m.append field [v]

/-- Removes the value of a field. -/
def clear (name : String) : Except ValueError Message :=
  return m.erase (← m.node name)

/-- The map of a map field, and the message with that map in it: an absent map is put in empty. -/
def openMap (name : String) : Except ValueError (MapValue × Message) := do
  let field ← m.node name
  match m.graph.slot? field with
  | none => throw (.notAMap name)
  | some slot =>
    let .map key := slot.shape | throw (.notAMap name)
    match m.value? field with
    | none => return (m.emptyMap slot key, m.insert field (.map (m.emptyMap slot key)))
    | some (.map entries) => return (entries, m)
    | some _ => throw (.notAMap name)

/-- Changes the value of a field that is present, as `f` says. The result is not checked. -/
def update? (name : String) (f : Value → Option Value) : Option Message := do
  let field ← m.type.field? name
  return m.insert field (← f (← m.value? field))

/-- The name of the field of a oneof that is present. -/
def whichOneof? (oneof : String) : Option String := do
  let content ← m.graph.oneof? (← m.graph.child? m.type.node oneof)
  let field ← content.fields.find? fun f => (m.value? f).isSome
  return m.graph.name field

/-- The fields that are present: own fields in order of declaration, then extensions by number. -/
def fields : List (String × Value) :=
  m.type.arrange m.entries

/-- A new message in which fields are set one after the other. -/
def ofFields (type : MessageType) (fields : List (String × Value)) : Except ValueError Message :=
  fields.foldlM (fun m (name, v) => m.set name v) (new type)

end Message

end Protobuf

import Protobuf.Graph.Field
import Protobuf.Registry.Error

/-!
# Looking up references

A graph is linked by looking up what every field, extension and method refers to. The references
of a node are judged by the declarations alone, never by what an earlier linking has found, and
nothing is kept unless all of them can be looked up.

## Main definitions

* `Graph.linkField` — type, key type, packing and default of a field.
* `Graph.linkExtension` — the message that an extension adds to.
* `Graph.linkMethod` — the messages of a method.
* `Graph.link` — the graph with all references looked up.
-/

namespace Protobuf.Graph

variable (g : Graph)

/-- The type that a field names: a scalar type by its keyword, else a message or an enum that the
path refers to. -/
def linkType (label : String) (id : NodeId) (f : FieldNode) : Except SchemaError FieldType :=
  match Scalar.ofName? f.typeName with
  | some s => .ok (.scalar s)
  | none =>
    match g.resolve? (g.scopeOf id) f.typeName true with
    | none => .error (.reference (.unresolved f.typeName label))
    | some target =>
      match g.kind target with
      | .message m => .ok (if m.isGroup then .group target else .message target)
      | .enumeration _ => .ok (.enumeration target)
      | _ => .error (.reference (.wrongKind f.typeName label "message or enum"))

/-- The key type that a field names. A map has to have one. -/
def linkKeyType (label : String) (f : FieldNode) : Except SchemaError (Option Scalar) :=
  match f.keyTypeName with
  | some name =>
    match (Scalar.ofName? name).filter Scalar.isMapKey with
    | some s => .ok (some s)
    | none => .error (.definition (.invalidMapKey label name))
  | none =>
    if f.rule = .map then .error (.definition (.invalidMapKey label "")) else .ok none

/-- The values of a field share one key. An option says so, and `proto3` does without one; only a
repeated field of a packable type can follow. -/
def linkPacked (label : String) (f : FieldNode) (type : FieldType) : Except SchemaError Bool :=
  let possible := f.rule = .repeated ∧ type.isPackable
  match f.options.get? "packed" with
  | none => .ok (f.dialect = .proto3 ∧ possible)
  | some (.bool wanted) => .ok (wanted ∧ possible)
  | some found => .error (.definition (.packedNotBool label found))

/-- The atom that a constant writes. -/
def constantAtom? : Constant → Option Atom
  | .int value => some (.i64 value.toInt64)
  | .uint value => some (.u64 value.toUInt64)
  | .float bits => some (.f64 bits)
  | .str text => some (.string text)
  | .bool value => some (.bool value)
  | .ident _ => none
  | .aggregate _ => none

/-- The number of the enum value that a constant gives by name or by number. -/
def constantEnumId? (enumeration : NodeId) : Constant → Option Int32
  | .ident name => g.enumId? enumeration name
  | .int value =>
    if value ∈ IntRange.int32 ∧ g.enumHas enumeration value.toInt32 then some value.toInt32
    else none
  | _ => none

/-- The default that a constant gives to a field of a type. -/
def explicitDefault (f : FieldNode) (type : FieldType) (constant : Constant) :
    Except DefaultFault Atom :=
  if f.dialect = .proto3 then .error .notAllowed
  else if f.rule = .repeated ∨ f.rule = .map then .error .repeated
  else
    match type with
    | .enumeration e =>
      match g.constantEnumId? e constant with
      | some id => .ok (.enumeration id)
      | none => .error (.noEnumValue constant (g.fqn e))
    | .scalar s =>
      match constantAtom? constant with
      | some a => (s.coerce a).mapError .unfit
      | none => .error (.noScalar constant s)
    | .message _ => .error .message
    | .group _ => .error .message

/-- The default of a field: the one that an option gives, else the zero value if the field is
present implicitly. -/
def linkDefault (label : String) (f : FieldNode) (type : FieldType) :
    Except SchemaError (Option Atom) :=
  match f.options.get? "default" with
  | some constant =>
    ((g.explicitDefault f type constant).map some).mapError
      fun fault => .definition (.invalidDefault label fault)
  | none => .ok (if f.rule = .implicit ∧ f.oneof.isNone then g.zero? type else none)

/-- What the texts in the declaration of a field refer to. -/
def linkField (id : NodeId) (f : FieldNode) : Except SchemaError FieldLink := do
  let label := g.fqn id
  let type ← g.linkType label id f
  let keyType ← linkKeyType label f
  let packed ← linkPacked label f type
  let default ← g.linkDefault label f type
  return { type, keyType, packed, default }

/-- The path is that of an option type of the language itself, which need not be defined. -/
def isDescriptorType (path : String) : Bool :=
  (Path.unanchored path).startsWith "google.protobuf."

/-- The message that an extension adds its field to, none for an option type that is not defined,
and the extensions found so far together with this one. -/
def linkExtension (id : NodeId) (e : ExtensionNode) (found : List ExtensionEntry) :
    Except SchemaError (Option NodeId × List ExtensionEntry) := do
  let label := g.fqn id
  match g.resolve? (g.scopeOf id) e.extendee true with
  | none =>
    if isDescriptorType e.extendee then return (none, found)
    throw (.reference (.unresolved e.extendee label))
  | some target =>
    let some m := g.message? target | throw (.definition (.notExtendable (g.fqn target)))
    let some f := g.field? e.field | return (none, found)
    unless m.acceptsExtension f.id do
      throw (.definition (.extensionOutOfRange (g.fqn target) label f.id))
    if (g.ownFields target).any (g.hasFieldId f.id) ∨
        found.any (fun x => x.target = target ∧ x.id = f.id) then
      throw (.definition (.duplicateFieldId (g.fqn target) f.id))
    return (some target, found ++ [⟨target, f.id, e.field⟩])

/-- The message that a method names. -/
def linkMessage (id : NodeId) (name : String) : Except SchemaError NodeId :=
  match g.resolve? (g.scopeOf id) name true with
  | none => .error (.reference (.unresolved name (g.fqn id)))
  | some target =>
    if (g.message? target).isSome then .ok target
    else .error (.reference (.wrongKind name (g.fqn id) "message"))

/-- The messages that a method names. -/
def linkMethod (id : NodeId) (m : MethodNode) : Except SchemaError (NodeId × NodeId) := do
  let request ← g.linkMessage id m.requestName
  let response ← g.linkMessage id m.responseName
  return (request, response)

/-- The content of a node with its references looked up, and the extensions found so far. -/
def linkNode (found : List ExtensionEntry) (id : NodeId) :
    Except SchemaError (NodeKind × List ExtensionEntry) := do
  match g.kind id with
  | .field f => return (.field { f with link := some (← g.linkField id f) }, found)
  | .extension e =>
    let (target, found) ← g.linkExtension id e found
    return (.extension { e with target }, found)
  | .method m => return (.method { m with link := some (← g.linkMethod id m) }, found)
  | kind => return (kind, found)

/-- The graph with all references looked up, or the first one, by number of the node, that cannot
be. -/
def link : Except SchemaError Graph := do
  let (nodes, extensions) ← (List.range g.size).foldlM (fun (nodes, found) id => do
    let (kind, found) ← g.linkNode found id
    return (nodes.push { g.node id with kind }, found)) ((#[] : Array Node), [])
  return { g with nodes, extensions }

end Protobuf.Graph

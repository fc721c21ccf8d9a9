import Protobuf.Graph.Field
import Protobuf.Registry.Error
import Protobuf.Text.CamelCase

/-!
# Adding definitions to a graph

Declarations become nodes. What can be judged without looking up references is checked on the way:
names and field numbers are unique, numbers are in range, the members of oneofs are single. A
declaration is added node by node, so when one is refused the nodes before it stay.

## Main definitions

* `Graph.add` — adds a node below another one.
* `GraphEdit` — an action that adds nodes and may be refused midway.
* `GraphEdit.createMessage`, `GraphEdit.createEnum`, `GraphEdit.createService`,
  `GraphEdit.createExtendBlock` — add the nodes of a declaration.
-/

namespace Protobuf

/-- The content of a node after a node of another kind has been added below it: messages keep lists
of their fields and oneofs. -/
def NodeKind.adopt (parent : NodeKind) (child : NodeId) (kind : NodeKind) : NodeKind :=
  match parent, kind with
  | .message m, .field _ => .message { m with fields := m.fields ++ [child] }
  | .message m, .oneof _ => .message { m with oneofs := m.oneofs ++ [child] }
  | other, _ => other

/-- Adds a node below `parent`. Below a node with a scope the name has to be new, and below a
message the number of a field as well. -/
def Graph.add (g : Graph) (parent : NodeId) (name : String) (kind : NodeKind) :
    Except DefinitionError (NodeId × Graph) := do
  if (g.child? parent name).isSome then
    throw (.duplicateName (g.scopeName parent) name)
  if let .field f := kind then
    if (g.ownFields parent).any (g.hasFieldId f.id) then
      throw (.duplicateFieldId (g.fqn parent) f.id)
  let id := g.size
  let g := { g with nodes := g.nodes.push ⟨name, some parent, kind⟩ }
  let link (k : NodeKind) :=
    (k.adopt id kind).mapScope fun s => { s with children := s.children ++ [id] }
  return (id, g.mapKind parent link)

/-- An action that adds nodes to a graph. A refused action leaves the nodes it has added. -/
abbrev GraphEdit (α : Type) := ExceptT DefinitionError (StateM Graph) α

namespace GraphEdit

/-- Adds a node below `parent`. -/
def add (parent : NodeId) (name : String) (kind : NodeKind) : GraphEdit NodeId := do
  match (← get).add parent name kind with
  | .ok (id, g) => set g; return id
  | .error e => throw e

/-- Field numbers run from one up, and a band of them is set apart. -/
def checkFieldId (label : String) (id : UInt32) : GraphEdit Unit := do
  if id < 1 ∨ maxFieldId < id then throw (.idOutOfRange label id)
  if 19000 ≤ id ∧ id ≤ 19999 then throw (.reservedId label id)

/-- The name of the node of a field. -/
def fieldName (declared : String) : GraphEdit String := do
  return if (← get).settings.camelCase then Text.camelCase declared else declared

/-- The oneof that a field names, which has to be one of its message. -/
def oneofOf (message : NodeId) (decl : FieldDecl) (label : String) : GraphEdit (Option NodeId) := do
  let some name := decl.oneof | return none
  let g ← get
  let some oneof := (g.child? message name).filter fun o => (g.oneof? o).isSome
    | throw (.unknownOneof name label)
  if decl.rule = .repeated ∨ decl.rule = .map then throw (.repeatedInOneof (g.fqn oneof) label)
  return some oneof

/-- The content of the node of a field. -/
def fieldNode (decl : FieldDecl) (dialect : Dialect) (oneof extension : Option NodeId) :
    FieldNode :=
  { rule := decl.rule, typeName := decl.typeName, keyTypeName := decl.keyType, id := decl.id,
    options := decl.options, oneof, declaredName := decl.name, dialect, extension }

/-- Adds a field of its own to a message. -/
def createField (message : NodeId) (decl : FieldDecl) : GraphEdit Unit := do
  let g ← get
  let label := s!"{g.fqn message}.{decl.name}"
  checkFieldId label decl.id
  if (g.message? message).any (·.acceptsExtension decl.id) then
    throw (.idInExtensionRange (g.fqn message) label decl.id)
  let dialect := g.dialectOf message
  if decl.rule = .required ∧ dialect = .proto3 then
    throw (.requiredInProto3 (g.fqn message) decl.name)
  let oneof ← oneofOf message decl label
  let id ← add message (← fieldName decl.name) (.field (fieldNode decl dialect oneof none))
  if let some o := oneof then
    modify fun g => g.mapKind o fun
      | .oneof content => .oneof { content with fields := content.fields ++ [id] }
      | other => other

/-- Adds a oneof, without members yet. -/
def createOneof (message : NodeId) (decl : OneofDecl) : GraphEdit Unit := do
  let _ ← add message decl.name (.oneof { options := decl.options })

variable (dialect : Dialect)

/-- Adds an enum with its values. -/
def createEnum (parent : NodeId) (decl : EnumDecl) : GraphEdit Unit := do
  let g ← get
  if let some existing := g.child? parent decl.name then
    throw (.enumConflict (g.fqn existing))
  let id ← add parent decl.name (.enumeration { options := decl.options, dialect })
  decl.values.forM fun value => do
    let _ ← add id value.name (.enumValue value.id value.options)

/-- Adds a service with its methods. -/
def createService (parent : NodeId) (decl : ServiceDecl) : GraphEdit Unit := do
  let id ← add parent decl.name (.service { options := decl.options, dialect })
  decl.methods.forM fun method => do
    let _ ← add id method.name (.method
      { requestName := method.request, responseName := method.response,
        requestStream := method.requestStream, responseStream := method.responseStream,
        options := method.options })

/-- Adds a field of an extension block: a node for the extension, which can be found by name, and
below it the node of the field. -/
def createExtension (parent : NodeId) (extendee : String) (decl : FieldDecl) :
    GraphEdit Unit := do
  let g ← get
  checkFieldId s!"{g.fqn parent}.{decl.name}" decl.id
  let name ← fieldName decl.name
  let extension ← add parent name (.extension { extendee, field := g.size + 1 })
  let _ ← add extension name (.field (fieldNode decl dialect none (some extension)))

mutual

/-- Adds a message with everything below it. -/
def createMessage (parent : NodeId) : MessageDecl → GraphEdit Unit
  | ⟨name, isGroup, fields, oneofs, enums, messages, blocks, options, ranges, reserved, _⟩ => do
    let scope : Scope := { options, dialect }
    let id ← add parent name
      (.message { scope, extensionRanges := ranges, reserved, isGroup })
    oneofs.forM (createOneof id)
    enums.forM (createEnum dialect id)
    createMessages id messages
    fields.forM (createField id)
    createExtendBlocks id blocks

/-- Adds messages in their order. -/
def createMessages (parent : NodeId) : List MessageDecl → GraphEdit Unit
  | [] => pure ()
  | decl :: more => do
    createMessage parent decl
    createMessages parent more

/-- Adds an extension block: the bodies of its groups, then its fields. -/
def createExtendBlock (parent : NodeId) : ExtendDeclOf MessageDecl → GraphEdit Unit
  | ⟨extendee, fields, messages, _⟩ => do
    createMessages parent messages
    fields.forM (createExtension dialect parent extendee)

/-- Adds extension blocks in their order. -/
def createExtendBlocks (parent : NodeId) : List (ExtendDeclOf MessageDecl) → GraphEdit Unit
  | [] => pure ()
  | block :: more => do
    createExtendBlock parent block
    createExtendBlocks parent more

end

/-- Adds a definition. -/
def create (parent : NodeId) : Definition → GraphEdit Unit
  | .message decl => createMessage dialect parent decl
  | .enumeration decl => createEnum dialect parent decl
  | .service decl => createService dialect parent decl
  | .extension decl => createExtendBlock dialect parent decl

end GraphEdit

end Protobuf

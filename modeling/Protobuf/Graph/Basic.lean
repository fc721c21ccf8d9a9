import Protobuf.Atom
import Protobuf.Schema.Decl

/-!
# The graph of definitions

All definitions that belong together are nodes of one graph and are known by their numbers. Nodes
are only ever added, so a number keeps its meaning. Every node but the root has a parent, which
was there before it; packages, messages, enums and services list the nodes below them in order of
declaration.

A field or a method names its types as text. What the text refers to is kept beside it, as a link
that is missing until all references of the graph have been looked up.

## Main definitions

* `Node`, `NodeKind` and the contents of the kinds.
* `Graph` — the nodes, the extensions of messages, and the settings in force.
* `Graph.node`, `Graph.child?`, `Graph.message?`, `Graph.field?` — access by number and name.

## Implementation notes

Access by number is total: a number that no node has gives an empty package without a parent.
-/

namespace Protobuf

/-- The number of a node. -/
abbrev NodeId := Nat

/-- How fields are named and how messages begin. -/
structure Settings where
  /-- Field names of several words are joined. -/
  camelCase : Bool := false
  /-- A new or decoded message has the defaults of fields that are always there. -/
  populateDefaults : Bool := true
  deriving DecidableEq, Repr, Inhabited

/-- The type of a field. -/
inductive FieldType where
  | scalar (s : Scalar)
  | enumeration (node : NodeId)
  | message (node : NodeId)
  /-- A message between a pair of group tags. -/
  | group (node : NodeId)
  deriving DecidableEq, Repr, Inhabited

namespace FieldType

/-- The wire type of a single value. -/
def wireType : FieldType → WireType
  | scalar s => s.wireType
  | enumeration _ => .varint
  | message _ => .lengthDelimited
  | group _ => .startGroup

/-- Many values of the type may share one key. -/
def isPackable : FieldType → Bool
  | scalar s => s.isPackable
  | enumeration _ => true
  | message _ | group _ => false

/-- The message that values of the type are. -/
def message? : FieldType → Option NodeId
  | message node | group node => some node
  | scalar _ | enumeration _ => none

/-- Values of the type are messages. -/
def isMessage (t : FieldType) : Bool :=
  t.message?.isSome

/-- A type as it is shown for inspection. -/
def inspect : FieldType → String
  | scalar s => s!"Scalar({s.inspect})"
  | enumeration node => s!"Enum(NodeId({node}))"
  | message node => s!"Message(NodeId({node}))"
  | group node => s!"Group(NodeId({node}))"

end FieldType

/-- What a package, a message, an enum and a service have in common: nodes below them. -/
structure Scope where
  children : List NodeId := []
  options : Options := {}
  dialect : Dialect := .proto2
  deriving Repr, Inhabited

/-- The content of a message node. -/
structure MessageNode where
  scope : Scope
  /-- The fields of its own, in order of declaration. -/
  fields : List NodeId := []
  oneofs : List NodeId := []
  extensionRanges : List (UInt32 × UInt32) := []
  reserved : List Reserved := []
  isGroup : Bool := false
  deriving Repr, Inhabited

/-- The number is open for extensions. -/
def MessageNode.acceptsExtension (m : MessageNode) (id : UInt32) : Bool :=
  m.extensionRanges.any fun (lo, hi) => lo ≤ id && id ≤ hi

/-- What the texts in the declaration of a field refer to. -/
structure FieldLink where
  type : FieldType
  /-- The key type of a map. -/
  keyType : Option Scalar
  /-- The values share one key. -/
  packed : Bool
  default : Option Atom
  deriving DecidableEq, Repr, Inhabited

/-- The content of a field node. -/
structure FieldNode where
  rule : Rule
  typeName : String
  keyTypeName : Option String
  id : UInt32
  options : Options
  oneof : Option NodeId
  /-- The name as declared, before words are joined. -/
  declaredName : String
  dialect : Dialect
  /-- The node of the extension that the field belongs to. -/
  extension : Option NodeId
  link : Option FieldLink := none
  deriving Repr, Inhabited

namespace FieldNode

/-- The type of the field, once it is known. -/
def type? (f : FieldNode) : Option FieldType :=
  f.link.map FieldLink.type

/-- The default of the field. -/
def default? (f : FieldNode) : Option Atom :=
  f.link.bind FieldLink.default

/-- Leaving out a zero value of the field makes no difference: it is single, is no message and
belongs to no oneof. -/
def hasImplicitPresence (f : FieldNode) : Bool :=
  f.rule = .implicit && f.oneof.isNone && !f.type?.any FieldType.isMessage

/-- The field is never without a value, as far as it has a default. -/
def isAlwaysPresent (f : FieldNode) : Bool :=
  f.rule = .required || f.hasImplicitPresence

end FieldNode

/-- The content of a oneof node. -/
structure OneofNode where
  fields : List NodeId := []
  options : Options := {}
  deriving Repr, Inhabited

/-- The content of an extension node. -/
structure ExtensionNode where
  extendee : String
  /-- The field that is added. -/
  field : NodeId
  /-- The message that the field is added to, once it is known. -/
  target : Option NodeId := none
  deriving Repr, Inhabited

/-- The content of a method node. -/
structure MethodNode where
  requestName : String
  responseName : String
  requestStream : Bool
  responseStream : Bool
  options : Options
  /-- The messages that the two names refer to, once they are known. -/
  link : Option (NodeId × NodeId) := none
  deriving Repr, Inhabited

/-- What a node is. -/
inductive NodeKind where
  | package (scope : Scope)
  | message (content : MessageNode)
  | field (content : FieldNode)
  | oneof (content : OneofNode)
  | enumeration (scope : Scope)
  | enumValue (id : Int32) (options : Options)
  | extension (content : ExtensionNode)
  | service (scope : Scope)
  | method (content : MethodNode)
  deriving Repr, Inhabited

namespace NodeKind

/-- The name of a kind. -/
def name : NodeKind → String
  | package _ => "namespace"
  | message _ => "message"
  | field _ => "field"
  | oneof _ => "oneof"
  | enumeration _ => "enum"
  | enumValue .. => "enum value"
  | extension _ => "extension"
  | service _ => "service"
  | method _ => "method"

/-- The scope of a node that has nodes below it which are found by name. -/
def scope? : NodeKind → Option Scope
  | package s => some s
  | message m => some m.scope
  | enumeration s => some s
  | service s => some s
  | _ => none

/-- The node has a scope. -/
def hasScope (k : NodeKind) : Bool :=
  k.scope?.isSome

/-- Changes the scope of a node that has one. -/
def mapScope (f : Scope → Scope) : NodeKind → NodeKind
  | package s => package (f s)
  | message m => message { m with scope := f m.scope }
  | enumeration s => enumeration (f s)
  | service s => service (f s)
  | other => other

end NodeKind

/-- A definition, or a part of one. -/
structure Node where
  name : String
  parent : Option NodeId
  kind : NodeKind
  deriving Repr

/-- A package without name and parent. -/
def Node.root : Node :=
  ⟨"", none, .package {}⟩

instance : Inhabited Node := ⟨.root⟩

/-- A field that is added to the message `target` under the number `id`. -/
structure ExtensionEntry where
  target : NodeId
  id : UInt32
  field : NodeId
  deriving DecidableEq, Repr, Inhabited

/-- All definitions that belong together. -/
structure Graph where
  nodes : Array Node
  extensions : List ExtensionEntry
  settings : Settings
  deriving Inhabited

namespace Graph

/-- The graph that has a root only. -/
def empty (settings : Settings) : Graph :=
  ⟨#[.root], [], settings⟩

/-- The number of the root. -/
def root : NodeId := 0

variable (g : Graph)

/-- How many nodes there are, the root included. -/
def size : Nat :=
  g.nodes.size

/-- There is no node but the root. -/
def isEmpty : Bool :=
  g.size ≤ 1

/-- The node with a number. -/
def node (id : NodeId) : Node :=
  g.nodes.getD id .root

/-- The name of a node. -/
def name (id : NodeId) : String :=
  (g.node id).name

/-- The kind of a node. -/
def kind (id : NodeId) : NodeKind :=
  (g.node id).kind

/-- The parent of a node. -/
def parent? (id : NodeId) : Option NodeId :=
  (g.node id).parent

/-- The scope of a node that has one. -/
def scope? (id : NodeId) : Option Scope :=
  (g.kind id).scope?

/-- The nodes right below a node. -/
def children (id : NodeId) : List NodeId :=
  (g.scope? id).elim [] Scope.children

/-- The node of a given name right below a node. -/
def child? (parent : NodeId) (name : String) : Option NodeId :=
  (g.children parent).find? fun c => g.name c = name

/-- The message that a node is. -/
def message? (id : NodeId) : Option MessageNode :=
  match g.kind id with
  | .message m => some m
  | _ => none

/-- The field that a node is. -/
def field? (id : NodeId) : Option FieldNode :=
  match g.kind id with
  | .field f => some f
  | _ => none

/-- The oneof that a node is. -/
def oneof? (id : NodeId) : Option OneofNode :=
  match g.kind id with
  | .oneof o => some o
  | _ => none

/-- The dialect of the file that a node comes from, where it is kept: with scopes and fields. -/
def dialectOf (id : NodeId) : Dialect :=
  match g.kind id with
  | .field f => f.dialect
  | kind => kind.scope?.elim .proto2 Scope.dialect

/-- Changes the kind of a node. -/
def mapKind (id : NodeId) (f : NodeKind → NodeKind) : Graph :=
  { g with nodes := g.nodes.modify id fun n => { n with kind := f n.kind } }

end Graph

end Protobuf

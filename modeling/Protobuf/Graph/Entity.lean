import Protobuf.Graph.Field

/-!
# Types of a linked graph

Once the references of a graph have been looked up, it is kept as a snapshot that no longer
changes. A node of a snapshot is a type, and that is what users of definitions see: a package, a
message, an enum or a service.

## Main definitions

* `Snapshot` — a linked graph that types belong to.
* `MessageType`, `EnumType`, `PackageType`, `ServiceType` — a snapshot and a node in it.
* `Entity` — any of them; `Entity.get?` and `Entity.find?` go down from it.
* `MessageType.arrange` — things kept by field, in the order of the fields.
-/

namespace Protobuf

/-- A linked graph. Types are the same only if they come from the same snapshot, so each snapshot
has a stamp by which it is told from all others. -/
structure Snapshot where
  graph : Graph
  stamp : Nat
  deriving Inhabited

/-- A node of a snapshot. -/
structure Handle where
  snapshot : Snapshot
  node : NodeId
  deriving Inhabited

namespace Handle

variable (h : Handle)

/-- The graph that the node belongs to. -/
def graph : Graph :=
  h.snapshot.graph

/-- The name of the node. -/
def name : String :=
  h.graph.name h.node

/-- The path of the node. -/
def fqn : String :=
  h.graph.fqn h.node

/-- The options of the node. -/
def options : Options :=
  (h.graph.scope? h.node).elim {} Scope.options

end Handle

/-- A package. -/
structure PackageType extends Handle

/-- A message type. -/
structure MessageType extends Handle

/-- An enum. -/
structure EnumType extends Handle

/-- A service. -/
structure ServiceType extends Handle

instance : Inhabited MessageType := ⟨⟨default⟩⟩

/-- The names of the nodes right below a package. -/
def PackageType.names (p : PackageType) : List String :=
  (p.graph.children p.node).map p.graph.name

/-- The values of an enum, in order of declaration. -/
def EnumType.values (e : EnumType) : List (String × Int32) :=
  e.graph.enumValues e.node

/-- An enum as it is shown for inspection. -/
def EnumType.inspect (e : EnumType) : String :=
  let values := e.values.map fun (name, id) => s!"{Text.quoted name}: {id.toInt}"
  "\x7b" ++ ", ".intercalate values ++ "\x7d"

namespace MessageType

variable (t : MessageType)

/-- The types are the same message of the same snapshot. -/
def sameAs (u : MessageType) : Bool :=
  t.snapshot.stamp = u.snapshot.stamp && t.node = u.node

/-- The type of another message of the same snapshot. -/
def sibling (node : NodeId) : MessageType :=
  ⟨⟨t.snapshot, node⟩⟩

/-- A message type as it is shown for inspection. -/
def inspect : String :=
  s!"MessageType({Text.quoted t.fqn})"

/-- The type is the body of a group. -/
def isGroup : Bool :=
  (t.graph.message? t.node).any MessageNode.isGroup

/-- The field of a name. -/
def field? (name : String) : Option NodeId :=
  t.graph.fieldByName? t.node name

/-- The field of a number. -/
def fieldById? (id : UInt32) : Option NodeId :=
  t.graph.fieldById? t.node id

/-- The names of the own fields, in order of declaration. -/
def fieldNames : List String :=
  (t.graph.ownFields t.node).map t.graph.name

/-- The names of the extensions, by number. -/
def extensionNames : List String :=
  (t.graph.extensionsOf t.node).map t.graph.fqn

/-- Things that are kept by field, in the order of the fields and with their labels: own fields
in order of declaration, then extensions by number. -/
def arrange {α : Type} (entries : List (NodeId × α)) : List (String × α) :=
  (t.graph.allFields t.node).filterMap fun field =>
    (Keyed.find? Prod.fst field entries).map fun entry => (t.graph.fieldLabel field, entry.2)

end MessageType

/-- A method of a service. -/
structure Method where
  name : String
  request : MessageType
  response : MessageType
  requestStream : Bool
  responseStream : Bool
  options : Options

/-- The methods of a service, in order of declaration. -/
def ServiceType.methods (s : ServiceType) : List Method :=
  (s.graph.children s.node).filterMap fun c =>
    match s.graph.kind c with
    | .method m => m.link.map fun (request, response) =>
      { name := s.graph.name c, request := ⟨⟨s.snapshot, request⟩⟩,
        response := ⟨⟨s.snapshot, response⟩⟩, requestStream := m.requestStream,
        responseStream := m.responseStream, options := m.options }
    | _ => none

/-- The method of a name. -/
def ServiceType.method? (s : ServiceType) (name : String) : Option Method :=
  s.methods.find? fun m => m.name = name

/-- What a registry hands out. -/
inductive Entity where
  | package (p : PackageType)
  | message (t : MessageType)
  | enumeration (e : EnumType)
  | service (s : ServiceType)

namespace Entity

/-- What a node of a snapshot is; a node without a scope is nothing that is handed out. -/
def ofNode? (snapshot : Snapshot) (node : NodeId) : Option Entity :=
  match snapshot.graph.kind node with
  | .package _ => some (.package ⟨⟨snapshot, node⟩⟩)
  | .message _ => some (.message ⟨⟨snapshot, node⟩⟩)
  | .enumeration _ => some (.enumeration ⟨⟨snapshot, node⟩⟩)
  | .service _ => some (.service ⟨⟨snapshot, node⟩⟩)
  | _ => none

/-- The message type that an entity is. -/
def message? : Entity → Option MessageType
  | message t => some t
  | _ => none

/-- The service that an entity is. -/
def service? : Entity → Option ServiceType
  | service s => some s
  | _ => none

/-- The node of an entity. -/
def handle : Entity → Handle
  | package p => p.toHandle
  | message t => t.toHandle
  | enumeration e => e.toHandle
  | service s => s.toHandle

/-- What is right below an entity under a name. -/
def get? (e : Entity) (name : String) : Option Entity :=
  (e.handle.graph.child? e.handle.node name).bind (ofNode? e.handle.snapshot)

/-- What is below an entity at a dotted path. -/
def find? (e : Entity) (path : String) : Option Entity :=
  (Path.parts path).foldlM get? e

/-- An entity as it is shown for inspection. -/
def inspect : Entity → String
  | package p => s!"Namespace(NamespaceType({Text.quoted p.fqn}))"
  | message t => s!"Message({t.inspect})"
  | enumeration e => s!"Enum({e.inspect})"
  | service s => s!"Service(ServiceType({Text.quoted s.fqn}))"

end Entity

end Protobuf

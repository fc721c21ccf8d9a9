import Protobuf.Graph.Basic
import Protobuf.Text.Path

/-!
# Names in a graph

A reference is looked up from the inside out: the whole path is tried below the scope in which
the reference stands, then below each scope around it, and the innermost match wins. A path with
a leading dot is looked up at the root alone.

## Main definitions

* `Graph.fqn` — the path of a node from the root.
* `Graph.resolve?` — the node that a path refers to from within a scope.
* `Graph.lookup?` — the node at a path from the root.
* `Graph.shortName` — the shortest path by which a node can be referred to.
-/

namespace Protobuf.Graph

variable (g : Graph)

/-- A node and the nodes around it from the inside out, at most `fuel` of them. -/
def ancestorsWithin : Nat → NodeId → List NodeId
  | 0, _ => []
  | fuel + 1, id =>
    id :: match g.parent? id with
      | some parent => ancestorsWithin fuel parent
      | none => []

/-- A node and the nodes around it, from the inside out. A parent has a smaller number than its
children, so there are no more of them than the number says. -/
def ancestors (id : NodeId) : List NodeId :=
  g.ancestorsWithin (id + 1) id

/-- The names on the way from the root to a node, that of the root left out. -/
def pathTo (id : NodeId) : List String :=
  (((g.ancestors id).filter fun n => (g.parent? n).isSome).map g.name).reverse

/-- The node by which a node is known: the field of an extension goes by the extension. -/
def representative (id : NodeId) : NodeId :=
  ((g.field? id).bind FieldNode.extension).getD id

/-- The path of a node from the root, with a leading dot. That of the root is empty. -/
def fqn (id : NodeId) : String :=
  String.join ((g.pathTo (g.representative id)).map ("." ++ ·))

/-- The path of a scope in messages, where the root is a dot. -/
def scopeName (id : NodeId) : String :=
  if id = root then "." else g.fqn id

/-- The scope in which the references of a node are looked up. -/
def scopeOf (id : NodeId) : NodeId :=
  (g.parent? (g.representative id)).getD root

/-- The node at a path below `start`. -/
def walk? (start : NodeId) (path : List String) : Option NodeId :=
  path.foldlM g.child? start

/-- The node at a path below `start`, which has to have a scope if `scopesOnly` is set. -/
def walkTo? (start : NodeId) (path : List String) (scopesOnly : Bool) : Option NodeId :=
  (g.walk? start path).filter fun n => !scopesOnly || (g.kind n).hasScope

/-- The node that a path refers to from within `scope`. References to types ask for nodes with a
scope. -/
def resolve? (scope : NodeId) (path : String) (scopesOnly : Bool) : Option NodeId :=
  let names := Path.parts (Path.unanchored path)
  if names.contains "" then none
  else if (Path.anchored? path).isSome then g.walkTo? root names scopesOnly
  else (g.ancestors scope).findSome? fun s => g.walkTo? s names scopesOnly

/-- The node at a path from the root; the leading dot may be left out. -/
def lookup? (path : String) : Option NodeId :=
  if path = "" ∨ path = "." then some root else g.resolve? root path false

/-- The shortest path that refers to `target` from within `scope`, and the path from the root if
no shorter one does. -/
def shortName (scope target : NodeId) : String :=
  let names := g.pathTo target
  let scopesOnly := (g.kind target).hasScope
  let candidates := (List.range names.length).reverse.map fun n => Path.join (names.drop n)
  (candidates.find? fun c => g.resolve? scope c scopesOnly = some target).getD (g.fqn target)

end Protobuf.Graph

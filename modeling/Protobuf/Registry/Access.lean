import Protobuf.Registry.Basic

/-!
# What a registry hands out

Types are taken from the snapshot of a registry, by their paths from the root.

## Main definitions

* `Registry.build` — the package, message, enum or service at a path.
* `Registry.messageType`, `Registry.enumType` — the same where one kind is asked for.
-/

namespace Protobuf

namespace Registry

variable (r : Registry)

/-- What is at a path from the root. -/
def build (path : String) : Except AccessError Entity :=
  match r.snapshot with
  | none => .error .unresolved
  | some snapshot =>
    match snapshot.graph.lookup? path with
    | none => .error (.notFound path)
    | some node =>
      match Entity.ofNode? snapshot node with
      | some e => .ok e
      | none => .error (.wrongKind path "namespace, message, enum or service")

/-- The message type at a path from the root. -/
def messageType (path : String) : Except AccessError MessageType := do
  match ← r.build path with
  | .message t => return t
  | _ => throw (.wrongKind path "message")

/-- The enum at a path from the root. -/
def enumType (path : String) : Except AccessError EnumType := do
  match ← r.build path with
  | .enumeration e => return e
  | _ => throw (.wrongKind path "enum")

end Registry

end Protobuf

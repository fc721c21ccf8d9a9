import Protobuf.Graph.Slot
import Protobuf.Proofs.Graph.Growth

/-!
# Nodes under other numbers

What a node is does not depend on the numbers by which other nodes go, but says which nodes are
meant. If the numbers are changed along a map, the kind of a node changes with them.

## Main definitions

* `NodeKind.rename` — a kind in which nodes go by other numbers.
-/

namespace Protobuf

variable (φ : NodeId → NodeId)

/-- A type in which nodes go by other numbers. -/
def FieldType.rename : FieldType → FieldType
  | scalar s => scalar s
  | enumeration node => enumeration (φ node)
  | message node => message (φ node)
  | group node => group (φ node)

/-- What a field refers to, where nodes go by other numbers. -/
def FieldLink.rename (l : FieldLink) : FieldLink :=
  { l with type := l.type.rename φ }

/-- A scope in which nodes go by other numbers. -/
def Scope.rename (s : Scope) : Scope :=
  { s with children := s.children.map φ }

/-- A message in which nodes go by other numbers. -/
def MessageNode.rename (m : MessageNode) : MessageNode :=
  { m with scope := m.scope.rename φ, fields := m.fields.map φ, oneofs := m.oneofs.map φ }

/-- A field in which nodes go by other numbers. -/
def FieldNode.rename (f : FieldNode) : FieldNode :=
  { f with
    oneof := f.oneof.map φ
    extension := f.extension.map φ
    link := f.link.map (FieldLink.rename φ) }

namespace NodeKind

/-- A kind in which nodes go by other numbers. -/
def rename : NodeKind → NodeKind
  | package s => package (s.rename φ)
  | message m => message (m.rename φ)
  | field f => field (f.rename φ)
  | oneof c => oneof { c with fields := c.fields.map φ }
  | enumeration s => enumeration (s.rename φ)
  | enumValue id options => enumValue id options
  | extension e => extension { e with field := φ e.field, target := e.target.map φ }
  | service s => service (s.rename φ)
  | method m => method { m with link := m.link.map (Prod.map φ φ) }

variable (k : NodeKind)

@[simp] theorem hasScope_rename : (k.rename φ).hasScope = k.hasScope := by
  cases k <;> rfl

@[simp] theorem isPackage_rename : (k.rename φ).isPackage = k.isPackage := by
  cases k <;> rfl

@[simp] theorem isMessage_rename : (k.rename φ).isMessage = k.isMessage := by
  cases k <;> rfl

@[simp] theorem isOneof_rename : (k.rename φ).isOneof = k.isOneof := by
  cases k <;> rfl

@[simp] theorem children_rename : (k.rename φ).children = k.children.map φ := by
  cases k <;> rfl

@[simp] theorem ownFields_rename : (k.rename φ).ownFields = k.ownFields.map φ := by
  cases k <;> rfl

@[simp] theorem ownOneofs_rename : (k.rename φ).ownOneofs = k.ownOneofs.map φ := by
  cases k <;> rfl

@[simp] theorem owner?_rename : (k.rename φ).owner? = k.owner?.map φ := by
  cases k <;> rfl

@[simp] theorem opens_rename (id : UInt32) : (k.rename φ).opens id = k.opens id := by
  cases k <;> rfl

theorem addMember_rename (id : NodeId) :
    (k.addMember id).rename φ = (k.rename φ).addMember (φ id) := by
  cases k <;> simp [addMember, rename]

/-- What a node becomes when another one is added below it does not depend on the numbers. -/
theorem adopt_rename (kind : NodeKind) (id : NodeId) :
    ((k.adopt id kind).mapScope fun s => { s with children := s.children ++ [id] }).rename φ =
      ((k.rename φ).adopt (φ id) (kind.rename φ)).mapScope fun s =>
        { s with children := s.children ++ [φ id] } := by
  cases k <;> cases kind <;> simp [adopt, mapScope, rename, MessageNode.rename, Scope.rename]

theorem mapOptions_rename (change : Options → Options) :
    (k.mapScope fun s => { s with options := change s.options }).rename φ =
      (k.rename φ).mapScope fun s => { s with options := change s.options } := by
  cases k <;> rfl

/-- Renaming twice is renaming once. -/
theorem rename_rename (ψ : NodeId → NodeId) : (k.rename φ).rename ψ = k.rename (ψ ∘ φ) := by
  cases k with
  | field f =>
    obtain ⟨_, _, _, _, _, _, _, _, _, _ | ⟨_ | _ | _ | _, _, _, _⟩⟩ := f <;>
      simp [rename, FieldNode.rename, FieldLink.rename, FieldType.rename]
  | method m => obtain ⟨_, _, _, _, _, _ | ⟨_, _⟩⟩ := m <;> rfl
  | _ => simp [rename, MessageNode.rename, Scope.rename]

theorem rename_id : k.rename id = k := by
  have hlink : ∀ l : FieldLink, l.rename id = l := by
    rintro ⟨_ | _ | _ | _, _, _, _⟩ <;> rfl
  have hscope : ∀ s : Scope, s.rename id = s := fun s => by rw [Scope.rename, List.map_id]
  have hfield : ∀ f : FieldNode, f.rename id = f := fun f => by
    have hid : FieldLink.rename id = id := funext hlink
    rw [FieldNode.rename, hid]
    simp
  cases k <;> simp [rename, MessageNode.rename, hscope, hfield]

end NodeKind

@[simp] theorem FieldType.isMessage_rename (t : FieldType) : (t.rename φ).isMessage = t.isMessage := by
  cases t <;> rfl

theorem FieldNode.hasImplicitPresence_rename (f : FieldNode) :
    (f.rename φ).hasImplicitPresence = f.hasImplicitPresence := by
  have htype : (f.rename φ).type?.any FieldType.isMessage = f.type?.any FieldType.isMessage := by
    cases hlink : f.link <;> simp [type?, rename, hlink, FieldLink.rename]
  have honeof : (f.rename φ).oneof.isNone = f.oneof.isNone := Option.isNone_map
  rw [hasImplicitPresence, hasImplicitPresence, htype, honeof]
  rfl

/-- A slot in which nodes go by other numbers. -/
def Slot.rename (s : Slot) : Slot :=
  { s with type := s.type.rename φ }

/-- An extension of a message, where nodes go by other numbers. -/
def ExtensionEntry.rename (e : ExtensionEntry) : ExtensionEntry :=
  { e with target := φ e.target, field := φ e.field }

/-- A node where all nodes go by other numbers. -/
def Node.rename (x : Node) : Node :=
  { x with parent := x.parent.map φ, kind := x.kind.rename φ }

namespace Node

theorem rename_root : root.rename φ = root :=
  rfl

theorem rename_rename (ψ : NodeId → NodeId) (x : Node) :
    (x.rename φ).rename ψ = x.rename (ψ ∘ φ) := by
  rw [rename, rename, rename, NodeKind.rename_rename, Option.map_map]

theorem rename_id (x : Node) : x.rename id = x := by
  rw [rename, NodeKind.rename_id, Option.map_id]
  rfl

end Node

end Protobuf

import Protobuf.Proofs.Graph.Step

/-!
# What growth leaves alone

Graphs only grow. A node that has been added stays what it was declared to be: what may still change
of it are the lists of the nodes below it, and what linking finds out. The rest is its face. When
something is defined below a node, all faces stay, and all lists of children but one.

The numbers of the fields of a message are judged once, when a field is added. Nothing that is added
later changes the verdict.

## Main definitions

* `NodeKind.face`, `Node.face` — what does not change of a node.
* `Graph.Grown` — the graph has grown below one node.
* `Graph.Admissible` — own fields have numbers that are theirs to have.
* `Graph.Enlarged` — the graph has grown below a node that lists what has been added there.

## Main results

* `Graph.grown_of_add` — adding a node is growth
* `Graph.Admissible.add` — a field may be added to a message if its number is admissible
-/

namespace Protobuf

namespace NodeKind

/-- The node is a package. -/
def isPackage : NodeKind → Bool
  | package _ => true
  | _ => false

/-- A node without the lists of what is below it, and without what linking finds out. -/
def face : NodeKind → NodeKind
  | package s => package { s with children := [] }
  | message m =>
    message { m with scope := { m.scope with children := [] }, fields := [], oneofs := [] }
  | field f => field f.unlinked
  | oneof c => oneof { c with fields := [] }
  | enumeration s => enumeration { s with children := [] }
  | enumValue id options => enumValue id options
  | extension e => extension { e with target := none }
  | service s => service { s with children := [] }
  | method m => method { m with link := none }

/-- The number is open for extensions of the node. -/
def opens (id : UInt32) : NodeKind → Bool
  | message m => m.acceptsExtension id
  | _ => false

theorem like_face (k : NodeKind) : k.face.Like k := by
  cases k <;> exact ⟨rfl, rfl, rfl, rfl, rfl, rfl, rfl⟩

/-- Nodes of one face are alike. -/
theorem like_of_face_eq {k k' : NodeKind} (h : k.face = k'.face) : k.Like k' := by
  have hk := like_face k
  rw [h] at hk
  have hk' := like_face k'
  exact ⟨hk.hasScope.symm.trans hk'.hasScope, hk.isMessage.symm.trans hk'.isMessage,
    hk.isField.symm.trans hk'.isField, hk.isOneof.symm.trans hk'.isOneof,
    hk.memberOf?.symm.trans hk'.memberOf?, hk.owned?.symm.trans hk'.owned?,
    hk.owner?.symm.trans hk'.owner?⟩

@[simp] theorem isPackage_face (k : NodeKind) : k.face.isPackage = k.isPackage := by
  cases k <;> rfl

@[simp] theorem opens_face (k : NodeKind) (id : UInt32) : k.face.opens id = k.opens id := by
  cases k <;> rfl

theorem face_adopt (k kind : NodeKind) (child : NodeId) : (k.adopt child kind).face = k.face := by
  cases k <;> cases kind <;> rfl

theorem face_mapChildren (k : NodeKind) (f : List NodeId → List NodeId) :
    (k.mapScope fun s => { s with children := f s.children }).face = k.face := by
  cases k <;> rfl

theorem face_addMember (k : NodeKind) (id : NodeId) : (k.addMember id).face = k.face := by
  cases k <;> rfl

theorem opens_mapScope (change : Scope → Scope) (k : NodeKind) (id : UInt32) :
    (k.mapScope change).opens id = k.opens id := by
  cases k <;> rfl

theorem hasScope_of_isPackage {k : NodeKind} (h : k.isPackage) : k.hasScope := by
  cases k <;> first | rfl | cases h

theorem isField_of_face_eq_field {k : NodeKind} {f : FieldNode} (h : k.face = (field f).face) :
    ∃ f', k = field f' ∧ f'.unlinked = f.unlinked := by
  cases k <;> first | exact ⟨_, rfl, field.inj h⟩ | cases h

end NodeKind

/-- A node without the lists of what is below it, and without what linking finds out. -/
def Node.face (x : Node) : Node :=
  { x with kind := x.kind.face }

namespace Graph

variable {g g' g'' : Graph}

theorem exists_scope_of_isPackage {k : NodeKind} (h : k.isPackage) : ∃ s, k = .package s := by
  cases k with
  | package s => exact ⟨s, rfl⟩
  | _ => cases h

/-- The nodes have the same face if they have the same name, parent, and kind. -/
theorem face_node_eq {n m : NodeId} (hname : g'.name n = g.name m)
    (hparent : g'.parent? n = g.parent? m) (hkind : (g'.kind n).face = (g.kind m).face) :
    (g'.node n).face = (g.node m).face := by
  show Node.mk (g'.name n) (g'.parent? n) (g'.kind n).face = _
  rw [hname, hparent, hkind]
  rfl

/-! ### Growth -/

/-- The graph has grown below `p` alone: the nodes that were there keep their faces, and all but `p`
list the same nodes. -/
structure Grown (g : Graph) (p : NodeId) (g' : Graph) : Prop where
  size : g.size ≤ g'.size
  settings : g'.settings = g.settings
  face : ∀ n < g.size, (g'.node n).face = (g.node n).face
  children : ∀ n < g.size, n ≠ p → g'.children n = g.children n

namespace Grown

variable {p : NodeId}

theorem refl (p : NodeId) : g.Grown p g :=
  ⟨Nat.le_refl _, rfl, fun _ _ => rfl, fun _ _ _ => rfl⟩

theorem name (h : g.Grown p g') {n : NodeId} (hn : n < g.size) : g'.name n = g.name n := by
  have hname := congrArg Node.name (h.face n hn)
  exact hname

theorem parent? (h : g.Grown p g') {n : NodeId} (hn : n < g.size) :
    g'.parent? n = g.parent? n := by
  have hparent := congrArg Node.parent (h.face n hn)
  exact hparent

theorem face_kind (h : g.Grown p g') {n : NodeId} (hn : n < g.size) :
    (g'.kind n).face = (g.kind n).face :=
  congrArg Node.kind (h.face n hn)

theorem like (h : g.Grown p g') {n : NodeId} (hn : n < g.size) : (g'.kind n).Like (g.kind n) :=
  NodeKind.like_of_face_eq (h.face_kind hn)

theorem isPackage (h : g.Grown p g') {n : NodeId} (hn : n < g.size) :
    (g'.kind n).isPackage = (g.kind n).isPackage := by
  rw [← NodeKind.isPackage_face, h.face_kind hn, NodeKind.isPackage_face]

/-- What grows below a node that was not there yet grows below the node under which that was added,
or below the same node once more. -/
theorem trans {c : NodeId} (h : g.Grown p g') (h' : g'.Grown c g'') (hc : c = p ∨ g.size ≤ c) :
    g.Grown p g'' := by
  have hlt : ∀ {n}, n < g.size → n < g'.size := fun hn => Nat.lt_of_lt_of_le hn h.size
  refine ⟨Nat.le_trans h.size h'.size, h'.settings.trans h.settings,
    fun n hn => (h'.face n (hlt hn)).trans (h.face n hn), fun n hn hne => ?_⟩
  have hnc : n ≠ c := by
    rcases hc with rfl | hle
    · exact hne
    · exact Nat.ne_of_lt (Nat.lt_of_lt_of_le hn hle)
  exact (h'.children n (hlt hn) hnc).trans (h.children n hn hne)

end Grown

/-- Adding a node is growth below its parent, which lists it if it has a scope. -/
theorem grown_of_add {parent id : NodeId} {name : String} {kind : NodeKind}
    (hparent : parent < g.size) (h : g.add parent name kind = .ok (id, g')) :
    id = g.size ∧ g.Planted parent name kind g' ∧ g.Grown parent g' := by
  obtain ⟨rfl, hplanted⟩ := planted_of_add hparent h
  obtain ⟨-, -, -, rfl⟩ := add_eq_ok.mp h
  refine ⟨rfl, hplanted, Nat.le_of_lt hplanted.lt_size, rfl, fun n hn => ?_, fun n hn hne => ?_⟩
  · have hne : n ≠ g.size := Nat.ne_of_lt hn
    refine face_node_eq ?_ ?_ ?_
    · rw [hplanted.names, if_neg hne]
    · rw [hplanted.parents, if_neg hne]
    · rw [kind_planted hparent, if_neg hne]
      split
      · rw [NodeKind.face_mapChildren _ (· ++ [g.size]), NodeKind.face_adopt]
      · rfl
  · rw [hplanted.children n (Nat.ne_of_lt hn), if_neg fun h => hne h.1]

/-- A oneof keeps its face when it gets a member, and nothing else changes at all. -/
theorem grown_addMember (p o id : NodeId) : g.Grown p (g.mapKind o (·.addMember id)) := by
  have hshape : g.SameShape (g.mapKind o (·.addMember id)) := sameShape_addMember o id
  refine ⟨Nat.le_of_eq hshape.size.symm, rfl, fun n _ => ?_, fun n _ _ => hshape.children n⟩
  refine face_node_eq (hshape.name n) (hshape.parent? n) ?_
  rw [kind_mapKind]
  split
  · exact NodeKind.face_addMember _ _
  · rfl

/-! ### Numbers of own fields -/

/-- The number may be given to a field: it is in range, and not in the band that is set apart. -/
def IsFieldNumber (id : UInt32) : Prop :=
  1 ≤ id ∧ id ≤ maxFieldId ∧ ¬(19000 ≤ id ∧ id ≤ 19999)

/-- The fields of messages have numbers that may be given to fields and that their messages do not
keep open for extensions. -/
def Admissible (g : Graph) : Prop :=
  ∀ m, ∀ n ∈ g.ownFields m,
    ∃ f, g.field? n = some f ∧ IsFieldNumber f.id ∧ (g.kind m).opens f.id = false

theorem admissible_empty (settings : Settings) : (empty settings).Admissible := by
  intro m n hn
  rw [ownFields_eq, kind_empty] at hn
  cases hn

/-- A field whose node has kept its face has kept its number. -/
theorem exists_field?_of_face {n : NodeId} {f : FieldNode} (hf : g.field? n = some f)
    (h : (g'.kind n).face = (g.kind n).face) : ∃ f', g'.field? n = some f' ∧ f'.id = f.id := by
  rw [field?_eq_some.mp hf] at h
  obtain ⟨f', hf', heq⟩ := NodeKind.isField_of_face_eq_field h
  have hid := congrArg FieldNode.id heq
  exact ⟨f', field?_eq_some.mpr hf', hid⟩

theorem Admissible.congr (hg : g.Admissible)
    (hfield : ∀ n f, g.field? n = some f → ∃ f', g'.field? n = some f' ∧ f'.id = f.id)
    (hopens : ∀ m id, (g'.kind m).opens id = (g.kind m).opens id)
    (hown : ∀ m, g'.ownFields m = g.ownFields m) : g'.Admissible := by
  intro m n hn
  rw [hown] at hn
  obtain ⟨f, hf, hnumber, hclosed⟩ := hg m n hn
  obtain ⟨f', hf', hid⟩ := hfield n f hf
  rw [← hid] at hnumber hclosed
  exact ⟨f', hf', hnumber, by rw [hopens]; exact hclosed⟩

/-- A field may be added to a message if its number is admissible there. -/
theorem Admissible.add (hg : g.Admissible) {parent id : NodeId} {name : String} {kind : NodeKind}
    (hparent : parent < g.size) (hfields : kind.ownFields = [])
    (hnumber : ∀ f, kind = .field f → (g.kind parent).isMessage →
      IsFieldNumber f.id ∧ (g.kind parent).opens f.id = false)
    (h : g.add parent name kind = .ok (id, g')) : g'.Admissible := by
  obtain ⟨-, hadded⟩ := added_of_add hfields h
  obtain ⟨-, hplanted, hgrown⟩ := grown_of_add hparent h
  have hopens : ∀ m ≠ g.size, ∀ id, (g'.kind m).opens id = (g.kind m).opens id := by
    intro m hm id
    rcases Nat.lt_or_gt_of_ne hm with hlt | hgt
    · rw [← NodeKind.opens_face, hgrown.face_kind hlt, NodeKind.opens_face]
    · rw [kind_of_size_le (Nat.le_of_lt hgt), kind_of_size_le (by rw [hplanted.size]; exact hgt)]
  intro m n hn
  have hm : m ≠ g.size := by
    rintro rfl
    rw [ownFields_eq, hplanted.new, hfields] at hn
    cases hn
  have hold : n ∈ g.ownFields m →
      ∃ f, g'.field? n = some f ∧ IsFieldNumber f.id ∧ (g'.kind m).opens f.id = false := by
    intro hn
    obtain ⟨f, hf, hf'⟩ := hg m n hn
    rw [← hopens m hm] at hf'
    exact ⟨f, (hadded.field? n f).mpr (.inr hf), hf'⟩
  rw [hplanted.ownFields m hm] at hn
  split at hn
  · rename_i hnew
    obtain ⟨rfl, hmessage, hfield⟩ := hnew
    rcases List.mem_append.mp hn with hn | hn
    · exact hold hn
    · rw [List.mem_singleton.mp hn]
      cases kind with
      | field f =>
        obtain ⟨hid, hclosed⟩ := hnumber f rfl hmessage
        rw [← hopens m hm] at hclosed
        exact ⟨f, (hadded.field? _ f).mpr (.inl ⟨rfl, rfl⟩), hid, hclosed⟩
      | _ => cases hfield
  · exact hold hn

theorem Admissible.addMember (hg : g.Admissible) (o id : NodeId) :
    (g.mapKind o (·.addMember id)).Admissible := by
  have hface : ∀ n, ((g.mapKind o (·.addMember id)).kind n).face = (g.kind n).face := by
    intro n
    rw [kind_mapKind]
    split
    · exact NodeKind.face_addMember _ _
    · rfl
  refine hg.congr (fun n f hf => exists_field?_of_face hf (hface n)) (fun m id => ?_)
    (sameShape_addMember o id).ownFields
  rw [← NodeKind.opens_face, hface, NodeKind.opens_face]

/-! ### Growth below a node -/

/-- The graph has grown below `p`, which lists the nodes `new` in addition. None of the nodes that
have been added is a package, and all numbers of fields are still admissible. -/
structure Enlarged (g : Graph) (p : NodeId) (new : List NodeId) (g' : Graph) : Prop
    extends Grown g p g' where
  appended : g'.children p = g.children p ++ new
  notPackage : ∀ n, g.size ≤ n → n < g'.size → (g'.kind n).isPackage = false
  admissible : g.Admissible → g'.Admissible

namespace Enlarged

variable {p : NodeId} {new new' : List NodeId}

theorem refl (p : NodeId) : g.Enlarged p [] g :=
  ⟨.refl p, (List.append_nil _).symm, fun _ hle hlt => absurd hlt (Nat.not_lt.mpr hle), id⟩

/-- What has been added before or is added later is no package. -/
theorem notPackage_trans {c : NodeId} (h : g.Enlarged p new g') (h' : g'.Enlarged c new' g'') :
    ∀ n, g.size ≤ n → n < g''.size → (g''.kind n).isPackage = false := by
  intro n hle hlt
  rcases Nat.lt_or_ge n g'.size with hbefore | hafter
  · rw [h'.isPackage hbefore]
    exact h.notPackage n hle hbefore
  · exact h'.notPackage n hafter hlt

theorem trans (h : g.Enlarged p new g') (h' : g'.Enlarged p new' g'') :
    g.Enlarged p (new ++ new') g'' := by
  refine ⟨h.toGrown.trans h'.toGrown (.inl rfl), ?_, h.notPackage_trans h',
    fun hg => h'.admissible (h.admissible hg)⟩
  rw [h'.appended, h.appended, List.append_assoc]

/-- What is added below a new node is not listed by the node under which that was added. -/
theorem inside {c : NodeId} (h : g.Enlarged p new g') (hp : p < g.size) (hc : g.size ≤ c)
    (h' : g'.Enlarged c new' g'') : g.Enlarged p new g'' := by
  refine ⟨h.toGrown.trans h'.toGrown (.inr hc), ?_, h.notPackage_trans h',
    fun hg => h'.admissible (h.admissible hg)⟩
  have hne : p ≠ c := Nat.ne_of_lt (Nat.lt_of_lt_of_le hp hc)
  rw [h'.children p (Nat.lt_of_lt_of_le hp h.size) hne, h.appended]

end Enlarged

/-- A node that is no package may be added, if its number is admissible in case it is a field. -/
theorem enlarged_of_add {parent id : NodeId} {name : String} {kind : NodeKind}
    (hparent : parent < g.size) (hfields : kind.ownFields = []) (hpackage : kind.isPackage = false)
    (hnumber : ∀ f, kind = .field f → (g.kind parent).isMessage →
      IsFieldNumber f.id ∧ (g.kind parent).opens f.id = false)
    (h : g.add parent name kind = .ok (id, g')) :
    g.Enlarged parent (if (g.kind parent).hasScope then [g.size] else []) g' := by
  obtain ⟨-, hplanted, hgrown⟩ := grown_of_add hparent h
  refine ⟨hgrown, ?_, fun n hle hlt => ?_, fun hg => hg.add hparent hfields hnumber h⟩
  · rw [hplanted.children parent (Nat.ne_of_lt hparent)]
    split
    · rename_i hscope
      rw [if_pos hscope.2]
    · rename_i hscope
      rw [if_neg fun h => hscope ⟨rfl, h⟩, List.append_nil]
  · have hn : n = g.size := by
      rw [hplanted.size] at hlt
      exact Nat.le_antisymm (Nat.le_of_lt_succ hlt) hle
    rw [hn, hplanted.new]
    exact hpackage

theorem enlarged_addMember (p o id : NodeId) : g.Enlarged p [] (g.mapKind o (·.addMember id)) := by
  have hgrown : g.Grown p (g.mapKind o (·.addMember id)) := grown_addMember p o id
  have hshape : g.SameShape (g.mapKind o (·.addMember id)) := sameShape_addMember o id
  refine ⟨hgrown, ?_, fun n hle hlt => ?_, fun hg => hg.addMember o id⟩
  · rw [hshape.children, List.append_nil]
  · rw [hshape.size] at hlt
    exact absurd hlt (Nat.not_lt.mpr hle)

end Graph

end Protobuf

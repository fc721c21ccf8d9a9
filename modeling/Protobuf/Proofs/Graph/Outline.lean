import Mathlib.Data.List.Forall2
import Protobuf.Proofs.Graph.Growth

/-!
# Outlines of definitions

A definition is a tree of names: a message has oneofs, enums, messages, fields and extensions, an
enum has values, a service has methods. Its outline says for each of them what the node in a graph
is to be. A node that stands for the whole outline has all of it below, in the order of declaration,
and nothing else.

Where adding a definition is refused, what has been added is a beginning of the outline: everything
is whole up to the place where it stopped. A beginning is not the whole, so it can be told by the
graph whether a definition has been added.

## Main definitions

* `Outline` — what a declaration makes of a graph.
* `Graph.Whole` — a node stands for an outline.
* `Graph.Stopped` — nodes stand for the beginning of some outlines only.
* `Graph.Preserves` — nodes that are no packages keep what they are.

## Main results

* `Graph.Stopped.not_whole` — a beginning is not the whole
* `Graph.Preserves.whole`, `Graph.Preserves.stopped` — both last

## Implementation notes

Nodes that are whole are never older than a given number. So what is added below a message does not
get into another part of the message, and what one definition has brought can be told from what was
there.
-/

namespace Protobuf

/-- What a declaration makes of a graph: a node of a name and a kind, the oneof that it belongs to,
and the nodes below it. -/
inductive Outline where
  | node (name : String) (kind : NodeKind) (oneof : Option String) (parts : List Outline)

namespace NodeKind

/-- A node as it is declared: without the numbers of other nodes. -/
def declared : NodeKind → NodeKind
  | field f => field { f with oneof := none, extension := none, link := none }
  | extension e => extension { e with field := Graph.root, target := none }
  | other => other.face

theorem declared_face (k : NodeKind) : k.face.declared = k.declared := by
  cases k <;> rfl

end NodeKind

namespace Graph

variable {g g' : Graph} {since : NodeId}

/-- The nodes below a node: those that it lists, and the field of an extension. -/
def parts (g : Graph) (n : NodeId) : List NodeId :=
  g.children n ++ (g.kind n).owned?.toList

/-- The node is what is declared, and no package. -/
structure Shows (g : Graph) (n : NodeId) (name : String) (kind : NodeKind)
    (oneof : Option String) : Prop where
  lt : n < g.size
  name : g.name n = name
  kind : (g.kind n).declared = kind
  notPackage : (g.kind n).isPackage = false
  oneof : (g.kind n).memberOf?.map g.name = oneof
  known : ∀ o, (g.kind n).memberOf? = some o → o < g.size

mutual

/-- The node stands for the outline, and nothing below it is older than `since`. -/
def Whole (g : Graph) (since n : NodeId) : Outline → Prop
  | .node name kind oneof parts =>
    since ≤ n ∧ g.Shows n name kind oneof ∧ g.AllWhole since (g.parts n) parts

/-- The nodes stand for the outlines, one for each. -/
def AllWhole (g : Graph) (since : NodeId) : List NodeId → List Outline → Prop
  | [], [] => True
  | n :: more, o :: others => g.Whole since n o ∧ g.AllWhole since more others
  | _, _ => False

end

theorem allWhole_iff {nodes : List NodeId} {outlines : List Outline} :
    g.AllWhole since nodes outlines ↔ List.Forall₂ (g.Whole since) nodes outlines := by
  induction nodes generalizing outlines with
  | nil => cases outlines <;> simp [AllWhole]
  | cons n more ih => cases outlines <;> simp [AllWhole, ih]

theorem whole_iff {n : NodeId} {name : String} {kind : NodeKind} {oneof : Option String}
    {parts : List Outline} :
    g.Whole since n (.node name kind oneof parts) ↔ since ≤ n ∧ g.Shows n name kind oneof ∧
      List.Forall₂ (g.Whole since) (g.parts n) parts := by
  rw [Whole, allWhole_iff]

/-- The nodes stand for the beginning of the outlines: one of them is missing, or is there as far as
it has come. -/
inductive Stopped (g : Graph) (since : NodeId) : List NodeId → List Outline → Prop
  /-- The next outline has no node. -/
  | before {nodes : List NodeId} {done : List Outline}
      (hdone : List.Forall₂ (g.Whole since) nodes done) (next : Outline) (rest : List Outline) :
      Stopped g since nodes (done ++ next :: rest)
  /-- The next outline has a node, below which there is a beginning only. -/
  | within {nodes : List NodeId} {done : List Outline}
      (hdone : List.Forall₂ (g.Whole since) nodes done) {n : NodeId} {name : String}
      {kind : NodeKind} {oneof : Option String} {parts : List Outline} (hsince : since ≤ n)
      (hshows : g.Shows n name kind oneof) (hparts : Stopped g since (g.parts n) parts)
      (rest : List Outline) :
      Stopped g since (nodes ++ [n]) (done ++ .node name kind oneof parts :: rest)

/-- A beginning is not the whole. -/
theorem Stopped.not_whole {nodes : List NodeId} {outlines : List Outline}
    (h : g.Stopped since nodes outlines) : ¬List.Forall₂ (g.Whole since) nodes outlines := by
  induction h with
  | before hdone next rest =>
    intro hall
    have hlength := hall.length_eq
    simp [hdone.length_eq] at hlength
  | within hdone hsince hshows hparts rest ih =>
    intro hall
    have hlength := hall.length_eq
    simp only [List.length_append, hdone.length_eq, List.length_cons, List.length_nil] at hlength
    have hrest : rest = [] := List.eq_nil_of_length_eq_zero (by omega)
    rw [hrest] at hall
    have hlast := List.forall₂_drop_append _ _ _ hall
    rw [List.drop_left' hdone.length_eq] at hlast
    cases hlast with
    | cons hwhole _ => exact ih (whole_iff.mp hwhole).2.2

/-- What is stopped before some outlines is stopped before more of them. -/
theorem Stopped.append_right {nodes : List NodeId} {outlines : List Outline}
    (h : g.Stopped since nodes outlines) (more : List Outline) :
    g.Stopped since nodes (outlines ++ more) := by
  cases h with
  | before hdone next rest =>
    rw [List.append_assoc, List.cons_append]
    exact .before hdone next (rest ++ more)
  | within hdone hsince hshows hparts rest =>
    rw [List.append_assoc, List.cons_append]
    exact .within hdone hsince hshows hparts (rest ++ more)

/-- What is stopped after some outlines that are whole is stopped. -/
theorem Stopped.append_left {nodes before : List NodeId} {outlines done : List Outline}
    (h : g.Stopped since nodes outlines) (hbefore : List.Forall₂ (g.Whole since) before done) :
    g.Stopped since (before ++ nodes) (done ++ outlines) := by
  cases h with
  | before hdone next rest =>
    rw [← List.append_assoc]
    exact .before (List.rel_append hbefore hdone) next rest
  | within hdone hsince hshows hparts rest =>
    rw [← List.append_assoc, ← List.append_assoc]
    exact .within (List.rel_append hbefore hdone) hsince hshows hparts rest

/-! ### What lasts -/

/-- Nodes keep their names. Those that are no packages keep their faces, and if they are not older
than `since`, they list the same nodes. -/
structure Preserves (g : Graph) (since : NodeId) (g' : Graph) : Prop where
  size : g.size ≤ g'.size
  name : ∀ n < g.size, g'.name n = g.name n
  face : ∀ n < g.size, (g.kind n).isPackage = false → (g'.kind n).face = (g.kind n).face
  children : ∀ n, since ≤ n → n < g.size → (g.kind n).isPackage = false →
    g'.children n = g.children n

/-- Growth below an older node leaves newer ones alone. -/
theorem Grown.preserves {p : NodeId} (h : g.Grown p g') (hp : p < since) :
    g.Preserves since g' where
  size := h.size
  name _ := h.name
  face _ hn _ := h.face_kind hn
  children n hsince hn _ := h.children n hn (Nat.ne_of_gt (Nat.lt_of_lt_of_le hp hsince))

namespace Preserves

theorem parts (h : g.Preserves since g') {n : NodeId} (hsince : since ≤ n) (hn : n < g.size)
    (hpackage : (g.kind n).isPackage = false) : g'.parts n = g.parts n := by
  rw [Graph.parts, Graph.parts, h.children n hsince hn hpackage,
    (NodeKind.like_of_face_eq (h.face n hn hpackage)).owned?]

theorem shows (h : g.Preserves since g') {n : NodeId} {name : String} {kind : NodeKind}
    {oneof : Option String} (hn : g.Shows n name kind oneof) : g'.Shows n name kind oneof := by
  have hface := h.face n hn.lt hn.notPackage
  have hlike := NodeKind.like_of_face_eq hface
  refine ⟨Nat.lt_of_lt_of_le hn.lt h.size, (h.name n hn.lt).trans hn.name, ?_, ?_, ?_, ?_⟩
  · rw [← NodeKind.declared_face, hface, NodeKind.declared_face]
    exact hn.kind
  · rw [← NodeKind.isPackage_face, hface, NodeKind.isPackage_face]
    exact hn.notPackage
  · rw [hlike.memberOf?, ← hn.oneof]
    refine Option.map_congr fun o ho => h.name o (hn.known o ho)
  · intro o ho
    rw [hlike.memberOf?] at ho
    exact Nat.lt_of_lt_of_le (hn.known o ho) h.size

mutual

/-- What is whole stays whole. -/
theorem whole (h : g.Preserves since g') (n : NodeId) (o : Outline) (hw : g.Whole since n o) :
    g'.Whole since n o := by
  match o with
  | .node name kind oneof parts =>
    obtain ⟨hsince, hshows, hparts⟩ := hw
    refine ⟨hsince, h.shows hshows, ?_⟩
    rw [h.parts hsince hshows.lt hshows.notPackage]
    exact h.allWhole _ parts hparts

theorem allWhole (h : g.Preserves since g') (nodes : List NodeId) (outlines : List Outline)
    (hw : g.AllWhole since nodes outlines) : g'.AllWhole since nodes outlines := by
  match nodes, outlines with
  | [], [] => trivial
  | n :: more, o :: others => exact ⟨h.whole n o hw.1, h.allWhole more others hw.2⟩

end

theorem forall₂ (h : g.Preserves since g') {nodes : List NodeId} {outlines : List Outline}
    (hw : List.Forall₂ (g.Whole since) nodes outlines) :
    List.Forall₂ (g'.Whole since) nodes outlines :=
  hw.imp fun n o => h.whole n o

/-- What has been stopped stays where it is. -/
theorem stopped (h : g.Preserves since g') {nodes : List NodeId} {outlines : List Outline}
    (hs : g.Stopped since nodes outlines) : g'.Stopped since nodes outlines := by
  induction hs with
  | before hdone next rest => exact .before (h.forall₂ hdone) next rest
  | within hdone hsince hshows _ rest ih =>
    rw [← h.parts hsince hshows.lt hshows.notPackage] at ih
    exact .within (h.forall₂ hdone) hsince (h.shows hshows) ih rest

end Preserves

/-! ### Older nodes -/

variable {older : NodeId}

mutual

theorem Whole.of_le (hle : older ≤ since) (n : NodeId) (o : Outline) (h : g.Whole since n o) :
    g.Whole older n o := by
  match o with
  | .node name kind oneof parts =>
    obtain ⟨hsince, hshows, hparts⟩ := h
    exact ⟨Nat.le_trans hle hsince, hshows, AllWhole.of_le hle _ parts hparts⟩

theorem AllWhole.of_le (hle : older ≤ since) (nodes : List NodeId) (outlines : List Outline)
    (h : g.AllWhole since nodes outlines) : g.AllWhole older nodes outlines := by
  match nodes, outlines with
  | [], [] => trivial
  | n :: more, o :: others =>
    exact ⟨Whole.of_le hle n o h.1, AllWhole.of_le hle more others h.2⟩

end

theorem forall₂_of_le (hle : older ≤ since) {nodes : List NodeId} {outlines : List Outline}
    (h : List.Forall₂ (g.Whole since) nodes outlines) :
    List.Forall₂ (g.Whole older) nodes outlines :=
  h.imp fun n o => Whole.of_le hle n o

theorem Stopped.of_le (hle : older ≤ since) {nodes : List NodeId} {outlines : List Outline}
    (h : g.Stopped since nodes outlines) : g.Stopped older nodes outlines := by
  induction h with
  | before hdone next rest => exact .before (forall₂_of_le hle hdone) next rest
  | within hdone hsince hshows _ rest ih =>
    exact .within (forall₂_of_le hle hdone) (Nat.le_trans hle hsince) hshows ih rest

end Graph

end Protobuf

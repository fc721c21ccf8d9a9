import Protobuf.Proofs.Graph.Tree
import Protobuf.Proofs.Text.Dotted

/-!
# Steps in which graphs grow

Definitions add nodes to a graph in three ways: a node by itself, a field that becomes a member of a
oneof, and an extension together with its field. In the last two ways something is missing until the
step is complete, so what is to hold of a graph at any time is looked at before and after such a
step only.

## Main definitions

* `NodeKind.Fresh` — the content of a node that is added by itself.
* `Graph.Takes` — a node of the kind may be added below the node.
* `Graph.Step` — a step in which a graph grows.
* `Graph.Stable` — a property that lasts in every step.

## Main results

* `Graph.stable_tree`, `Graph.stable_sound` — graphs stay trees, and sound if members are optional
* `Graph.stable_plainNames`, `Graph.stable_namedNodes` — names stay without dots, and with
  characters, if those that are added are so
-/

namespace Protobuf

/-- The content of a node that is added by itself: nothing is below it, it belongs to no oneof and
no extension, and is none. -/
structure NodeKind.Fresh (k : NodeKind) : Prop where
  children : k.children = []
  ownFields : k.ownFields = []
  ownOneofs : k.ownOneofs = []
  field : ∀ f, k = .field f → f.id ≠ 0 ∧ f.oneof = none ∧ f.extension = none
  oneof : ∀ c, k = .oneof c → c.fields = []
  extension : ∀ e, k ≠ .extension e

theorem NodeKind.Fresh.owner? {k : NodeKind} (h : k.Fresh) : k.owner? = none := by
  cases k with
  | field f => exact (h.field f rfl).2.2
  | _ => rfl

theorem NodeKind.Fresh.owned? {k : NodeKind} (h : k.Fresh) : k.owned? = none := by
  cases k with
  | extension e => exact absurd rfl (h.extension e)
  | _ => rfl

/-- The node is a part of a message: a field or a oneof. -/
def NodeKind.isPart (k : NodeKind) : Bool :=
  k.isField || k.isOneof

theorem NodeKind.isPart_of_hasScope {k : NodeKind} (h : k.hasScope) : k.isPart = false := by
  cases k <;> first | rfl | cases h

/-- A oneof with one member more. -/
def NodeKind.addMember (id : NodeId) : NodeKind → NodeKind
  | oneof c => oneof { c with fields := c.fields ++ [id] }
  | other => other

namespace Graph

/-- A node of the kind may be added below `p`: below a message if it is a part of one, and below any
node with a scope if it is not. -/
def Takes (g : Graph) (p : NodeId) (k : NodeKind) : Prop :=
  g.Scoped p ∧ (k.isPart → (g.kind p).isMessage)

theorem Scoped.takes {g : Graph} {p : NodeId} (h : g.Scoped p) {k : NodeKind}
    (hk : k.isPart = false) : g.Takes p k :=
  ⟨h, fun hpart => by rw [hk] at hpart; cases hpart⟩

theorem takes_of_isMessage {g : Graph} {p : NodeId} (h : (g.kind p).isMessage) (k : NodeKind) :
    g.Takes p k := by
  refine ⟨⟨?_, NodeKind.hasScope_of_isMessage h⟩, fun _ => h⟩
  rcases Nat.lt_or_ge p g.size with hlt | hle
  · exact hlt
  · rw [kind_of_size_le hle] at h
    cases h

/-- A step in which a graph grows. What becomes a member of a oneof holds single values; where
`strict` holds it is optional, and names have characters but no dots. -/
inductive Step (strict : Prop) (g : Graph) : Graph → Prop
  /-- A node is added by itself. -/
  | node {g' : Graph} {parent id : NodeId} {name : String} {kind : NodeKind}
      (hparent : g.Takes parent kind) (hname : strict → Path.Proper name) (hkind : kind.Fresh)
      (hadd : g.add parent name kind = .ok (id, g')) : Step strict g g'
  /-- A field is added to a message and to the list of a oneof. -/
  | member {g' : Graph} {parent id o : NodeId} {name : String} {f : FieldNode} {c : OneofNode}
      (hparent : g.Takes parent (.field f)) (hname : strict → Path.Proper name) (hid : f.id ≠ 0)
      (hextension : f.extension = none) (hrule : strict → f.rule = .optional)
      (hsingle : f.rule ≠ .repeated ∧ f.rule ≠ .map) (ho : f.oneof = some o)
      (hc : g.oneof? o = some c) (hbelow : o ∈ g.children parent)
      (hadd : g.add parent name (.field f) = .ok (id, g')) :
      Step strict g (g'.mapKind o (·.addMember id))
  /-- An extension is added, and its field below it. -/
  | extension {g₁ g₂ : Graph} {parent x id : NodeId} {name : String} {e : ExtensionNode}
      {f : FieldNode} (hparent : g.Scoped parent) (hname : strict → Path.Proper name)
      (hid : f.id ≠ 0) (honeof : f.oneof = none) (hextension : f.extension = some x)
      (hfield : e.field = x + 1) (hadd : g.add parent name (.extension e) = .ok (x, g₁))
      (hadd' : g₁.add x name (.field f) = .ok (id, g₂)) : Step strict g g₂

/-- The property lasts in every step. -/
def Stable (strict : Prop) (Inv : Graph → Prop) : Prop :=
  ∀ ⦃g g' : Graph⦄, Inv g → g.Step strict g' → Inv g'

theorem Stable.and {strict : Prop} {Inv Inv' : Graph → Prop} (h : Stable strict Inv)
    (h' : Stable strict Inv') : Stable strict fun g => Inv g ∧ Inv' g :=
  fun _ _ hg hstep => ⟨h hg.1 hstep, h' hg.2 hstep⟩

variable {strict : Prop} {g g' : Graph}

/-- A oneof is no longer the same when it gets a member, but the tree does not see that. -/
theorem sameShape_addMember (o id : NodeId) : g.SameShape (g.mapKind o (·.addMember id)) := by
  refine sameShape_mapKind ?_
  intro k
  cases k <;> exact ⟨⟨rfl, rfl, rfl, rfl, rfl, rfl, rfl⟩, rfl, rfl, rfl⟩

/-- The node is there, and is of the kind, as far as the tree is concerned. -/
def Placed (g : Graph) (p : NodeId) (k : NodeKind) : Prop :=
  p < g.size ∧ (g.kind p).Like k

theorem Placed.scoped {p : NodeId} {k : NodeKind} (h : g.Placed p k) (hk : k.hasScope) :
    g.Scoped p :=
  ⟨h.1, h.2.hasScope ▸ hk⟩

theorem Planted.placed {parent : NodeId} {name : String} {kind : NodeKind}
    (h : g.Planted parent name kind g') {p : NodeId} {k : NodeKind} (hp : g.Placed p k) :
    g'.Placed p k :=
  ⟨Nat.lt_trans hp.1 h.lt_size, (h.like p (Nat.ne_of_lt hp.1)).trans hp.2⟩

theorem SameShape.placed (h : g.SameShape g') {p : NodeId} {k : NodeKind} (hp : g.Placed p k) :
    g'.Placed p k :=
  ⟨h.size ▸ hp.1, (h.like p).trans hp.2⟩

/-- A node stays what it is. -/
theorem stable_placed (p : NodeId) (k : NodeKind) : Stable strict fun g => g.Placed p k := by
  intro g g' hp hstep
  cases hstep with
  | node hparent _ _ hadd => exact (planted_of_add hparent.1.1 hadd).2.placed hp
  | member hparent _ _ _ _ _ _ _ _ hadd =>
    exact (sameShape_addMember _ _).placed ((planted_of_add hparent.1.1 hadd).2.placed hp)
  | extension hparent _ _ _ _ _ hadd hadd' =>
    obtain ⟨rfl, hplanted⟩ := planted_of_add hparent.1 hadd
    exact (planted_of_add hplanted.lt_size hadd').2.placed (hplanted.placed hp)

theorem stable_scoped (p : NodeId) : Stable strict fun g => g.Scoped p := by
  intro g g' hp hstep
  have hplaced := stable_placed p (g.kind p) ⟨hp.1, .refl _⟩ hstep
  exact hplaced.scoped hp.2

theorem stable_tree : Stable strict Tree := by
  intro g g' hg hstep
  cases hstep with
  | node hparent _ hkind hadd =>
    exact hg.plant (planted_of_add hparent.1.1 hadd).2 hparent.1 hkind.children hkind.ownFields
      hkind.ownOneofs hkind.owner? hkind.owned?
  | member hparent _ _ hextension _ _ _ _ _ hadd =>
    exact (hg.plant (planted_of_add hparent.1.1 hadd).2 hparent.1 rfl rfl rfl hextension rfl).congr
      (sameShape_addMember _ _)
  | extension hparent _ _ _ hextension hfield hadd hadd' =>
    obtain ⟨rfl, hplanted⟩ := planted_of_add hparent.1 hadd
    exact hg.plantExtension hplanted hparent (planted_of_add hplanted.lt_size hadd').2
      (hfield.trans hplanted.size.symm) hextension

theorem stable_sound : Stable True Sound := by
  intro g g' hg hstep
  cases hstep with
  | node _ _ hkind hadd =>
    obtain ⟨-, hadded⟩ := added_of_add hkind.ownFields hadd
    exact hg.add hadded (fun f hf => ⟨(hkind.field f hf).1, (hkind.field f hf).2.1⟩) hkind.oneof
  | member _ _ hid _ hrule _ ho hc _ hadd =>
    obtain ⟨rfl, hadded⟩ := added_of_add rfl hadd
    exact hg.addMember hadded hid (hrule trivial) ho hc fun c => rfl
  | extension _ _ hid honeof _ _ hadd hadd' =>
    have hbetween :=
      hg.add (added_of_add rfl hadd).2 (fun f hf => by cases hf) fun c hc => by cases hc
    refine hbetween.add (added_of_add rfl hadd').2 (fun f hf => ?_) fun c hc => by cases hc
    cases hf
    exact ⟨hid, honeof⟩

/-! ### Names -/

/-- No name has a dot. -/
def PlainNames (g : Graph) : Prop :=
  ∀ n, Path.Plain (g.name n)

theorem Planted.plainNames {parent : NodeId} {name : String} {kind : NodeKind}
    (h : g.Planted parent name kind g') (hg : g.PlainNames) (hname : Path.Plain name) :
    g'.PlainNames := by
  intro n
  rw [h.names]
  split
  · exact hname
  · exact hg n

theorem SameShape.plainNames (h : g.SameShape g') (hg : g.PlainNames) : g'.PlainNames := by
  intro n
  rw [h.name]
  exact hg n

theorem stable_plainNames : Stable True PlainNames := by
  intro g g' hg hstep
  cases hstep with
  | node hparent hname _ hadd =>
    exact (planted_of_add hparent.1.1 hadd).2.plainNames hg (hname trivial).plain
  | member hparent hname _ _ _ _ _ _ _ hadd =>
    exact (sameShape_addMember _ _).plainNames
      ((planted_of_add hparent.1.1 hadd).2.plainNames hg (hname trivial).plain)
  | extension hparent hname _ _ _ _ hadd hadd' =>
    obtain ⟨rfl, hplanted⟩ := planted_of_add hparent.1 hadd
    exact (planted_of_add hplanted.lt_size hadd').2.plainNames
      (hplanted.plainNames hg (hname trivial).plain) (hname trivial).plain

theorem plainNames_empty (settings : Settings) : (empty settings).PlainNames := by
  intro n
  have hname : (empty settings).name n = "" := by cases n <;> rfl
  rw [hname]
  exact Path.plain_empty

/-- Every name has characters, but for that of the root. -/
def NamedNodes (g : Graph) : Prop :=
  ∀ n, root < n → n < g.size → g.name n ≠ ""

theorem Planted.namedNodes {parent : NodeId} {name : String} {kind : NodeKind}
    (h : g.Planted parent name kind g') (hg : g.NamedNodes) (hname : name ≠ "") :
    g'.NamedNodes := by
  intro n hroot hn
  rw [h.names]
  split
  · exact hname
  · rename_i hne
    rw [h.size] at hn
    exact hg n hroot (Nat.lt_of_le_of_ne (Nat.le_of_lt_succ hn) hne)

theorem SameShape.namedNodes (h : g.SameShape g') (hg : g.NamedNodes) : g'.NamedNodes := by
  intro n hroot hn
  rw [h.name]
  exact hg n hroot (h.size ▸ hn)

theorem stable_namedNodes : Stable True NamedNodes := by
  intro g g' hg hstep
  cases hstep with
  | node hparent hname _ hadd =>
    exact (planted_of_add hparent.1.1 hadd).2.namedNodes hg (hname trivial).ne_empty
  | member hparent hname _ _ _ _ _ _ _ hadd =>
    exact (sameShape_addMember _ _).namedNodes
      ((planted_of_add hparent.1.1 hadd).2.namedNodes hg (hname trivial).ne_empty)
  | extension hparent hname _ _ _ _ hadd hadd' =>
    obtain ⟨rfl, hplanted⟩ := planted_of_add hparent.1 hadd
    exact (planted_of_add hplanted.lt_size hadd').2.namedNodes
      (hplanted.namedNodes hg (hname trivial).ne_empty) (hname trivial).ne_empty

theorem namedNodes_empty (settings : Settings) : (empty settings).NamedNodes := by
  intro n hroot hn
  exact absurd hroot (Nat.not_lt.mpr (Nat.le_of_lt_succ hn))

end Graph

end Protobuf

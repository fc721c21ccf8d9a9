import Mathlib
import Protobuf.Proofs.Message.Renamed
import Protobuf.Proofs.Registry.Exchanged
import Protobuf.Proofs.Registry.Resolved

/-!
# The order of files does not matter

Two files are imported, one after the other, and then all references are looked up. If that is refused,
it is refused in the other order of the files as well, though for another reason maybe. Otherwise the
same comes out, up to the numbers of the nodes. Only packages that both files open may differ, in their
options and their dialect, which come from one file after the other, and in the order of what is below
them. Everything else about a definition can be told without numbers, and is the same. So a message of
one snapshot has a counterpart in the other one, and both are written as the same bytes.

## Main definitions

* `FieldView`, `OneofView` — what is known of a field and of a oneof, without any numbers of nodes.
* `Snapshot.Agree` — two snapshots agree up to numbers.
* `Registry.importBoth` — two files are imported, and all references are looked up.

## Main results

* `Registry.importBoth_comm` — in either order of the files the same comes out
-/

namespace Protobuf

/-- The type of a field, where an enum or a message goes by its path. -/
inductive TypeView where
  | scalar (s : Scalar)
  | enumeration (path : String)
  | message (path : String)
  | group (path : String)
  deriving DecidableEq, Repr

/-- What is known of a field, where all nodes go by their paths. -/
structure FieldView where
  name : String
  path : String
  id : UInt32
  rule : Rule
  type : Option TypeView
  keyType : Option Scalar
  packed : Bool
  default : Option Atom
  /-- The path of the oneof that it belongs to. -/
  oneof : Option String
  deriving DecidableEq, Repr

/-- What is known of a oneof. -/
structure OneofView where
  name : String
  path : String
  /-- The names of its fields. -/
  fields : List String
  options : Options

namespace Graph

variable (g : Graph)

/-- A type without numbers. -/
def typeView : FieldType → TypeView
  | .scalar s => .scalar s
  | .enumeration e => .enumeration (g.fqn e)
  | .message m => .message (g.fqn m)
  | .group m => .group (g.fqn m)

/-- A field without numbers. -/
def fieldView? (n : NodeId) : Option FieldView :=
  (g.field? n).map fun f =>
    { name := g.name n
      path := g.fqn n
      id := f.id
      rule := f.rule
      type := f.type?.map g.typeView
      keyType := f.link.bind FieldLink.keyType
      packed := f.link.any FieldLink.packed
      default := f.default?
      oneof := f.oneof.map g.fqn }

/-- A oneof without numbers. -/
def oneofView? (n : NodeId) : Option OneofView :=
  (g.oneof? n).map fun c =>
    { name := g.name n, path := g.fqn n, fields := c.fields.map g.name, options := c.options }

/-- The oneofs of a message. -/
def ownOneofs (message : NodeId) : List NodeId :=
  (g.message? message).elim [] MessageNode.oneofs

/-- The node is a package that both files open. -/
def SharedBy (a b : FileDecl) (n : NodeId) : Prop :=
  (g.kind n).isPackage ∧ g.pathTo n <+: a.packageParts ∧ g.pathTo n <+: b.packageParts

end Graph

/-- The snapshots agree up to the numbers of nodes, which `φ` changes, and up to what packages that
both files open have for options, for a dialect, and for the order of the definitions in them.

* `settings`, `lt_iff`: the settings are the same, and all nodes have a counterpart.
* `fqn`, `lookup?`: a node and its counterpart have the same path, and are found by the same paths.
* `kind`: a node and its counterpart are of one kind and have the same content, but for the numbers
  that are mentioned in it; a package that both files open is such a package in both.
* `children`: what is below a node has its counterparts below that of the node.
* `fields`, `oneofs`, `extensions`: a message has the same fields and oneofs in the same order, and the
  same extensions by number.
* `encode`: a message and its counterpart are written as the same bytes, or refused with the same
  error. -/
structure Snapshot.Agree (a b : FileDecl) (φ : Equiv.Perm NodeId) (S S' : Snapshot) : Prop where
  settings : S'.graph.settings = S.graph.settings
  lt_iff : ∀ n, φ n < S'.graph.size ↔ n < S.graph.size
  fqn : ∀ n, S'.graph.fqn (φ n) = S.graph.fqn n
  lookup? : ∀ path, S'.graph.lookup? path = (S.graph.lookup? path).map φ
  kind : ∀ n, S'.graph.kind (φ n) = (S.graph.kind n).rename φ ∨
    S.graph.SharedBy a b n ∧ S'.graph.SharedBy a b (φ n)
  children : ∀ n, (S'.graph.children (φ n)).Perm ((S.graph.children n).map φ)
  fields : ∀ m, (S'.graph.ownFields (φ m)).map S'.graph.fieldView? =
    (S.graph.ownFields m).map S.graph.fieldView?
  oneofs : ∀ m, (S'.graph.ownOneofs (φ m)).map S'.graph.oneofView? =
    (S.graph.ownOneofs m).map S.graph.oneofView?
  extensions : ∀ m, (S'.graph.extensionsOf (φ m)).map S'.graph.fieldView? =
    (S.graph.extensionsOf m).map S.graph.fieldView?
  encode : ∀ m : Message, m.type.snapshot = S → (m.rename φ S').encode = m.encode

/-! ### Views -/

namespace Graph

variable {g g' : Graph} {names : List String} {φ : Equiv.Perm NodeId}

/-- The path of a package in a chain has the names up to it. -/
theorem Chain.pathTo (hg : g.Chain names) (htree : g.Branching) {n : NodeId}
    (hn : n ≤ names.length) : g.pathTo n = names.take n := by
  induction n with
  | zero => exact pathTo_of_parent?_eq_none hg.parent?_root
  | succ i ih =>
    rw [htree.pathTo_of_parent? (hg.parent? i hn), ih (Nat.le_of_succ_le hn), hg.name i hn,
      List.take_succ_eq_append_getElem hn]

namespace Renamed

variable (h : Renamed names φ g g')

include h

theorem typeView (t : FieldType) : g'.typeView (t.rename φ) = g.typeView t := by
  cases t <;> simp only [FieldType.rename, Graph.typeView, h.fqn]

theorem fieldView? (n : NodeId) : g'.fieldView? (φ n) = g.fieldView? n := by
  rw [Graph.fieldView?, Graph.fieldView?, h.field?, Option.map_map]
  refine Option.map_congr fun f _ => ?_
  have htype : (f.rename φ).type?.map g'.typeView = f.type?.map g.typeView := by
    cases hl : f.link <;> simp [FieldNode.type?, FieldNode.rename, FieldLink.rename, hl, h.typeView]
  have honeof : (f.rename φ).oneof.map g'.fqn = f.oneof.map g.fqn := by
    rw [FieldNode.rename, Option.map_map]
    exact Option.map_congr fun o _ => h.fqn o
  have hlink : (f.rename φ).link.bind FieldLink.keyType = f.link.bind FieldLink.keyType ∧
      (f.rename φ).link.any FieldLink.packed = f.link.any FieldLink.packed ∧
      (f.rename φ).default? = f.default? := by
    cases hl : f.link <;> simp [FieldNode.default?, FieldNode.rename, FieldLink.rename, hl]
  simp only [Function.comp_apply, htype, honeof, hlink, h.name, h.fqn]
  rfl

theorem oneofView? (n : NodeId) : g'.oneofView? (φ n) = g.oneofView? n := by
  have hname : g'.name ∘ φ = g.name := funext h.name
  rw [Graph.oneofView?, Graph.oneofView?, h.name, h.fqn, oneof?, oneof?]
  obtain ⟨s, s', hs, hs'⟩ | heq := h.kind_cases n
  · rw [hs, hs']
    rfl
  · rw [heq]
    cases g.kind n with
    | oneof c => simp only [NodeKind.rename, Option.map_some, List.map_map, hname]
    | _ => rfl

theorem ownOneofs (m : NodeId) : g'.ownOneofs (φ m) = (g.ownOneofs m).map φ := by
  rw [Graph.ownOneofs, Graph.ownOneofs, h.message?]
  cases g.message? m <;> rfl

/-- The packages of the chain are those that both files open, if the paths of their packages begin with
the chain. -/
theorem sharedBy {a b : FileDecl} (ha : names <+: a.packageParts) (hb : names <+: b.packageParts)
    {n : NodeId} (hn : n ≤ names.length) : g.SharedBy a b n := by
  have hpath : g.pathTo n <+: names := by
    rw [h.chain.pathTo h.tree.toBranching hn]
    exact List.take_prefix n names
  exact ⟨h.chain.package n hn, hpath.trans ha, hpath.trans hb⟩

end Renamed

end Graph

/-- Snapshots agree if their graphs are the same up to numbers. -/
theorem Snapshot.agree_of_renamed {names : List String} {φ : Equiv.Perm NodeId} {a b : FileDecl}
    {S S' : Snapshot} (h : Graph.Renamed names φ S.graph S'.graph) (ha : names <+: a.packageParts)
    (hb : names <+: b.packageParts) : S.Agree a b φ S' where
  settings := h.settings
  lt_iff := h.lt_iff
  fqn := h.fqn
  lookup? := h.lookup?
  kind n := by
    rcases Nat.lt_or_ge names.length n with hlt | hle
    · exact .inl (congrArg Node.kind (h.node n hlt))
    · rw [h.fixed n hle]
      exact .inr ⟨h.sharedBy ha hb hle, h.symm.sharedBy ha hb hle⟩
  children := h.children_perm
  fields m := by
    rw [h.ownFields, List.map_map]
    exact List.map_congr_left fun n _ => h.fieldView? n
  oneofs m := by
    rw [h.ownOneofs, List.map_map]
    exact List.map_congr_left fun n _ => h.oneofView? n
  extensions m := by
    rw [h.extensionsOf, List.map_map]
    exact List.map_congr_left fun n _ => h.fieldView? n
  encode m hm := Message.encode_rename h (congrArg Snapshot.graph hm) rfl

namespace Registry

variable {settings : Settings} {a b file : FileDecl} {r t : Registry} {stamp stamp' : Nat}

/-! ### Two imports -/

/-- Imports two files, of which no names are known, and looks up all references. -/
def importBoth (a b : FileDecl) (stamp : Nat) : RegistryEdit SchemaError Unit := do
  asSchemaEdit (importFile a none)
  asSchemaEdit (importFile b none)
  resolveAll stamp

/-- There is no snapshot while files are added to an empty registry. -/
theorem Akin.addFile (h : Akin r r)
    (hrun : (ExceptT.run (Registry.addFile file)).run r = (.ok (), t)) : Akin t t := by
  have hcoupled := Blind.akin (fun hG hS => blind_addFile hG hS file) r r h
  rw [Coupled, hrun] at hcoupled
  cases hcoupled with
  | ok _ hakin => exact hakin

theorem Both.unresolved (h : Both settings a b t) : t.isResolved = false := by
  obtain ⟨r, hr, hrun⟩ := h
  have hempty : Akin (empty settings) (empty settings) :=
    ⟨rfl, Nat.one_pos, rfl, rfl, rfl, rfl⟩
  rw [isResolved, ((hempty.addFile hr).addFile hrun).unresolved]
  rfl

/-- Seen as an action on schemas, an action does the same. -/
theorem run_asSchemaEdit_eq_ok {α : Type} {edit : RegistryEdit DefinitionError α} {x : α} :
    (ExceptT.run (asSchemaEdit edit)).run r = (.ok x, t) ↔ (ExceptT.run edit).run r = (.ok x, t) := by
  show Prod.map (Except.mapError SchemaError.definition) id ((ExceptT.run edit).run r) = _ ↔ _
  rcases (ExceptT.run edit).run r with ⟨e | y, s⟩
  · exact ⟨fun h => (by cases h), fun h => (by cases h)⟩
  · exact ⟨fun h => (by cases h; rfl), fun h => (by cases h; rfl)⟩

/-- Both imports succeed if both files can be added and the graph can be linked. -/
theorem run_importBoth : (ExceptT.run (importBoth a b stamp)).run (empty settings) = (.ok (), r) ↔
    ∃ t G, Both settings a b t ∧ t.graph.link = .ok G ∧
      r = { t with graph := G, snapshot := some ⟨G, stamp⟩ } := by
  have hfresh : ∀ {t : Registry}, Both settings a b t → ¬t.isResolved := fun ht => by
    rw [ht.unresolved]
    decide
  rw [importBoth]
  constructor
  · intro h
    obtain ⟨_, s, hs, h⟩ := run_bind_eq_ok.mp h
    obtain ⟨_, t, ht, h⟩ := run_bind_eq_ok.mp h
    have hboth : Both settings a b t := ⟨s, run_asSchemaEdit_eq_ok.mp hs, run_asSchemaEdit_eq_ok.mp ht⟩
    rw [run_resolveAll, if_neg (hfresh hboth)] at h
    cases hlink : t.graph.link with
    | error e =>
      rw [hlink] at h
      cases h
    | ok G =>
      rw [hlink] at h
      cases h
      exact ⟨t, G, hboth, hlink, rfl⟩
  · rintro ⟨t, G, hboth, hlink, rfl⟩
    obtain ⟨s, hs, ht⟩ := id hboth
    refine run_bind_eq_ok.mpr ⟨(), s, run_asSchemaEdit_eq_ok.mpr hs,
      run_bind_eq_ok.mpr ⟨(), t, run_asSchemaEdit_eq_ok.mpr ht, ?_⟩⟩
    rw [run_resolveAll, if_neg (hfresh hboth), hlink]

/-- If the files can be imported in one order, they can be imported in the other one, and the snapshots
agree. -/
theorem exists_importBoth
    (h : (ExceptT.run (importBoth a b stamp)).run (empty settings) = (.ok (), r)) (stamp' : Nat) :
    ∃ r' S S' φ, (ExceptT.run (importBoth b a stamp')).run (empty settings) = (.ok (), r') ∧
      r.snapshot = some S ∧ r'.snapshot = some S' ∧ S.Agree a b φ S' := by
  obtain ⟨t, G, ht, hlink, rfl⟩ := run_importBoth.mp h
  obtain ⟨t', names, φ, ht', ha, hb, hrenamed⟩ := ht.exchange
  obtain ⟨G', hlink', hlinked⟩ := hrenamed.link (t.graph.link_unlinked.trans hlink)
  rw [Graph.link_unlinked] at hlink'
  exact ⟨_, _, _, φ, run_importBoth.mpr ⟨t', G', ht', hlink', rfl⟩, rfl, rfl,
    Snapshot.agree_of_renamed hlinked ha hb⟩

/-- The order of two files does not matter: in both orders they are refused, or in both orders they are
imported, and the snapshots agree. -/
theorem importBoth_comm (settings : Settings) (a b : FileDecl) (stamp stamp' : Nat) :
    (∃ e e' r r', (ExceptT.run (importBoth a b stamp)).run (empty settings) = (.error e, r) ∧
      (ExceptT.run (importBoth b a stamp')).run (empty settings) = (.error e', r')) ∨
    ∃ r r' S S' φ, (ExceptT.run (importBoth a b stamp)).run (empty settings) = (.ok (), r) ∧
      (ExceptT.run (importBoth b a stamp')).run (empty settings) = (.ok (), r') ∧
      r.snapshot = some S ∧ r'.snapshot = some S' ∧ S.Agree a b φ S' := by
  rcases hab : (ExceptT.run (importBoth a b stamp)).run (empty settings) with ⟨e | _, r⟩
  · rcases hba : (ExceptT.run (importBoth b a stamp')).run (empty settings) with ⟨e' | _, r'⟩
    · exact .inl ⟨e, e', r, r', rfl, rfl⟩
    · obtain ⟨r'', -, -, -, hok, -⟩ := exists_importBoth hba stamp
      rw [hab] at hok
      cases hok
  · obtain ⟨r', S, S', φ, hba, hS, hS', hagree⟩ := exists_importBoth hab stamp'
    exact .inr ⟨r, r', S, S', φ, rfl, hba, hS, hS', hagree⟩

end Registry

end Protobuf

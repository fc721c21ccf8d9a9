import Protobuf.Proofs.Graph.Label
import Protobuf.Proofs.Registry.Coupled
import Protobuf.Proofs.Registry.Link

/-!
# Graphs without what linking has found

Linking looks at what is declared and writes down what that refers to. It never looks at what was
written down before: a graph is linked as if nothing had been. So graphs that only differ in that are
linked alike, and stay so when the same is added to both.

## Main definitions

* `Graph.unlinked` — a graph without anything that linking has found.

## Main results

* `Graph.link_unlinked` — a graph is linked as if it had not been linked before
* `Graph.unlinked_of_link` — linking changes nothing else
* `Graph.coupling_unlinked` — what is added to one of the graphs can be added to the other
-/

namespace Protobuf

/-- A kind without what linking has found. -/
def NodeKind.unlinked : NodeKind → NodeKind
  | field f => field f.unlinked
  | extension e => extension { e with target := none }
  | method m => method { m with link := none }
  | other => other

namespace NodeKind

variable (k : NodeKind)

/-- The nodes that a declaration refers to by their numbers. -/
def Mentions (n : NodeId) : Prop :=
  n ∈ k.children ∨ n ∈ k.ownFields ∨ n ∈ k.ownOneofs ∨ n ∈ k.members ∨ k.memberOf? = some n ∨
    k.owner? = some n ∨ k.owned? = some n

/-- A declaration says no more of other nodes than that. -/
theorem rename_unlinked_congr {k : NodeKind} {φ ψ : NodeId → NodeId}
    (h : ∀ n, k.Mentions n → φ n = ψ n) : k.unlinked.rename φ = k.unlinked.rename ψ := by
  have hmap : ∀ l : List NodeId, (∀ n ∈ l, k.Mentions n) → l.map φ = l.map ψ := fun l hl =>
    List.map_congr_left fun n hn => h n (hl n hn)
  have hsome : ∀ o : Option NodeId, (∀ n, o = some n → k.Mentions n) → o.map φ = o.map ψ :=
    fun o ho => Option.map_congr fun n hn => h n (ho n hn)
  have hchildren : k.children.map φ = k.children.map ψ := hmap _ fun n hn => .inl hn
  have hfields : k.ownFields.map φ = k.ownFields.map ψ := hmap _ fun n hn => .inr (.inl hn)
  have honeofs : k.ownOneofs.map φ = k.ownOneofs.map ψ := hmap _ fun n hn => .inr (.inr (.inl hn))
  have hmembers : k.members.map φ = k.members.map ψ :=
    hmap _ fun n hn => .inr (.inr (.inr (.inl hn)))
  have hmember : k.memberOf?.map φ = k.memberOf?.map ψ :=
    hsome _ fun n hn => .inr (.inr (.inr (.inr (.inl hn))))
  have howner : k.owner?.map φ = k.owner?.map ψ :=
    hsome _ fun n hn => .inr (.inr (.inr (.inr (.inr (.inl hn)))))
  have howned : k.owned?.map φ = k.owned?.map ψ :=
    hsome _ fun n hn => .inr (.inr (.inr (.inr (.inr (.inr hn)))))
  cases k <;> simp_all [unlinked, rename, MessageNode.rename, Scope.rename, FieldNode.rename,
    FieldNode.unlinked, children, scope?, ownFields, ownOneofs, members, memberOf?, owner?, owned?]

theorem unlinked_rename (φ : NodeId → NodeId) : (k.rename φ).unlinked = k.unlinked.rename φ := by
  cases k <;> rfl

end NodeKind

namespace Node

/-- A node without what linking has found. -/
def unlinked (x : Node) : Node :=
  { x with kind := x.kind.unlinked }

variable {x : Node} {φ ψ : NodeId → NodeId}

theorem unlinked_rename : (x.rename φ).unlinked = x.unlinked.rename φ := by
  rw [unlinked, rename, rename, unlinked, NodeKind.unlinked_rename]

theorem rename_unlinked_congr
    (h : ∀ n, x.parent = some n ∨ x.kind.Mentions n → φ n = ψ n) :
    x.unlinked.rename φ = x.unlinked.rename ψ := by
  have hparent : x.parent.map φ = x.parent.map ψ := Option.map_congr fun n hn => h n (.inl hn)
  have hkind := NodeKind.rename_unlinked_congr fun n hn => h n (.inr hn)
  rw [unlinked, rename, rename, hkind, hparent]

end Node

theorem NodeKind.face_unlinked (k : NodeKind) : k.unlinked.face = k.face := by
  cases k <;> rfl

theorem NodeKind.isPackage_unlinked (k : NodeKind) : k.unlinked.isPackage = k.isPackage := by
  cases k <;> rfl

namespace Graph

variable (g : Graph)

/-- A graph without what linking has found. -/
def unlinked : Graph :=
  { g with
    nodes := g.nodes.map Node.unlinked
    extensions := [] }

theorem node_unlinked (n : NodeId) : g.unlinked.node n = (g.node n).unlinked := by
  simp only [node, unlinked, Array.getD_eq_getD_getElem?, Array.getElem?_map]
  cases g.nodes[n]? <;> rfl

@[simp] theorem size_unlinked : g.unlinked.size = g.size :=
  Array.size_map

@[simp] theorem name_unlinked (n : NodeId) : g.unlinked.name n = g.name n := by
  rw [name, node_unlinked]
  rfl

@[simp] theorem parent?_unlinked (n : NodeId) : g.unlinked.parent? n = g.parent? n := by
  rw [parent?, node_unlinked]
  rfl

@[simp] theorem kind_unlinked (n : NodeId) : g.unlinked.kind n = (g.kind n).unlinked := by
  rw [kind, node_unlinked]
  rfl

theorem sameShape_unlinked : g.SameShape g.unlinked := by
  have hkind : ∀ k : NodeKind, k.unlinked.Like k ∧ k.unlinked.children = k.children ∧
      k.unlinked.ownFields = k.ownFields ∧ k.unlinked.ownOneofs = k.ownOneofs := by
    intro k
    cases k <;> exact ⟨⟨rfl, rfl, rfl, rfl, rfl, rfl, rfl⟩, rfl, rfl, rfl⟩
  refine ⟨g.size_unlinked, g.name_unlinked, g.parent?_unlinked, fun n => ?_, fun n => ?_,
    fun n => ?_, fun n => ?_⟩
  · rw [kind_unlinked]
    exact (hkind _).1
  · show (g.unlinked.kind n).children = _
    rw [kind_unlinked]
    exact (hkind _).2.1
  · rw [ownFields_eq, ownFields_eq, kind_unlinked]
    exact (hkind _).2.2.1
  · rw [kind_unlinked]
    exact (hkind _).2.2.2

/-! ### Linking -/

theorem message?_unlinked (n : NodeId) : g.unlinked.message? n = g.message? n := by
  rw [message?, message?, kind_unlinked]
  cases g.kind n <;> rfl

theorem oneof?_unlinked (n : NodeId) : g.unlinked.oneof? n = g.oneof? n := by
  rw [oneof?, oneof?, kind_unlinked]
  cases g.kind n <;> rfl

theorem enumValues_unlinked (n : NodeId) : g.unlinked.enumValues n = g.enumValues n := by
  rw [enumValues, enumValues, g.sameShape_unlinked.children]
  refine List.filterMap_congr fun v _ => ?_
  rw [kind_unlinked, name_unlinked]
  cases g.kind v <;> rfl

theorem field?_unlinked (n : NodeId) :
    g.unlinked.field? n = (g.field? n).map FieldNode.unlinked := by
  rw [field?, field?, kind_unlinked]
  cases g.kind n <;> rfl

theorem hasFieldId_unlinked (id : UInt32) (n : NodeId) :
    g.unlinked.hasFieldId id n = g.hasFieldId id n := by
  rw [hasFieldId, hasFieldId, field?_unlinked, Option.any_map]
  rfl

theorem linkType_unlinked (label : String) (n : NodeId) (f : FieldNode) :
    g.unlinked.linkType label n f.unlinked = g.linkType label n f := by
  have hshape := g.sameShape_unlinked
  have hname : f.unlinked.typeName = f.typeName := rfl
  rw [linkType, linkType, hname, hshape.resolve?, hshape.scopeOf]
  cases Scalar.ofName? f.typeName with
  | some s => rfl
  | none =>
    cases g.resolve? (g.scopeOf n) f.typeName true with
    | none => rfl
    | some target =>
      dsimp only
      rw [kind_unlinked]
      cases g.kind target <;> rfl

theorem linkDefault_unlinked (label : String) (f : FieldNode) (t : FieldType) :
    g.unlinked.linkDefault label f.unlinked t = g.linkDefault label f t := by
  have hid : ∀ e, g.unlinked.enumId? e = g.enumId? e := fun e => funext fun name => by
    rw [enumId?, enumId?, enumValues_unlinked]
  have hhas : ∀ e, g.unlinked.enumHas e = g.enumHas e := fun e => funext fun id => by
    rw [enumHas, enumHas, enumValues_unlinked]
  have henum : ∀ e c, g.unlinked.constantEnumId? e c = g.constantEnumId? e c := fun e c => by
    cases c <;> simp only [constantEnumId?, hid, hhas]
  have hzero : g.unlinked.zero? t = g.zero? t := by
    cases t <;> simp only [zero?, enumDefault, enumValues_unlinked]
  have hexplicit : ∀ c, g.unlinked.explicitDefault f.unlinked t c = g.explicitDefault f t c := by
    intro c
    simp only [explicitDefault, henum, g.sameShape_unlinked.fqn]
    rfl
  simp only [linkDefault, hexplicit, hzero]
  rfl

theorem linkField_unlinked (n : NodeId) (f : FieldNode) :
    g.unlinked.linkField n f.unlinked = g.linkField n f := by
  simp only [linkField, linkType_unlinked, linkDefault_unlinked, g.sameShape_unlinked.fqn]
  rfl

theorem linkExtension_unlinked (n : NodeId) (e : ExtensionNode) (found : List ExtensionEntry) :
    g.unlinked.linkExtension n { e with target := none } found = g.linkExtension n e found := by
  have hshape := g.sameShape_unlinked
  simp only [linkExtension, hshape.resolve?, hshape.scopeOf, hshape.fqn, message?_unlinked,
    hshape.ownFields, funext (g.hasFieldId_unlinked _), field?_unlinked]
  cases g.resolve? (g.scopeOf n) e.extendee true with
  | none => rfl
  | some target =>
    dsimp only
    cases g.message? target with
    | none => rfl
    | some m =>
      cases g.field? e.field with
      | none => rfl
      | some f => rfl

theorem linkMethod_unlinked (n : NodeId) (m : MethodNode) :
    g.unlinked.linkMethod n { m with link := none } = g.linkMethod n m := by
  have hshape := g.sameShape_unlinked
  simp only [linkMethod, linkMessage, hshape.resolve?, hshape.scopeOf, hshape.fqn,
    message?_unlinked]

theorem linkNode_unlinked (found : List ExtensionEntry) (n : NodeId) :
    g.unlinked.linkNode found n = g.linkNode found n := by
  rw [linkNode, linkNode, kind_unlinked]
  cases g.kind n with
  | field f =>
    show (g.unlinked.linkField n f.unlinked >>= fun l => _) = _
    rw [linkField_unlinked]
    rfl
  | extension e =>
    show (g.unlinked.linkExtension n { e with target := none } found >>= fun l => _) = _
    rw [linkExtension_unlinked]
  | method m =>
    show (g.unlinked.linkMethod n { m with link := none } >>= fun l => _) = _
    rw [linkMethod_unlinked]
  | _ => rfl

/-- A graph is linked as if it had not been linked before. -/
theorem link_unlinked : g.unlinked.link = g.link := by
  have hnode : ∀ n k, { g.unlinked.node n with kind := k } = { g.node n with kind := k } :=
    fun n k => by
      rw [node_unlinked]
      rfl
  simp only [link, size_unlinked, linkNode_unlinked, hnode]
  rfl

variable {g}

/-- Linking changes nothing but what it finds. -/
theorem unlinked_of_link {g' : Graph} (h : g.link = .ok g') : g'.unlinked = g.unlinked := by
  obtain ⟨found, hlinked⟩ := exists_linkedBy_of_link h
  refine eq_of_kind_eq ?_ rfl hlinked.settings (fun n hn => ?_) (fun n hn => ?_) fun n hn => ?_
  · rw [size_unlinked, size_unlinked, hlinked.size]
  all_goals rw [size_unlinked] at hn
  · rw [name_unlinked, name_unlinked, hlinked.name n hn]
  · rw [parent?_unlinked, parent?_unlinked, hlinked.parent? n hn]
  · rw [kind_unlinked, kind_unlinked]
    have hstep := hlinked.step n hn
    generalize g.kind n = k at hstep
    generalize g'.kind n = k' at hstep
    generalize found n = before at hstep
    generalize found (n + 1) = after at hstep
    cases hstep <;> rfl

/-- Linking once more finds the same. -/
theorem link_of_link {g' : Graph} (h : g.link = .ok g') : g'.link = .ok g' := by
  rw [← link_unlinked, unlinked_of_link h, link_unlinked, h]

/-! ### Adding definitions -/

theorem unlinked_mapKind {change : NodeKind → NodeKind}
    (hchange : ∀ k, (change k).unlinked = change k.unlinked) (n : NodeId) :
    (g.mapKind n change).unlinked = g.unlinked.mapKind n change := by
  refine eq_of_kind_eq ?_ rfl rfl (fun m _ => ?_) (fun m _ => ?_) fun m _ => ?_
  · rw [size_unlinked, size_mapKind, size_mapKind, size_unlinked]
  · rw [name_unlinked, name_mapKind, name_mapKind, name_unlinked]
  · rw [parent?_unlinked, parent?_mapKind, parent?_mapKind, parent?_unlinked]
  · rw [kind_unlinked, kind_mapKind, kind_mapKind, size_unlinked, kind_unlinked]
    split
    · exact hchange _
    · rfl

theorem unlinked_push (x : Node) :
    unlinked { g with nodes := g.nodes.push x } =
      { g.unlinked with nodes := g.unlinked.nodes.push x.unlinked } := by
  simp [unlinked]

section Coupling

variable {h : Graph} (hgh : g.unlinked = h.unlinked)

include hgh

theorem size_of_unlinked_eq : g.size = h.size := by
  rw [← size_unlinked, hgh, size_unlinked]

theorem child?_of_unlinked_eq (p : NodeId) (name : String) : g.child? p name = h.child? p name := by
  rw [← g.sameShape_unlinked.child?, hgh, h.sameShape_unlinked.child?]

theorem fqn_of_unlinked_eq (n : NodeId) : g.fqn n = h.fqn n := by
  rw [← g.sameShape_unlinked.fqn, hgh, h.sameShape_unlinked.fqn]

theorem any_hasFieldId_of_unlinked_eq (p : NodeId) (id : UInt32) :
    (g.ownFields p).any (g.hasFieldId id) = (h.ownFields p).any (h.hasFieldId id) := by
  rw [← g.sameShape_unlinked.ownFields, ← funext (g.hasFieldId_unlinked id), hgh,
    funext (h.hasFieldId_unlinked id), h.sameShape_unlinked.ownFields]

/-- A node is added to two graphs alike, if they only differ in what linking has found. -/
theorem exists_add_of_unlinked_eq {h' : Graph} {p id : NodeId} {name : String} {kind : NodeKind}
    (hadd : h.add p name kind = .ok (id, h')) :
    ∃ g', g.add p name kind = .ok (id, g') ∧ g'.unlinked = h'.unlinked := by
  obtain ⟨hchild, hfree, rfl, rfl⟩ := add_eq_ok.mp hadd
  have hsize := size_of_unlinked_eq hgh
  have hchange : ∀ (n : NodeId) (k : NodeKind), NodeKind.unlinked ((k.adopt n kind).mapScope fun s =>
      { s with children := s.children ++ [n] }) = (k.unlinked.adopt n kind).mapScope fun s =>
        { s with children := s.children ++ [n] } := fun n k => by
    cases k <;> cases kind <;> rfl
  refine ⟨_, add_eq_ok.mpr ⟨?_, fun f hf => ?_, hsize.symm, rfl⟩, ?_⟩
  · rw [child?_of_unlinked_eq hgh, hchild]
  · rw [any_hasFieldId_of_unlinked_eq hgh]
    exact hfree f hf
  · rw [unlinked_mapKind (hchange _), unlinked_mapKind (hchange _), unlinked_push, unlinked_push, hgh,
      hsize]

end Coupling

/-- What is added to one of two graphs that only differ in what linking has found can be added to the
other one as well. -/
theorem coupling_unlinked (settings : Settings) :
    Coupling id settings True .everywhere
      fun g h => g.unlinked = h.unlinked ∧ h.settings = settings ∧ 0 < h.size where
  mirrors {g h} := by
    rintro ⟨hgh, hsettings, hpos⟩
    have hsize := size_of_unlinked_eq hgh
    have hkind : ∀ n, (g.kind n).unlinked = (h.kind n).unlinked := fun n => by
      rw [← kind_unlinked, hgh, kind_unlinked]
    constructor
    case fieldName =>
      have hsettings' : g.settings = settings := (congrArg Graph.settings hgh).trans hsettings
      rw [hsettings, hsettings']
      exact ⟨rfl, rfl⟩
    case next => exact fun i => by rw [hsize]; rfl
    case inner => exact trivial
    case child? =>
      intro p name _
      rw [Option.map_id_fun]
      exact child?_of_unlinked_eq hgh p name
    case face =>
      intro n _
      rw [NodeKind.rename_id, ← NodeKind.face_unlinked, ← NodeKind.face_unlinked (h.kind n)]
      exact congrArg _ (hkind n)
    case oneof =>
      intro n
      show (g.oneof? n).isSome = _
      rw [← oneof?_unlinked, hgh, oneof?_unlinked]
    case numbers => exact fun p _ id => any_hasFieldId_of_unlinked_eq hgh p id
    case fqn => exact fun _ n => fqn_of_unlinked_eq hgh n
    case scopeName =>
      intro _ n
      rw [scopeName, scopeName]
      exact congrArg _ (fqn_of_unlinked_eq hgh n)
  add {g h p name kind pid h'} := by
    rintro ⟨hgh, hsettings, hpos⟩ - - hadd
    obtain ⟨g', hadd', hgh'⟩ := exists_add_of_unlinked_eq hgh hadd
    refine ⟨g', ?_, hgh', ?_⟩
    · rw [NodeKind.rename_id]
      exact hadd'
    · obtain ⟨-, -, -, rfl⟩ := add_eq_ok.mp hadd
      refine ⟨hsettings, ?_⟩
      rw [size_mapKind, size, Array.size_push]
      exact Nat.succ_pos _
  addMember {g h o pid} := by
    rintro ⟨hgh, hsettings, hpos⟩
    have hchange : ∀ k : NodeKind, (k.addMember pid).unlinked = k.unlinked.addMember pid :=
      fun k => by cases k <;> rfl
    refine ⟨?_, hsettings, ?_⟩
    · show (g.mapKind o (·.addMember pid)).unlinked = (h.mapKind o (·.addMember pid)).unlinked
      rw [unlinked_mapKind hchange, unlinked_mapKind hchange, hgh]
    · rw [size_mapKind]
      exact hpos

end Graph

end Protobuf

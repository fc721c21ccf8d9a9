import Protobuf.Proofs.Graph.Sound

/-!
# Graphs are trees

Every node but the root hangs below an earlier one. Packages, messages, enums and services list the
nodes below them, whose names differ; the only other node with something below it is that of an
extension, which has its field there.

What the tree is about never changes of a node once it has been added, but for the lists of what is
below it. So two graphs are compared node by node, by `NodeKind.Like`, and the lists apart from that.

## Main definitions

* `Graph.Scoped` — a node that others can be added below.
* `Graph.Tree` — the shape of a graph.
* `Graph.Planted` — what adding a node changes of the shape.
* `Graph.SameShape` — two graphs of the same shape.

## Main results

* `Graph.planted_of_add` — adding a node changes no more than that
* `Graph.Tree.plant`, `Graph.Tree.plantExtension` — adding nodes keeps a tree
-/

namespace Protobuf

namespace NodeKind

/-- The nodes that are listed below a node of the kind. -/
def children (k : NodeKind) : List NodeId :=
  k.scope?.elim [] Scope.children

/-- The node is a message. -/
def isMessage : NodeKind → Bool
  | message _ => true
  | _ => false

/-- The node is a field. -/
def isField : NodeKind → Bool
  | field _ => true
  | _ => false

/-- The node is a oneof. -/
def isOneof : NodeKind → Bool
  | oneof _ => true
  | _ => false

/-- The oneofs of a message node. -/
def ownOneofs : NodeKind → List NodeId
  | message m => m.oneofs
  | _ => []

/-- The oneof that a field belongs to. -/
def memberOf? : NodeKind → Option NodeId
  | field f => f.oneof
  | _ => none

/-- The fields that a oneof lists. -/
def members : NodeKind → List NodeId
  | oneof c => c.fields
  | _ => []

/-- The field of an extension. -/
def owned? : NodeKind → Option NodeId
  | extension e => some e.field
  | _ => none

/-- The extension of a field. -/
def owner? : NodeKind → Option NodeId
  | field f => f.extension
  | _ => none

/-- The kinds are the same, as far as the tree is concerned, but for lists of nodes. -/
structure Like (k k' : NodeKind) : Prop where
  hasScope : k.hasScope = k'.hasScope
  isMessage : k.isMessage = k'.isMessage
  isField : k.isField = k'.isField
  isOneof : k.isOneof = k'.isOneof
  memberOf? : k.memberOf? = k'.memberOf?
  owned? : k.owned? = k'.owned?
  owner? : k.owner? = k'.owner?

theorem Like.refl (k : NodeKind) : k.Like k :=
  ⟨rfl, rfl, rfl, rfl, rfl, rfl, rfl⟩

theorem Like.trans {k k' k'' : NodeKind} (h : k.Like k') (h' : k'.Like k'') : k.Like k'' :=
  ⟨h.hasScope.trans h'.hasScope, h.isMessage.trans h'.isMessage, h.isField.trans h'.isField,
    h.isOneof.trans h'.isOneof, h.memberOf?.trans h'.memberOf?, h.owned?.trans h'.owned?,
    h.owner?.trans h'.owner?⟩

theorem like_mapScope (change : Scope → Scope) (k : NodeKind) : (k.mapScope change).Like k := by
  cases k <;> exact ⟨rfl, rfl, rfl, rfl, rfl, rfl, rfl⟩

theorem like_adopt (k kind : NodeKind) (child : NodeId) : (k.adopt child kind).Like k := by
  cases k <;> cases kind <;> exact ⟨rfl, rfl, rfl, rfl, rfl, rfl, rfl⟩

theorem children_adopt (k kind : NodeKind) (child : NodeId) :
    (k.adopt child kind).children = k.children := by
  cases k <;> cases kind <;> rfl

/-- A change of the scope is a change of the children of a node that has one. -/
theorem children_mapScope {change : Scope → Scope} {f : List NodeId → List NodeId}
    (hchange : ∀ s, (change s).children = f s.children) (k : NodeKind) :
    (k.mapScope change).children = if k.hasScope then f k.children else k.children := by
  cases k <;> first | rfl | exact hchange _

/-- A message takes the fields that are added below it for its own. -/
theorem ownFields_adopt_eq (k kind : NodeKind) (child : NodeId) :
    (k.adopt child kind).ownFields =
      if k.isMessage && kind.isField then k.ownFields ++ [child] else k.ownFields := by
  cases k <;> cases kind <;> rfl

/-- A message takes the oneofs that are added below it for its own. -/
theorem ownOneofs_adopt_eq (k kind : NodeKind) (child : NodeId) :
    (k.adopt child kind).ownOneofs =
      if k.isMessage && kind.isOneof then k.ownOneofs ++ [child] else k.ownOneofs := by
  cases k <;> cases kind <;> rfl

theorem ownOneofs_mapScope (change : Scope → Scope) (k : NodeKind) :
    (k.mapScope change).ownOneofs = k.ownOneofs := by
  cases k <;> rfl

theorem members_adopt (k kind : NodeKind) (child : NodeId) :
    (k.adopt child kind).members = k.members := by
  cases k <;> cases kind <;> rfl

theorem members_mapScope (change : Scope → Scope) (k : NodeKind) :
    (k.mapScope change).members = k.members := by
  cases k <;> rfl

theorem ownFields_of_isMessage {k : NodeKind} (h : k.isMessage = false) : k.ownFields = [] := by
  cases k <;> first | rfl | cases h

theorem hasScope_of_isMessage {k : NodeKind} (h : k.isMessage = true) : k.hasScope = true := by
  cases k <;> first | rfl | cases h

theorem owned?_of_hasScope {k : NodeKind} (h : k.hasScope = true) : k.owned? = none := by
  cases k <;> first | rfl | cases h

theorem owner?_of_hasScope {k : NodeKind} (h : k.hasScope = true) : k.owner? = none := by
  cases k <;> first | rfl | cases h

theorem owner?_of_owned? {k : NodeKind} {n : NodeId} (h : k.owned? = some n) : k.owner? = none := by
  cases k <;> first | rfl | cases h

end NodeKind

namespace Graph

variable {g g' : Graph}

/-- The node is there and lists what is below it. -/
def Scoped (g : Graph) (p : NodeId) : Prop :=
  p < g.size ∧ (g.kind p).hasScope

/-- Every node has its place. -/
structure Branching (g : Graph) : Prop where
  root : g.Scoped root
  parent?_root : g.parent? Graph.root = none
  parent : ∀ n < g.size, n ≠ Graph.root → ∃ p < n, g.parent? n = some p
  children : ∀ p n, n ∈ g.children p ↔ g.parent? n = some p ∧ (g.kind p).hasScope
  ascending : ∀ p, (g.children p).Pairwise (· < ·)
  siblings : ∀ p, (g.children p).Pairwise fun a b => g.name a ≠ g.name b
  fields : ∀ m, (g.kind m).isMessage →
    g.ownFields m = (g.children m).filter fun n => (g.kind n).isField
  oneofs : ∀ m, (g.kind m).isMessage →
    (g.kind m).ownOneofs = (g.children m).filter fun n => (g.kind n).isOneof
  below : ∀ n p, g.parent? n = some p → (g.kind p).hasScope ∨ (g.kind p).owned? = some n
  owner : ∀ n x, (g.kind n).owner? = some x → (g.kind x).owned? = some n

/-- Every node has its place, and every extension has its field. -/
structure Tree (g : Graph) : Prop extends Branching g where
  owned : ∀ x n, (g.kind x).owned? = some n →
    g.parent? n = some x ∧ (g.kind n).owner? = some x

/-! ### Names and parents -/

theorem lt_size_of_parent? {n p : NodeId} (h : g.parent? n = some p) : n < g.size := by
  rcases Nat.lt_or_ge n g.size with hlt | hle
  · exact hlt
  · rw [parent?, node_of_size_le hle] at h
    cases h

theorem lt_size_of_owned? {x n : NodeId} (h : (g.kind x).owned? = some n) : x < g.size := by
  rcases Nat.lt_or_ge x g.size with hlt | hle
  · exact hlt
  · rw [kind_of_size_le hle] at h
    cases h

theorem name_mapKind (id n : NodeId) (change : NodeKind → NodeKind) :
    (g.mapKind id change).name n = g.name n := by
  simp only [name, node, mapKind, Array.getD_eq_getD_getElem?, Array.getElem?_modify]
  split
  · cases g.nodes[n]? <;> rfl
  · rfl

theorem parent?_mapKind (id n : NodeId) (change : NodeKind → NodeKind) :
    (g.mapKind id change).parent? n = g.parent? n := by
  simp only [parent?, node, mapKind, Array.getD_eq_getD_getElem?, Array.getElem?_modify]
  split
  · cases g.nodes[n]? <;> rfl
  · rfl

theorem size_mapKind (id : NodeId) (change : NodeKind → NodeKind) :
    (g.mapKind id change).size = g.size := by
  simp [size, mapKind]

/-- Graphs of the same nodes are the same, if they have the same extensions and settings. -/
theorem eq_of_kind_eq (hsize : g'.size = g.size) (hextensions : g'.extensions = g.extensions)
    (hsettings : g'.settings = g.settings) (hname : ∀ n < g.size, g'.name n = g.name n)
    (hparent : ∀ n < g.size, g'.parent? n = g.parent? n)
    (hkind : ∀ n < g.size, g'.kind n = g.kind n) : g' = g := by
  have hnodes : g'.nodes = g.nodes := by
    refine Array.ext hsize fun n hn' hn => ?_
    have hnode : g'.node n = g.node n := by
      show Node.mk (g'.name n) (g'.parent? n) (g'.kind n) = _
      rw [hname n hn, hparent n hn, hkind n hn]
      rfl
    have hget : ∀ {h : Graph} (hn : n < h.nodes.size), h.node n = h.nodes[n] := by
      intro h hn
      rw [node, Array.getD_eq_getD_getElem?, Array.getElem?_eq_getElem hn]
      rfl
    rw [← hget hn', ← hget hn, hnode]
  cases g
  cases g'
  simp_all

theorem name_push (x : Node) (n : NodeId) :
    Graph.name { g with nodes := g.nodes.push x } n = if n = g.size then x.name else g.name n := by
  simp only [name, node, size, Array.getD_eq_getD_getElem?, Array.getElem?_push]
  split <;> rfl

theorem parent?_push (x : Node) (n : NodeId) :
    Graph.parent? { g with nodes := g.nodes.push x } n =
      if n = g.size then x.parent else g.parent? n := by
  simp only [parent?, node, size, Array.getD_eq_getD_getElem?, Array.getElem?_push]
  split <;> rfl

/-! ### Adding a node -/

/-- What adding a node below `parent` changes of the shape. -/
structure Planted (g : Graph) (parent : NodeId) (name : String) (kind : NodeKind) (g' : Graph) :
    Prop where
  size : g'.size = g.size + 1
  names : ∀ n, g'.name n = if n = g.size then name else g.name n
  parents : ∀ n, g'.parent? n = if n = g.size then some parent else g.parent? n
  new : g'.kind g.size = kind
  like : ∀ n ≠ g.size, (g'.kind n).Like (g.kind n)
  children : ∀ n ≠ g.size, g'.children n =
    if n = parent ∧ (g.kind parent).hasScope then g.children n ++ [g.size] else g.children n
  ownFields : ∀ n ≠ g.size, g'.ownFields n =
    if n = parent ∧ (g.kind parent).isMessage ∧ kind.isField then g.ownFields n ++ [g.size]
    else g.ownFields n
  ownOneofs : ∀ n ≠ g.size, (g'.kind n).ownOneofs =
    if n = parent ∧ (g.kind parent).isMessage ∧ kind.isOneof then (g.kind n).ownOneofs ++ [g.size]
    else (g.kind n).ownOneofs
  members : ∀ n ≠ g.size, (g'.kind n).members = (g.kind n).members
  fresh : ∀ c ∈ g.children parent, g.name c ≠ name

/-- Of the kinds of nodes, adding one changes that of the parent only. -/
theorem kind_planted {parent : NodeId} (hparent : parent < g.size) (name : String)
    (kind : NodeKind) (n : NodeId) :
    (mapKind { g with nodes := g.nodes.push ⟨name, some parent, kind⟩ } parent
      fun k => (k.adopt g.size kind).mapScope fun s =>
        { s with children := s.children ++ [g.size] }).kind n =
      if n = g.size then kind
      else if n = parent then ((g.kind n).adopt g.size kind).mapScope fun s =>
        { s with children := s.children ++ [g.size] }
      else g.kind n := by
  rw [kind_mapKind, kind_push]
  by_cases hn : n = g.size
  · have hne : parent ≠ n := hn ▸ Nat.ne_of_lt hparent
    rw [if_pos hn, if_neg fun h => hne h.1, if_pos hn]
  · rw [if_neg hn]
    by_cases hp : n = parent
    · have hlt : n < Graph.size { g with nodes := g.nodes.push ⟨name, some parent, kind⟩ } := by
        rw [hp, size, Array.size_push]
        exact Nat.lt_succ_of_lt hparent
      rw [if_pos ⟨hp.symm, hlt⟩, if_neg hn, if_pos hp]
    · rw [if_neg fun h => hp h.1.symm, if_neg hn, if_neg hp]

/-- Adding a node changes no more of the shape than that. -/
theorem planted_of_add {parent id : NodeId} {name : String} {kind : NodeKind}
    (hparent : parent < g.size) (h : g.add parent name kind = .ok (id, g')) :
    id = g.size ∧ g.Planted parent name kind g' := by
  obtain ⟨hchild, -, rfl, rfl⟩ := add_eq_ok.mp h
  have hkind := kind_planted hparent name kind
  refine ⟨rfl, {
    size := ?size, names := ?names, parents := ?parents, new := ?new, like := ?like
    children := ?children, ownFields := ?ownFields, ownOneofs := ?ownOneofs, members := ?members
    fresh := ?fresh }⟩
  case size =>
    rw [size_mapKind]
    simp [size]
  case names =>
    intro n
    rw [name_mapKind, name_push]
  case parents =>
    intro n
    rw [parent?_mapKind, parent?_push]
  case new => rw [hkind, if_pos rfl]
  -- of the nodes that are not new, the parent alone has another kind, which adopts the new node
  case like =>
    intro n hn
    rw [hkind, if_neg hn]
    split
    · exact (NodeKind.like_mapScope _ _).trans (NodeKind.like_adopt _ _ _)
    · exact NodeKind.Like.refl _
  case children =>
    intro n hn
    show NodeKind.children _ = _
    rw [hkind, if_neg hn]
    split
    · rename_i hp
      rw [NodeKind.children_mapScope (f := (· ++ [g.size])) fun s => rfl,
        (NodeKind.like_adopt _ _ _).hasScope, NodeKind.children_adopt, hp]
      simp only [true_and]
      rfl
    · rename_i hp
      rw [if_neg fun h => hp h.1]
      rfl
  case ownFields =>
    intro n hn
    rw [ownFields_eq, ownFields_eq, hkind, if_neg hn]
    split
    · rename_i hp
      rw [NodeKind.ownFields_mapScope, NodeKind.ownFields_adopt_eq, hp]
      simp
    · rename_i hp
      rw [if_neg fun h => hp h.1]
  case ownOneofs =>
    intro n hn
    rw [hkind, if_neg hn]
    split
    · rename_i hp
      rw [NodeKind.ownOneofs_mapScope, NodeKind.ownOneofs_adopt_eq, hp]
      simp
    · rename_i hp
      rw [if_neg fun h => hp h.1]
  case members =>
    intro n hn
    rw [hkind, if_neg hn]
    split
    · rw [NodeKind.members_mapScope, NodeKind.members_adopt]
    · rfl
  case fresh =>
    intro c hc hname
    have hnone := List.find?_eq_none.mp hchild c hc
    simp [hname] at hnone

/-! ### Trees are kept -/

theorem Branching.lt_of_parent? (hg : g.Branching) {n p : NodeId} (h : g.parent? n = some p) :
    p < n ∧ n < g.size := by
  have hlt := lt_size_of_parent? h
  have hne : n ≠ Graph.root := by
    rintro rfl
    rw [hg.parent?_root] at h
    cases h
  obtain ⟨p', hp', heq⟩ := hg.parent n hlt hne
  rw [h] at heq
  cases heq
  exact ⟨hp', hlt⟩

theorem Branching.lt_of_mem_children (hg : g.Branching) {n p : NodeId} (h : n ∈ g.children p) :
    p < n ∧ n < g.size :=
  hg.lt_of_parent? ((hg.children p n).mp h).1

theorem Planted.lt_size {parent : NodeId} {name : String} {kind : NodeKind}
    (h : g.Planted parent name kind g') : g.size < g'.size := by
  rw [h.size]
  exact Nat.lt_succ_self _

theorem Planted.children_new {parent : NodeId} {name : String} {kind : NodeKind}
    (h : g.Planted parent name kind g') (hchildren : kind.children = []) :
    g'.children g.size = [] := by
  show (g'.kind g.size).children = []
  rw [h.new, hchildren]

/-- The field of an extension stays where it is. -/
theorem Planted.belongs {parent : NodeId} {name : String} {kind : NodeKind}
    (h : g.Planted parent name kind g') {x n : NodeId}
    (hn : g.parent? n = some x ∧ (g.kind n).owner? = some x) :
    g'.parent? n = some x ∧ (g'.kind n).owner? = some x := by
  have hne : n ≠ g.size := Nat.ne_of_lt (lt_size_of_parent? hn.1)
  rw [h.parents, if_neg hne, (h.like n hne).owner?]
  exact hn

theorem Planted.scoped {parent : NodeId} {name : String} {kind : NodeKind}
    (h : g.Planted parent name kind g') {p : NodeId} (hp : g.Scoped p) : g'.Scoped p := by
  obtain ⟨hlt, hscope⟩ := hp
  constructor
  · rw [h.size]
    exact Nat.lt_succ_of_lt hlt
  · rw [(h.like p (Nat.ne_of_lt hlt)).hasScope]
    exact hscope

namespace Branching

variable {parent : NodeId} {name : String} {kind : NodeKind}

/-- The lists of what is below a node are kept right. -/
theorem children_of_planted (hg : g.Branching) (h : g.Planted parent name kind g')
    (hparent : parent < g.size) (hchildren : kind.children = []) (p n : NodeId) :
    n ∈ g'.children p ↔ g'.parent? n = some p ∧ (g'.kind p).hasScope := by
  rw [h.parents]
  by_cases hp : p = g.size
  · -- Nothing is below the new node yet.
    rw [hp, h.children_new hchildren]
    constructor
    · intro hn
      cases hn
    · rintro ⟨hn, -⟩
      split at hn
      · cases hn
        exact absurd hparent (Nat.lt_irrefl _)
      · have hlt := hg.lt_of_parent? hn
        exact absurd hlt.1 (Nat.lt_asymm hlt.2)
  · rw [h.children p hp, (h.like p hp).hasScope]
    by_cases hn : n = g.size
    · have hold : g.size ∉ g.children p := fun hmem =>
        Nat.lt_irrefl _ (hg.lt_of_mem_children hmem).2
      rw [if_pos hn, hn]
      split
      · rename_i hscoped
        simp [hscoped]
      · rename_i hscoped
        constructor
        · intro hmem
          exact absurd hmem hold
        · rintro ⟨heq, hscope⟩
          cases heq
          exact absurd ⟨rfl, hscope⟩ hscoped
    · rw [if_neg hn, ← hg.children p n]
      split
      · simp [hn]
      · rfl

/-- A new node comes after those that were there. -/
theorem ascending_of_planted (hg : g.Branching) (h : g.Planted parent name kind g')
    (hchildren : kind.children = []) (p : NodeId) : (g'.children p).Pairwise (· < ·) := by
  by_cases hp : p = g.size
  · rw [hp, h.children_new hchildren]
    exact .nil
  · rw [h.children p hp]
    split
    · refine List.pairwise_append.mpr ⟨hg.ascending p, List.pairwise_singleton _ _, ?_⟩
      intro a ha b hb
      rw [List.mem_singleton.mp hb]
      exact (hg.lt_of_mem_children ha).2
    · exact hg.ascending p

theorem siblings_of_planted (hg : g.Branching) (h : g.Planted parent name kind g')
    (hchildren : kind.children = []) (p : NodeId) :
    (g'.children p).Pairwise fun a b => g'.name a ≠ g'.name b := by
  have hold : ∀ c ∈ g.children p, g'.name c = g.name c := by
    intro c hc
    rw [h.names, if_neg (Nat.ne_of_lt (hg.lt_of_mem_children hc).2)]
  have hpairs : (g.children p).Pairwise fun a b => g'.name a ≠ g'.name b := by
    refine (hg.siblings p).imp_of_mem ?_
    intro a b ha hb hab
    rw [hold a ha, hold b hb]
    exact hab
  by_cases hp : p = g.size
  · rw [hp, h.children_new hchildren]
    exact .nil
  · rw [h.children p hp]
    split
    · rename_i hscoped
      refine List.pairwise_append.mpr ⟨hpairs, List.pairwise_singleton _ _, ?_⟩
      intro a ha b hb
      rw [List.mem_singleton.mp hb, hold a ha, h.names, if_pos rfl]
      exact h.fresh a (hscoped.1 ▸ ha)
    · exact hpairs

/-- Of the children of some kinds, a new node is the last one if it is of such a kind. -/
theorem filter_children_of_planted (hg : g.Branching) (h : g.Planted parent name kind g')
    (is : NodeKind → Bool) (his : ∀ {k k' : NodeKind}, k.Like k' → is k = is k') {p : NodeId}
    (hp : p ≠ g.size) :
    (g'.children p).filter (fun n => is (g'.kind n)) =
      if p = parent ∧ (g.kind parent).hasScope ∧ is kind then
        (g.children p).filter (fun n => is (g.kind n)) ++ [g.size]
      else (g.children p).filter fun n => is (g.kind n) := by
  have hold : (g.children p).filter (fun n => is (g'.kind n)) =
      (g.children p).filter fun n => is (g.kind n) := by
    refine List.filter_congr fun n hn => ?_
    rw [his (h.like n (Nat.ne_of_lt (hg.lt_of_mem_children hn).2))]
  rw [h.children p hp]
  by_cases hscoped : p = parent ∧ (g.kind parent).hasScope
  · rw [if_pos hscoped, List.filter_append, hold, List.filter_cons, List.filter_nil, h.new]
    by_cases hkind : is kind
    · rw [if_pos hkind, if_pos ⟨hscoped.1, hscoped.2, hkind⟩]
    · rw [if_neg hkind, if_neg fun h => hkind h.2.2, List.append_nil]
  · rw [if_neg hscoped, if_neg fun h => hscoped ⟨h.1, h.2.1⟩, hold]

theorem fields_of_planted (hg : g.Branching) (h : g.Planted parent name kind g')
    (hchildren : kind.children = []) (hfields : kind.ownFields = []) (m : NodeId)
    (hm : (g'.kind m).isMessage) :
    g'.ownFields m = (g'.children m).filter fun n => (g'.kind n).isField := by
  by_cases hsize : m = g.size
  · rw [hsize, h.children_new hchildren, ownFields_eq, h.new, hfields]
    rfl
  · have hmessage : (g.kind m).isMessage := (h.like m hsize).isMessage ▸ hm
    rw [hg.filter_children_of_planted h _ NodeKind.Like.isField hsize, h.ownFields m hsize,
      hg.fields m hmessage]
    by_cases hp : m = parent
    · simp only [← hp, hmessage, NodeKind.hasScope_of_isMessage hmessage, true_and]
    · simp only [hp, false_and]

theorem oneofs_of_planted (hg : g.Branching) (h : g.Planted parent name kind g')
    (hchildren : kind.children = []) (honeofs : kind.ownOneofs = []) (m : NodeId)
    (hm : (g'.kind m).isMessage) :
    (g'.kind m).ownOneofs = (g'.children m).filter fun n => (g'.kind n).isOneof := by
  by_cases hsize : m = g.size
  · rw [hsize, h.children_new hchildren, h.new, honeofs]
    rfl
  · have hmessage : (g.kind m).isMessage := (h.like m hsize).isMessage ▸ hm
    rw [hg.filter_children_of_planted h _ NodeKind.Like.isOneof hsize, h.ownOneofs m hsize,
      hg.oneofs m hmessage]
    by_cases hp : m = parent
    · simp only [← hp, hmessage, NodeKind.hasScope_of_isMessage hmessage, true_and]
    · simp only [hp, false_and]

/-- A node without anything below it may be added below a node with a scope, and as the field of an
extension that waits for it. -/
theorem plant (hg : g.Branching) (h : g.Planted parent name kind g') (hparent : parent < g.size)
    (hbelow : (g.kind parent).hasScope ∨ (g.kind parent).owned? = some g.size)
    (hchildren : kind.children = []) (hfields : kind.ownFields = [])
    (honeofs : kind.ownOneofs = [])
    (howner : ∀ x, kind.owner? = some x → (g.kind x).owned? = some g.size) : g'.Branching := by
  have hlike : ∀ n < g.size, (g'.kind n).Like (g.kind n) := fun n hn => h.like n (Nat.ne_of_lt hn)
  have howned : ∀ x n, (g.kind x).owned? = some n → (g'.kind x).owned? = some n := by
    intro x n hx
    rw [(hlike x (lt_size_of_owned? hx)).owned?]
    exact hx
  constructor
  case root => exact h.scoped hg.root
  case parent?_root =>
    rw [h.parents, if_neg (Nat.ne_of_lt hg.root.1)]
    exact hg.parent?_root
  case parent =>
    intro n hn hroot
    rw [h.size] at hn
    rw [h.parents]
    split
    · rename_i heq
      exact ⟨parent, heq ▸ hparent, rfl⟩
    · rename_i hne
      exact hg.parent n (Nat.lt_of_le_of_ne (Nat.le_of_lt_succ hn) hne) hroot
  case children => exact hg.children_of_planted h hparent hchildren
  case ascending => exact hg.ascending_of_planted h hchildren
  case siblings => exact hg.siblings_of_planted h hchildren
  case fields => exact hg.fields_of_planted h hchildren hfields
  case oneofs => exact hg.oneofs_of_planted h hchildren honeofs
  case below =>
    intro n p hp
    rw [h.parents] at hp
    split at hp
    · -- the new node, which is below a node with a scope or belongs to the one that it is below
      rename_i heq
      cases hp
      rw [heq]
      refine hbelow.imp ?_ (howned _ _)
      intro hscope
      rw [(hlike _ hparent).hasScope]
      exact hscope
    · have hlt := hg.lt_of_parent? hp
      refine (hg.below n p hp).imp ?_ (howned _ _)
      intro hscope
      rw [(hlike p (Nat.lt_trans hlt.1 hlt.2)).hasScope]
      exact hscope
  case owner =>
    intro n x hx
    by_cases hn : n = g.size
    · rw [hn, h.new] at hx
      rw [hn]
      exact howned _ _ (howner x hx)
    · rw [(h.like n hn).owner?] at hx
      exact howned _ _ (hg.owner n x hx)

end Branching

namespace Tree

variable {parent : NodeId} {name : String} {kind : NodeKind}

theorem owned_of_planted (hg : g.Tree) (h : g.Planted parent name kind g') {x n : NodeId}
    (hx : x ≠ g.size) (howned : (g'.kind x).owned? = some n) :
    g'.parent? n = some x ∧ (g'.kind n).owner? = some x := by
  rw [(h.like x hx).owned?] at howned
  exact h.belongs (hg.owned x n howned)

/-- A node that belongs to no extension and is none may be added below a node with a scope. -/
theorem plant (hg : g.Tree) (h : g.Planted parent name kind g') (hparent : g.Scoped parent)
    (hchildren : kind.children = []) (hfields : kind.ownFields = [])
    (honeofs : kind.ownOneofs = []) (howner : kind.owner? = none) (howned : kind.owned? = none) :
    g'.Tree := by
  have hbranching : g'.Branching := by
    refine hg.toBranching.plant h hparent.1 (.inl hparent.2) hchildren hfields honeofs ?_
    intro x hx
    rw [howner] at hx
    cases hx
  refine ⟨hbranching, ?_⟩
  intro x n hx
  by_cases hsize : x = g.size
  · rw [hsize, h.new, howned] at hx
    cases hx
  · exact hg.owned_of_planted h hsize hx

/-- An extension is added together with its field. -/
theorem plantExtension {g₁ g₂ : Graph} (hg : g.Tree) {fieldName : String} {e : ExtensionNode}
    {f : FieldNode} (h₁ : g.Planted parent name (.extension e) g₁) (hparent : g.Scoped parent)
    (h₂ : g₁.Planted g.size fieldName (.field f) g₂) (hfield : e.field = g₁.size)
    (hextension : f.extension = some g.size) : g₂.Tree := by
  have hbranching : g₁.Branching :=
    hg.toBranching.plant h₁ hparent.1 (.inl hparent.2) rfl rfl rfl fun x hx => by cases hx
  have hwaits : (g₁.kind g.size).owned? = some g₁.size := by
    rw [h₁.new, ← hfield]
    rfl
  refine ⟨hbranching.plant h₂ h₁.lt_size (.inr hwaits) rfl rfl rfl ?_, ?_⟩
  · intro x hx
    have hsome : f.extension = some x := hx
    rw [hextension] at hsome
    cases hsome
    exact hwaits
  · intro x n hx
    by_cases hnew : x = g₁.size
    · rw [hnew, h₂.new] at hx
      cases hx
    · rw [(h₂.like x hnew).owned?] at hx
      by_cases hsize : x = g.size
      · rw [hsize, hwaits] at hx
        cases hx
        rw [hsize, h₂.parents, if_pos rfl, h₂.new]
        exact ⟨rfl, hextension⟩
      · exact h₂.belongs (hg.owned_of_planted h₁ hsize hx)

end Tree

/-! ### Graphs of the same shape -/

/-- The graphs differ in nothing that the tree is about. -/
structure SameShape (g g' : Graph) : Prop where
  size : g'.size = g.size
  name : ∀ n, g'.name n = g.name n
  parent? : ∀ n, g'.parent? n = g.parent? n
  like : ∀ n, (g'.kind n).Like (g.kind n)
  children : ∀ n, g'.children n = g.children n
  ownFields : ∀ n, g'.ownFields n = g.ownFields n
  ownOneofs : ∀ n, (g'.kind n).ownOneofs = (g.kind n).ownOneofs

theorem SameShape.scoped (h : g.SameShape g') {p : NodeId} (hp : g.Scoped p) : g'.Scoped p := by
  rw [Scoped, h.size, (h.like p).hasScope]
  exact hp

theorem Branching.congr (hg : g.Branching) (h : g.SameShape g') : g'.Branching where
  root := h.scoped hg.root
  parent?_root := by
    rw [h.parent?]
    exact hg.parent?_root
  parent n hn hroot := by
    rw [h.parent?]
    exact hg.parent n (h.size ▸ hn) hroot
  children p n := by
    rw [h.children, h.parent?, (h.like p).hasScope]
    exact hg.children p n
  ascending p := by
    rw [h.children]
    exact hg.ascending p
  siblings p := by
    simp only [h.children, h.name]
    exact hg.siblings p
  fields m hm := by
    rw [(h.like m).isMessage] at hm
    simp only [h.ownFields, h.children, (h.like _).isField]
    exact hg.fields m hm
  oneofs m hm := by
    rw [(h.like m).isMessage] at hm
    simp only [h.ownOneofs, h.children, (h.like _).isOneof]
    exact hg.oneofs m hm
  below n p hp := by
    rw [h.parent?] at hp
    rw [(h.like p).hasScope, (h.like p).owned?]
    exact hg.below n p hp
  owner n x hx := by
    rw [(h.like n).owner?] at hx
    rw [(h.like x).owned?]
    exact hg.owner n x hx

theorem Tree.congr (hg : g.Tree) (h : g.SameShape g') : g'.Tree where
  toBranching := hg.toBranching.congr h
  owned x n hx := by
    rw [(h.like x).owned?] at hx
    rw [h.parent?, (h.like n).owner?]
    exact hg.owned x n hx

theorem sameShape_mapKind {id : NodeId} {change : NodeKind → NodeKind}
    (hchange : ∀ k, (change k).Like k ∧ (change k).children = k.children ∧
      (change k).ownFields = k.ownFields ∧ (change k).ownOneofs = k.ownOneofs) :
    g.SameShape (g.mapKind id change) := by
  have hkind : ∀ n, ((g.mapKind id change).kind n).Like (g.kind n) ∧
      ((g.mapKind id change).kind n).children = (g.kind n).children ∧
      ((g.mapKind id change).kind n).ownFields = (g.kind n).ownFields ∧
      ((g.mapKind id change).kind n).ownOneofs = (g.kind n).ownOneofs := by
    intro n
    rw [kind_mapKind]
    split
    · exact hchange _
    · exact ⟨NodeKind.Like.refl _, rfl, rfl, rfl⟩
  refine ⟨size_mapKind id change, fun n => name_mapKind id n change,
    fun n => parent?_mapKind id n change, fun n => (hkind n).1, fun n => (hkind n).2.1, ?_,
    fun n => (hkind n).2.2.2⟩
  intro n
  rw [ownFields_eq, ownFields_eq]
  exact (hkind n).2.2.1

/-- A change of scopes that leaves the children alone changes nothing of the shape. -/
theorem sameShape_mapScope (id : NodeId) {change : Scope → Scope}
    (hchange : ∀ s, (change s).children = s.children) :
    g.SameShape (g.mapKind id (·.mapScope change)) := by
  refine sameShape_mapKind fun k => ⟨NodeKind.like_mapScope _ _, ?_,
    NodeKind.ownFields_mapScope _ _, NodeKind.ownOneofs_mapScope _ _⟩
  rw [NodeKind.children_mapScope (f := fun children => children) hchange]
  exact ite_self _

theorem tree_empty (settings : Settings) : (empty settings).Tree := by
  have hparent : ∀ n, (empty settings).parent? n = none := by
    intro n
    cases n <;> rfl
  have hchildren : ∀ n, (empty settings).children n = [] := by
    intro n
    show ((empty settings).kind n).children = []
    rw [kind_empty]
    rfl
  exact {
    root := ⟨Nat.one_pos, by rw [kind_empty]; rfl⟩
    parent?_root := hparent _
    parent := fun n hn hroot => absurd (Nat.lt_one_iff.mp hn) hroot
    children := by simp [hparent, hchildren]
    ascending := by simp [hchildren]
    siblings := by simp [hchildren]
    fields := by simp [kind_empty, NodeKind.isMessage]
    oneofs := by simp [kind_empty, NodeKind.isMessage]
    below := by simp [hparent]
    owner := by simp [kind_empty, NodeKind.owner?]
    owned := by simp [kind_empty, NodeKind.owned?] }

end Graph

end Protobuf

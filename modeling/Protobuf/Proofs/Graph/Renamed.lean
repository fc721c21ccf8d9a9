import Mathlib
import Protobuf.Proofs.Graph.Merged
import Protobuf.Proofs.Graph.Label

/-!
# Graphs under other numbers

Two graphs are the same up to the numbers of their nodes if a permutation of the numbers leads from the
nodes of one to those of the other. They begin with the same chain of packages; its packages may differ
in options and dialects, and the last one in the order of what is below it, for these come about by
adding definitions in some order.

Everything that is looked up in a graph by names is found in both, and everything that is told by names
is told alike.

## Main definitions

* `Graph.Renamed` — two graphs are the same up to numbers.

## Main results

* `Graph.Renamed.kind_cases` — what a node is in both graphs
* `Graph.Renamed.child?`, `Graph.Renamed.resolve?`, `Graph.Renamed.lookup?` — names and paths lead to
  the same nodes
* `Graph.Renamed.fqn` — nodes have the same paths
-/

namespace Protobuf

namespace ExtensionEntry

/-- The entries give no two fields the same number in one message. -/
def Apart (a b : ExtensionEntry) : Prop :=
  ¬(a.target = b.target ∧ a.id = b.id)

theorem Apart.symm {a b : ExtensionEntry} (h : a.Apart b) : b.Apart a :=
  fun heq => h ⟨heq.1.symm, heq.2.symm⟩

theorem Apart.rename {a b : ExtensionEntry} (h : a.Apart b) (φ : Equiv.Perm NodeId) :
    (a.rename φ).Apart (b.rename φ) :=
  fun heq => h ⟨φ.injective heq.1, heq.2⟩

end ExtensionEntry

/-- What is sorted by different keys is sorted in one way. -/
theorem List.mergeSort_eq_of_perm {α : Type} {key : α → UInt32} {xs ys : List α} (h : xs.Perm ys)
    (hkeys : (xs.map key).Nodup) :
    xs.mergeSort (fun a b => key a ≤ key b) = ys.mergeSort fun a b => key a ≤ key b := by
  have hsorted : ∀ zs : List α, (zs.mergeSort fun a b => key a ≤ key b).Pairwise
      fun a b => decide (key a ≤ key b) = true := fun zs =>
    List.pairwise_mergeSort (fun a b c hab hbc => by
      simp only [decide_eq_true_eq] at hab hbc ⊢
      exact UInt32.le_trans hab hbc) (fun a b => by
      simpa using UInt32.le_total (key a) (key b)) zs
  refine List.Perm.eq_of_pairwise (fun a b ha hb hab hba => ?_) (hsorted xs) (hsorted ys)
    (((List.mergeSort_perm _ _).trans h).trans (List.mergeSort_perm _ _).symm)
  have hmem : b ∈ xs := h.mem_iff.mpr ((List.mergeSort_perm _ _).mem_iff.mp hb)
  exact List.inj_on_of_nodup_map hkeys ((List.mergeSort_perm _ _).mem_iff.mp ha) hmem
    (UInt32.le_antisymm (of_decide_eq_true hab) (of_decide_eq_true hba))

namespace Graph

variable {g g' : Graph} {names : List String} {φ : Equiv.Perm NodeId}

theorem Branching.child?_eq_some_iff (hg : g.Branching) {p c : NodeId} {name : String} :
    g.child? p name = some c ↔ g.parent? c = some p ∧ (g.kind p).hasScope ∧ g.name c = name := by
  rw [← and_assoc, ← hg.children]
  constructor
  · intro h
    have hname := List.find?_some h
    exact ⟨List.mem_of_find?_eq_some h, of_decide_eq_true hname⟩
  · rintro ⟨hmem, rfl⟩
    exact find?_name (hg.siblings p) hmem

/-- The graphs are trees that begin with the same chain of packages. The permutation leaves the chain
alone and leads from the other nodes of the first graph to those of the second one. -/
structure Renamed (names : List String) (φ : Equiv.Perm NodeId) (g g' : Graph) : Prop where
  tree : g.Tree
  tree' : g'.Tree
  settings : g'.settings = g.settings
  chain : g.Chain names
  chain' : g'.Chain names
  fixed : ∀ n ≤ names.length, φ n = n
  lt_iff : ∀ n, φ n < g'.size ↔ n < g.size
  node : ∀ n, names.length < n → g'.node (φ n) = (g.node n).rename φ
  apart : g.extensions.Pairwise ExtensionEntry.Apart
  extensions : g'.extensions.Perm (g.extensions.map (ExtensionEntry.rename φ))

namespace Renamed

/-- The way back from the second graph to the first one. -/
theorem symm (h : Renamed names φ g g') : Renamed names φ.symm g' g := by
  have hpast : ∀ n, names.length < n → names.length < φ.symm n := by
    intro n hn
    by_contra hle
    have hfixed := h.fixed _ (Nat.not_lt.mp hle)
    rw [Equiv.apply_symm_apply] at hfixed
    exact hle (hfixed ▸ hn)
  have hback : ∀ n, φ.symm (φ n) = n := φ.symm_apply_apply
  refine ⟨h.tree', h.tree, h.settings.symm, h.chain', h.chain, fun n hn => ?_, fun n => ?_,
    fun n hn => ?_, ?_, ?_⟩
  · rw [Equiv.symm_apply_eq, h.fixed n hn]
  · rw [← h.lt_iff, Equiv.apply_symm_apply]
  · have hnode := h.node _ (hpast n hn)
    rw [Equiv.apply_symm_apply] at hnode
    rw [hnode, Node.rename_rename, Equiv.symm_comp_self, Node.rename_id]
  · refine (h.extensions.pairwise_iff ExtensionEntry.Apart.symm).mpr (List.pairwise_map.mpr ?_)
    exact h.apart.imp fun hab => hab.rename φ
  · have hentry : ExtensionEntry.rename φ.symm ∘ ExtensionEntry.rename φ = id := funext fun e => by
      rw [Function.comp_apply, ExtensionEntry.rename, ExtensionEntry.rename, hback, hback]
      rfl
    have hperm := (h.extensions.map (ExtensionEntry.rename φ.symm)).symm
    rw [List.map_map, hentry, List.map_id] at hperm
    exact hperm

variable (h : Renamed names φ g g')

include h

/-! ### Single nodes -/

theorem map_root : φ root = root :=
  h.fixed root (Nat.zero_le _)

/-- A node is a package of the chain in both graphs, or what it is in the one it is in the other, with
other numbers. -/
theorem kind_cases (n : NodeId) :
    (∃ s s', g.kind n = .package s ∧ g'.kind (φ n) = .package s') ∨
      g'.kind (φ n) = (g.kind n).rename φ := by
  rcases Nat.lt_or_ge names.length n with hlt | hle
  · exact .inr (congrArg Node.kind (h.node n hlt))
  · obtain ⟨s, hs⟩ := exists_scope_of_isPackage (h.chain.package n hle)
    obtain ⟨s', hs'⟩ := exists_scope_of_isPackage (h.chain'.package n hle)
    rw [h.fixed n hle]
    exact .inl ⟨s, s', hs, hs'⟩

theorem name (n : NodeId) : g'.name (φ n) = g.name n := by
  rcases Nat.lt_or_ge names.length n with hlt | hle
  · have hname := congrArg Node.name (h.node n hlt)
    exact hname
  · rw [h.fixed n hle]
    exact (h.chain.head_eq h.chain' hle).1

theorem parent? (n : NodeId) : g'.parent? (φ n) = (g.parent? n).map φ := by
  rcases Nat.lt_or_ge names.length n with hlt | hle
  · exact congrArg Node.parent (h.node n hlt)
  · rw [h.fixed n hle, (h.chain.head_eq h.chain' hle).2]
    cases n with
    | zero => rw [show g.parent? 0 = none from h.chain.parent?_root]; rfl
    | succ i =>
      rw [h.chain.parent? i hle, Option.map_some, h.fixed i (Nat.le_of_succ_le hle)]

theorem isPackage (n : NodeId) : (g'.kind (φ n)).isPackage = (g.kind n).isPackage := by
  obtain ⟨s, s', hs, hs'⟩ | heq := h.kind_cases n
  · rw [hs, hs']
    rfl
  · rw [heq, NodeKind.isPackage_rename]

theorem hasScope (n : NodeId) : (g'.kind (φ n)).hasScope = (g.kind n).hasScope := by
  obtain ⟨s, s', hs, hs'⟩ | heq := h.kind_cases n
  · rw [hs, hs']
    rfl
  · rw [heq, NodeKind.hasScope_rename]

theorem owner? (n : NodeId) : (g'.kind (φ n)).owner? = (g.kind n).owner?.map φ := by
  obtain ⟨s, s', hs, hs'⟩ | heq := h.kind_cases n
  · rw [hs, hs']
    rfl
  · rw [heq, NodeKind.owner?_rename]

theorem ownFields (m : NodeId) : g'.ownFields (φ m) = (g.ownFields m).map φ := by
  rw [ownFields_eq, ownFields_eq]
  obtain ⟨s, s', hs, hs'⟩ | heq := h.kind_cases m
  · rw [hs, hs']
    rfl
  · rw [heq, NodeKind.ownFields_rename]

theorem message? (n : NodeId) : g'.message? (φ n) = (g.message? n).map (MessageNode.rename φ) := by
  rw [Graph.message?, Graph.message?]
  obtain ⟨s, s', hs, hs'⟩ | heq := h.kind_cases n
  · rw [hs, hs']
    rfl
  · rw [heq]
    cases g.kind n <;> rfl

theorem field? (n : NodeId) : g'.field? (φ n) = (g.field? n).map (FieldNode.rename φ) := by
  rw [Graph.field?, Graph.field?]
  obtain ⟨s, s', hs, hs'⟩ | heq := h.kind_cases n
  · rw [hs, hs']
    rfl
  · rw [heq]
    cases g.kind n <;> rfl

theorem hasFieldId (id : UInt32) (n : NodeId) : g'.hasFieldId id (φ n) = g.hasFieldId id n := by
  rw [Graph.hasFieldId, Graph.hasFieldId, h.field?, Option.any_map]
  rfl

/-- A number is taken among the own fields of a message in both graphs. -/
theorem any_hasFieldId (id : UInt32) (m : NodeId) :
    (g'.ownFields (φ m)).any (g'.hasFieldId id) = (g.ownFields m).any (g.hasFieldId id) := by
  rw [h.ownFields, List.any_map]
  exact congrArg _ (funext (h.hasFieldId id))

/-- A node that is no package has the same nodes below it in the same order. -/
theorem children {n : NodeId} (hn : (g.kind n).isPackage = false) :
    g'.children (φ n) = (g.children n).map φ := by
  obtain ⟨s, s', hs, hs'⟩ | heq := h.kind_cases n
  · rw [hs] at hn
    cases hn
  · show (g'.kind (φ n)).children = _
    rw [heq, NodeKind.children_rename]
    rfl

/-- An enum has the same values in the same order. -/
theorem enumValues {n : NodeId} (hn : (g.kind n).isPackage = false) :
    g'.enumValues (φ n) = g.enumValues n := by
  rw [Graph.enumValues, Graph.enumValues, h.children hn, List.filterMap_map]
  refine List.filterMap_congr fun v _ => ?_
  rw [Function.comp_apply, h.name]
  obtain ⟨s, s', hs, hs'⟩ | heq := h.kind_cases v
  · rw [hs, hs']
  · rw [heq]
    cases g.kind v <;> rfl

/-- Any node has the same nodes below it. -/
theorem children_perm (n : NodeId) : (g'.children (φ n)).Perm ((g.children n).map φ) := by
  have hnodup : (g.children n).Nodup := (h.tree.ascending n).imp Nat.ne_of_lt
  have hnodup' : (g'.children (φ n)).Nodup := (h.tree'.ascending (φ n)).imp Nat.ne_of_lt
  refine (List.perm_ext_iff_of_nodup hnodup' (hnodup.map φ.injective)).mpr fun c => ?_
  obtain ⟨d, rfl⟩ := φ.surjective c
  rw [List.mem_map_of_injective φ.injective, h.tree'.children, h.tree.children, h.parent?,
    h.hasScope, Option.map_eq_some_iff]
  simp only [EmbeddingLike.apply_eq_iff_eq, exists_eq_right]

/-! ### Names and paths -/

theorem child? (p : NodeId) (name : String) :
    g'.child? (φ p) name = (g.child? p name).map φ := by
  refine Option.ext fun c => ?_
  obtain ⟨d, rfl⟩ := φ.surjective c
  rw [h.tree'.child?_eq_some_iff, h.parent?, h.hasScope, h.name, Option.map_eq_some_iff,
    Option.map_eq_some_iff]
  simp only [EmbeddingLike.apply_eq_iff_eq, exists_eq_right, h.tree.child?_eq_some_iff]

theorem walk? (start : NodeId) (path : List String) :
    g'.walk? (φ start) path = (g.walk? start path).map φ := by
  induction path generalizing start with
  | nil => rfl
  | cons name more ih =>
    show (g'.child? (φ start) name).bind (g'.walk? · more) =
      ((g.child? start name).bind (g.walk? · more)).map φ
    rw [h.child?]
    cases g.child? start name with
    | none => rfl
    | some c => exact ih c

theorem walkTo? (start : NodeId) (path : List String) (scopesOnly : Bool) :
    g'.walkTo? (φ start) path scopesOnly = (g.walkTo? start path scopesOnly).map φ := by
  rw [Graph.walkTo?, Graph.walkTo?, h.walk?, Option.filter_map]
  simp only [Function.comp_def, h.hasScope]

theorem ancestors (n : NodeId) : g'.ancestors (φ n) = (g.ancestors n).map φ := by
  induction n using Nat.strongRecOn with
  | ind n ih =>
    have hparent := h.parent? n
    cases hp : g.parent? n with
    | none =>
      rw [hp] at hparent
      simp only [Graph.ancestors, ancestorsWithin, hp, hparent, Option.map_none, List.map_cons,
        List.map_nil]
    | some p =>
      rw [hp] at hparent
      rw [h.tree'.ancestors_of_parent? hparent, h.tree.ancestors_of_parent? hp, List.map_cons,
        ih p (h.tree.lt_of_parent? hp).1]

theorem pathTo (n : NodeId) : g'.pathTo (φ n) = g.pathTo n := by
  rw [Graph.pathTo, Graph.pathTo, h.ancestors, List.filter_map, List.map_map]
  have hparent : (fun n => (g'.parent? n).isSome) ∘ φ = fun n => (g.parent? n).isSome :=
    funext fun n => by rw [Function.comp_apply, h.parent?, Option.isSome_map]
  have hname : g'.name ∘ φ = g.name := funext h.name
  rw [hparent, hname]

theorem representative (n : NodeId) : g'.representative (φ n) = φ (g.representative n) := by
  rw [representative_eq, representative_eq, h.owner?, Option.getD_map]

/-- Nodes have the same paths. -/
theorem fqn (n : NodeId) : g'.fqn (φ n) = g.fqn n := by
  rw [Graph.fqn, Graph.fqn, h.representative, h.pathTo]

theorem fieldLabel (n : NodeId) : g'.fieldLabel (φ n) = g.fieldLabel n := by
  rw [fieldLabel_eq, fieldLabel_eq, h.owner?, h.fqn, h.name, Option.isSome_map]

theorem scopeOf (n : NodeId) : g'.scopeOf (φ n) = φ (g.scopeOf n) := by
  rw [Graph.scopeOf, Graph.scopeOf, h.representative, h.parent?]
  cases g.parent? (g.representative n) with
  | none => exact h.map_root.symm
  | some p => rfl

/-- A path leads to the same node in both graphs. -/
theorem resolve? (scope : NodeId) (path : String) (scopesOnly : Bool) :
    g'.resolve? (φ scope) path scopesOnly = (g.resolve? scope path scopesOnly).map φ := by
  have hroot : ∀ names, g'.walkTo? root names scopesOnly =
      (g.walkTo? root names scopesOnly).map φ := fun names => by
    rw [← h.walkTo?, h.map_root]
  rw [Graph.resolve?, Graph.resolve?, apply_ite (Option.map φ), apply_ite (Option.map φ), h.ancestors,
    List.findSome?_map, hroot, List.map_findSome?]
  simp only [Function.comp_def, h.walkTo?]
  rfl

theorem lookup? (path : String) : g'.lookup? path = (g.lookup? path).map φ := by
  have hresolve := h.resolve? root path false
  rw [h.map_root] at hresolve
  rw [Graph.lookup?, Graph.lookup?, apply_ite (Option.map φ), hresolve, Option.map_some, h.map_root]

/-! ### Fields -/

/-- A message has the same extensions, by number. -/
theorem extensionsOf (m : NodeId) : g'.extensionsOf (φ m) = (g.extensionsOf m).map φ := by
  have htarget : (fun e : ExtensionEntry => decide (e.target = φ m)) ∘ ExtensionEntry.rename φ =
      fun e => decide (e.target = m) := funext fun e => by
    simp only [Function.comp_apply, ExtensionEntry.rename, EmbeddingLike.apply_eq_iff_eq]
  have hperm := h.extensions.filter fun e => decide (e.target = φ m)
  rw [List.filter_map, htarget] at hperm
  have hids : (((g.extensions.filter fun e => e.target = m).map (ExtensionEntry.rename φ)).map
      ExtensionEntry.id).Nodup := by
    rw [List.map_map, List.nodup_iff_pairwise_ne, List.pairwise_map]
    refine List.Pairwise.imp_of_mem (fun {a b} ha hb hab heq => hab ⟨?_, heq⟩)
      (h.apart.filter _)
    rw [of_decide_eq_true (List.mem_filter.mp ha).2, of_decide_eq_true (List.mem_filter.mp hb).2]
  rw [Graph.extensionsOf, Graph.extensionsOf, ← List.mergeSort_eq_of_perm hperm.symm hids,
    ← List.map_mergeSort (f := ExtensionEntry.rename φ) fun a _ b _ => rfl, List.map_map,
    List.map_map]
  rfl

/-- A message has the same fields in the same order. -/
theorem allFields (m : NodeId) : g'.allFields (φ m) = (g.allFields m).map φ := by
  rw [Graph.allFields, Graph.allFields, h.ownFields, h.extensionsOf, List.map_append]

theorem slot? (n : NodeId) : g'.slot? (φ n) = (g.slot? n).map (Slot.rename φ) := by
  rw [Graph.slot?, Graph.slot?, h.field?, h.fieldLabel]
  cases hf : g.field? n with
  | none => rfl
  | some f =>
    show (f.link.map (FieldLink.rename φ)).bind _ = (f.link.bind _).map _
    have himplicit := FieldNode.hasImplicitPresence_rename φ f
    cases f.link with
    | none => rfl
    | some l =>
      obtain ⟨type, keyType, packed, default⟩ := l
      have hrule : (f.rename φ).rule = f.rule := rfl
      simp only [himplicit, hrule]
      cases f.rule with
      | map => cases keyType <;> rfl
      | _ => rfl

end Renamed

end Graph

end Protobuf

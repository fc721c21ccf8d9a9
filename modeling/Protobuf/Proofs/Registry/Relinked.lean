import Mathlib
import Protobuf.Proofs.Graph.Renamed
import Protobuf.Proofs.Registry.Closed
import Protobuf.Proofs.Registry.Unlinked

/-!
# Linking under other numbers

Nodes are linked one after the other, but each is judged by the graph as it was before. Only the numbers
that extensions give to fields must not clash, whatever extension comes first. So a graph is linked if
each node can be linked by itself and no two extensions clash, and the order of the nodes does not
matter. Therefore, graphs that are the same up to the numbers of their nodes are linked alike.

## Main definitions

* `Graph.LinkedEach` — every node is linked by itself.

## Main results

* `Graph.linkNode_eq_ok` — what has been found before matters for clashes only
* `Graph.exists_linkedEach_of_link`, `Graph.exists_link_of_each` — a graph is linked node by node
* `Graph.Renamed.link` — graphs that are the same up to numbers are linked alike
-/

namespace Protobuf

namespace Graph

variable {g g' G : Graph}

/-! ### Nodes by themselves -/

section Found

variable {α : Type} {x y : α} {found after : List ExtensionEntry}

/-- Where nothing is found, what has been found before stays as it was. -/
theorem ok_found_iff : (Except.ok (x, found) : Except SchemaError _) = .ok (y, after) ↔
    ∃ new, (Except.ok (x, []) : Except SchemaError _) = .ok (y, new) ∧ after = found ++ new ∧
      ∀ a ∈ found, ∀ b ∈ new, a.Apart b := by
  constructor
  · intro h
    cases h
    exact ⟨[], rfl, (List.append_nil _).symm, nofun⟩
  · rintro ⟨new, hnew, rfl, -⟩
    cases hnew
    rw [List.append_nil]

theorem error_found_iff {e : SchemaError} : (Except.error e : Except SchemaError _) = .ok (y, after) ↔
    ∃ new, (Except.error e : Except SchemaError _) = .ok (y, new) ∧ after = found ++ new ∧
      ∀ a ∈ found, ∀ b ∈ new, a.Apart b := by
  simp

/-- An entry is found where it does not clash with what has been found before. -/
theorem ok_found_append_iff {entry : ExtensionEntry} (hapart : ∀ a ∈ found, a.Apart entry) :
    (Except.ok (x, found ++ [entry]) : Except SchemaError _) = .ok (y, after) ↔
      ∃ new, (Except.ok (x, [entry]) : Except SchemaError _) = .ok (y, new) ∧ after = found ++ new ∧
        ∀ a ∈ found, ∀ b ∈ new, a.Apart b := by
  constructor
  · intro h
    cases h
    exact ⟨_, rfl, rfl, fun a ha b hb => List.mem_singleton.mp hb ▸ hapart a ha⟩
  · rintro ⟨new, hnew, rfl, -⟩
    cases hnew
    rfl

end Found

/-- What has been found before matters for clashes only. -/
theorem linkExtension_eq_ok {n : NodeId} {e : ExtensionNode} {found after : List ExtensionEntry}
    {target : Option NodeId} : g.linkExtension n e found = .ok (target, after) ↔
      ∃ new, g.linkExtension n e [] = .ok (target, new) ∧ after = found ++ new ∧
        ∀ a ∈ found, ∀ b ∈ new, a.Apart b := by
  simp only [linkExtension]
  cases g.resolve? (g.scopeOf n) e.extendee true with
  | none =>
    dsimp only
    split
    · exact ok_found_iff
    · exact error_found_iff
  | some t =>
    dsimp only
    cases g.message? t with
    | none => exact error_found_iff
    | some m =>
      dsimp only
      cases g.field? e.field with
      | none => exact ok_found_iff
      | some f =>
        dsimp only
        cases m.acceptsExtension f.id with
        | false => exact error_found_iff
        | true =>
          cases (g.ownFields t).any (g.hasFieldId f.id) with
          | true => exact error_found_iff
          | false =>
            have hclash : found.any (fun x => x.target = t ∧ x.id = f.id) = false ↔
                ∀ a ∈ found, a.Apart ⟨t, f.id, e.field⟩ := by
              simp [ExtensionEntry.Apart]
            cases hany : found.any fun x => x.target = t ∧ x.id = f.id with
            | true =>
              -- by itself the extension would be linked, but its number is taken
              refine ⟨fun h => (by cases h), ?_⟩
              rintro ⟨new, hnew, -, hapart⟩
              cases hnew
              rw [hclash.mpr fun a ha => hapart a ha _ List.mem_cons_self] at hany
              cases hany
            | false => exact ok_found_append_iff (hclash.mp hany)

section LinkNode

variable {n : NodeId} (found : List ExtensionEntry)

theorem linkNode_field {f : FieldNode} (h : g.kind n = .field f) : g.linkNode found n =
    (g.linkField n f).map fun l => (.field { f with link := some l }, found) := by
  rw [linkNode, h]
  dsimp only
  cases g.linkField n f <;> rfl

theorem linkNode_method {m : MethodNode} (h : g.kind n = .method m) : g.linkNode found n =
    (g.linkMethod n m).map fun l => (.method { m with link := some l }, found) := by
  rw [linkNode, h]
  dsimp only
  cases g.linkMethod n m <;> rfl

theorem linkNode_extension {e : ExtensionNode} (h : g.kind n = .extension e) : g.linkNode found n =
    (g.linkExtension n e found).map fun x => (.extension { e with target := x.1 }, x.2) := by
  rw [linkNode, h]
  dsimp only
  cases g.linkExtension n e found <;> rfl

theorem linkNode_other (hfield : ∀ f, g.kind n ≠ .field f) (hmethod : ∀ m, g.kind n ≠ .method m)
    (hextension : ∀ e, g.kind n ≠ .extension e) : g.linkNode found n = .ok (g.kind n, found) := by
  rw [linkNode]
  cases hk : g.kind n with
  | field f => exact absurd hk (hfield f)
  | method m => exact absurd hk (hmethod m)
  | extension e => exact absurd hk (hextension e)
  | _ => rfl

theorem linkNode_of_isPackage (h : (g.kind n).isPackage) :
    g.linkNode found n = .ok (g.kind n, found) := by
  obtain ⟨s, hs⟩ := exists_scope_of_isPackage h
  exact linkNode_other found (by simp [hs]) (by simp [hs]) (by simp [hs])

end LinkNode

/-- What has been found before matters for clashes only. -/
theorem linkNode_eq_ok {n : NodeId} {found after : List ExtensionEntry} {k : NodeKind} :
    g.linkNode found n = .ok (k, after) ↔
      ∃ new, g.linkNode [] n = .ok (k, new) ∧ after = found ++ new ∧
        ∀ a ∈ found, ∀ b ∈ new, a.Apart b := by
  have halone : ∀ {α : Type} (x : Except SchemaError α) (kind : α → NodeKind),
      x.map (fun l => (kind l, found)) = .ok (k, after) ↔
        ∃ new, x.map (fun l => (kind l, [])) = .ok (k, new) ∧ after = found ++ new ∧
          ∀ a ∈ found, ∀ b ∈ new, a.Apart b := by
    intro α x kind
    cases x with
    | error e => exact error_found_iff
    | ok l => exact ok_found_iff
  cases hk : g.kind n with
  | field f =>
    rw [linkNode_field _ hk, linkNode_field _ hk]
    exact halone _ _
  | method m =>
    rw [linkNode_method _ hk, linkNode_method _ hk]
    exact halone _ _
  | extension e =>
    simp only [linkNode_extension _ hk, map_eq_ok, Prod.exists, Prod.mk.injEq]
    constructor
    · rintro ⟨target, _, hfound, rfl, rfl⟩
      obtain ⟨new, hnew, hafter⟩ := linkExtension_eq_ok.mp hfound
      exact ⟨new, ⟨target, new, hnew, rfl, rfl⟩, hafter⟩
    · rintro ⟨_, ⟨target, new, hnew, rfl, rfl⟩, hafter⟩
      exact ⟨target, _, linkExtension_eq_ok.mpr ⟨new, hnew, hafter⟩, rfl, rfl⟩
  | _ =>
    rw [linkNode_other found (by simp [hk]) (by simp [hk]) (by simp [hk]),
      linkNode_other [] (by simp [hk]) (by simp [hk]) (by simp [hk])]
    exact halone (.ok ()) fun _ => g.kind n

/-! ### Graphs, node by node -/

/-- Every node is linked by itself, and the extensions that are found do not clash. -/
structure LinkedEach (g : Graph) (new : NodeId → List ExtensionEntry) (G : Graph) : Prop where
  size : G.size = g.size
  settings : G.settings = g.settings
  name : ∀ n, G.name n = g.name n
  parent? : ∀ n, G.parent? n = g.parent? n
  node : ∀ n < g.size, g.linkNode [] n = .ok (G.kind n, new n)
  extensions : G.extensions = (List.range g.size).flatMap new
  apart : G.extensions.Pairwise ExtensionEntry.Apart

/-- A graph that has been linked has been linked node by node. -/
theorem exists_linkedEach_of_link (h : g.link = .ok G) : ∃ new, g.LinkedEach new G := by
  obtain ⟨-, -, hextended, hlinked⟩ := linkedNode_of_link h
  have hsettings := (linkedNode_of_link h).2.1
  rw [link] at h
  obtain ⟨⟨nodes, entries⟩, hfold, h⟩ := bind_eq_ok.mp h
  cases h
  obtain ⟨hsize, found, hfirst, hlast, hnodes⟩ := found_of_foldlM hfold
  have heach : ∀ n, ∃ new, n < g.size →
      g.linkNode [] n = .ok (Graph.kind { g with nodes, extensions := entries } n, new) ∧
        found (n + 1) = found n ++ new := by
    intro n
    by_cases hn : n < g.size
    · obtain ⟨k, hk, hnode⟩ := hnodes n hn
      -- what was found before may refuse the node, but does not change what it becomes
      obtain ⟨new, hnew, hafter, -⟩ := linkNode_eq_ok.mp hk
      refine ⟨new, fun _ => ⟨?_, hafter⟩⟩
      have hkind : Graph.kind { g with nodes, extensions := entries } n = k :=
        congrArg Node.kind hnode
      rw [hkind, hnew]
    · exact ⟨[], fun h => absurd h hn⟩
  choose new hnew using heach
  have hfound : ∀ n ≤ g.size, found n = (List.range n).flatMap new := by
    intro n hn
    induction n with
    | zero => rw [hfirst]; rfl
    | succ n ih =>
      rw [(hnew n hn).2, ih (Nat.le_of_succ_le hn), List.range_succ, List.flatMap_append,
        List.flatMap_singleton]
  exact ⟨new, hsize, hsettings, fun n => (hlinked n).name, fun n => (hlinked n).parent,
    fun n hn => (hnew n hn).1, hlast.symm.trans (hfound _ (Nat.le_refl _)), hextended.apart⟩

/-- The nodes up to some number are linked one after the other if each can be linked and no extensions
clash. -/
theorem exists_foldlM_of_each {kinds : NodeId → NodeKind} {new : NodeId → List ExtensionEntry}
    (hnodes : ∀ n < g.size, g.linkNode [] n = .ok (kinds n, new n))
    (hapart : ((List.range g.size).flatMap new).Pairwise ExtensionEntry.Apart) {count : Nat}
    (hcount : count ≤ g.size) : ∃ nodes : Array Node,
      (List.range count).foldlM (fun (nodes, found) id => do
        let (kind, found) ← g.linkNode found id
        return (nodes.push { g.node id with kind }, found)) ((#[] : Array Node), []) =
          .ok (nodes, (List.range count).flatMap new) := by
  induction count with
  | zero => exact ⟨#[], rfl⟩
  | succ count ih =>
    obtain ⟨nodes, hnodes'⟩ := ih (Nat.le_of_succ_le hcount)
    have hbefore : ((List.range (count + 1)).flatMap new).Sublist
        ((List.range g.size).flatMap new) :=
      (List.range_sublist.mpr hcount).flatMap new
    have hboth := hapart.sublist hbefore
    rw [List.range_succ, List.flatMap_append, List.flatMap_singleton] at hboth ⊢
    have hnode := linkNode_eq_ok.mpr ⟨new count, hnodes count hcount, rfl,
      (List.pairwise_append.mp hboth).2.2⟩
    refine ⟨nodes.push { g.node count with kind := kinds count }, ?_⟩
    rw [List.foldlM_append, hnodes']
    refine bind_eq_ok.mpr ⟨_, rfl, ?_⟩
    rw [List.foldlM_cons]
    exact bind_eq_ok.mpr ⟨_, bind_eq_ok.mpr ⟨_, hnode, rfl⟩, rfl⟩

/-- A graph is linked if every node can be linked and no extensions clash. -/
theorem exists_link_of_each {kinds : NodeId → NodeKind} {new : NodeId → List ExtensionEntry}
    (hnodes : ∀ n < g.size, g.linkNode [] n = .ok (kinds n, new n))
    (hapart : ((List.range g.size).flatMap new).Pairwise ExtensionEntry.Apart) :
    ∃ G, g.link = .ok G := by
  obtain ⟨nodes, hlinked⟩ := exists_foldlM_of_each hnodes hapart (Nat.le_refl _)
  exact ⟨_, bind_eq_ok.mpr ⟨_, hlinked, rfl⟩⟩

theorem isPackage_of_link (h : g.link = .ok G) (n : NodeId) :
    (G.kind n).isPackage = (g.kind n).isPackage := by
  rw [← NodeKind.isPackage_unlinked, ← kind_unlinked, unlinked_of_link h, kind_unlinked,
    NodeKind.isPackage_unlinked]

section Chain

variable {names : List String}

theorem Chain.sameShape (hg : g.Chain names) (h : g.SameShape G)
    (hpackage : ∀ n, (G.kind n).isPackage = (g.kind n).isPackage) : G.Chain names :=
  hg.congr (Nat.le_of_eq h.size.symm) (fun n _ => h.name n) (fun n _ => h.parent? n)
    (fun n _ => hpackage n) fun n _ => h.children n

theorem Chain.link (hg : g.Chain names) (h : g.link = .ok G) : G.Chain names :=
  hg.sameShape (sameShape_of_link h) (isPackage_of_link h)

theorem Chain.unlinked (hg : g.Chain names) : g.unlinked.Chain names :=
  hg.sameShape g.sameShape_unlinked fun n => by
    rw [kind_unlinked, NodeKind.isPackage_unlinked]

end Chain

/-! ### Other numbers -/

namespace Renamed

variable {names : List String} {φ : Equiv.Perm NodeId} (h : Renamed names φ g g')

include h

theorem linkType (label : String) (n : NodeId) (f : FieldNode) :
    g'.linkType label (φ n) (f.rename φ) = (g.linkType label n f).map (FieldType.rename φ) := by
  have hname : (f.rename φ).typeName = f.typeName := rfl
  rw [Graph.linkType, Graph.linkType, hname, h.scopeOf, h.resolve?]
  cases Scalar.ofName? f.typeName with
  | some s => rfl
  | none =>
    cases g.resolve? (g.scopeOf n) f.typeName true with
    | none => rfl
    | some target =>
      rw [Option.map_some]
      dsimp only
      obtain ⟨s, s', hs, hs'⟩ | heq := h.kind_cases target
      · simp only [hs, hs']
        rfl
      · simp only [heq]
        cases g.kind target with
        | message m =>
          have hgroup : (m.rename φ).isGroup = m.isGroup := rfl
          simp only [NodeKind.rename, hgroup]
          cases m.isGroup <;> rfl
        | _ => rfl

/-- Whatever the type of a field, its default is the same. -/
theorem linkDefault {label : String} {n : NodeId} (f : FieldNode) {t : FieldType}
    (ht : g.Names n f.typeName t) :
    g'.linkDefault label (f.rename φ) (t.rename φ) = g.linkDefault label f t := by
  have hvalues : ∀ e, t = .enumeration e → g'.enumValues (φ e) = g.enumValues e := by
    rintro e rfl
    cases ht with
    | enumeration _ _ he => exact h.enumValues (by rw [he]; rfl)
  have hexplicit : ∀ c, g'.explicitDefault (f.rename φ) (t.rename φ) c = g.explicitDefault f t c := by
    intro c
    cases t with
    | enumeration e =>
      have hid : g'.enumId? (φ e) = g.enumId? e := funext fun name => by
        rw [enumId?, enumId?, hvalues e rfl]
      have hhas : g'.enumHas (φ e) = g.enumHas e := funext fun id => by
        rw [enumHas, enumHas, hvalues e rfl]
      have hconstant : g'.constantEnumId? (φ e) c = g.constantEnumId? e c := by
        cases c <;> simp only [constantEnumId?, hid, hhas]
      simp only [explicitDefault, FieldType.rename, hconstant, h.fqn]
      rfl
    | _ => rfl
  have hzero : g'.zero? (t.rename φ) = g.zero? t := by
    cases t with
    | enumeration e => simp only [FieldType.rename, zero?, enumDefault, hvalues e rfl]
    | _ => rfl
  have honeof : (f.rename φ).oneof.isNone = f.oneof.isNone := Option.isNone_map
  simp only [Graph.linkDefault, hexplicit, hzero, honeof]
  rfl

theorem linkField (n : NodeId) (f : FieldNode) :
    g'.linkField (φ n) (f.rename φ) = (g.linkField n f).map (FieldLink.rename φ) := by
  rw [Graph.linkField, Graph.linkField, h.fqn, h.linkType]
  cases htype : g.linkType (g.fqn n) n f with
  | error e => rfl
  | ok t =>
    show (linkKeyType _ f >>= fun _ => _) = Except.map _ (linkKeyType _ f >>= fun _ => _)
    cases linkKeyType (g.fqn n) f with
    | error e => rfl
    | ok keyType =>
      have hpacked : linkPacked (g.fqn n) (f.rename φ) (t.rename φ) = linkPacked (g.fqn n) f t := by
        cases t <;> rfl
      show (linkPacked _ (f.rename φ) (t.rename φ) >>= fun _ => _) =
        Except.map _ (linkPacked _ f t >>= fun _ => _)
      rw [hpacked]
      cases linkPacked (g.fqn n) f t with
      | error e => rfl
      | ok packed =>
        show (g'.linkDefault _ (f.rename φ) (t.rename φ) >>= fun _ => _) =
          Except.map _ (g.linkDefault _ f t >>= fun _ => _)
        rw [h.linkDefault f (names_of_linkType htype)]
        cases g.linkDefault (g.fqn n) f t <;> rfl

theorem linkMessage (n : NodeId) (name : String) :
    g'.linkMessage (φ n) name = (g.linkMessage n name).map φ := by
  rw [Graph.linkMessage, Graph.linkMessage, h.scopeOf, h.resolve?, h.fqn]
  cases g.resolve? (g.scopeOf n) name true with
  | none => rfl
  | some target =>
    dsimp only [Option.map_some]
    rw [h.message?, Option.isSome_map]
    split <;> rfl

theorem linkMethod (n : NodeId) (m : MethodNode) :
    g'.linkMethod (φ n) m = (g.linkMethod n m).map (Prod.map φ φ) := by
  rw [Graph.linkMethod, Graph.linkMethod, h.linkMessage, h.linkMessage]
  cases g.linkMessage n m.requestName with
  | error e => rfl
  | ok request => cases g.linkMessage n m.responseName <;> rfl

theorem linkExtension (n : NodeId) (e : ExtensionNode) :
    g'.linkExtension (φ n) { e with field := φ e.field, target := e.target.map φ } [] =
      (g.linkExtension n e []).map
        (Prod.map (Option.map φ) (List.map (ExtensionEntry.rename φ))) := by
  simp only [Graph.linkExtension, h.scopeOf, h.resolve?, h.fqn]
  cases g.resolve? (g.scopeOf n) e.extendee true with
  | none =>
    dsimp only [Option.map_none]
    split <;> rfl
  | some target =>
    dsimp only [Option.map_some]
    rw [h.message?, h.fqn]
    cases g.message? target with
    | none => rfl
    | some m =>
      dsimp only [Option.map_some]
      rw [h.field?]
      cases g.field? e.field with
      | none => rfl
      | some f =>
        dsimp only [Option.map_some]
        have hopen : (m.rename φ).acceptsExtension (f.rename φ).id = m.acceptsExtension f.id := rfl
        have hid : (f.rename φ).id = f.id := rfl
        rw [hopen, hid, h.any_hasFieldId]
        simp only [List.any_nil]
        cases m.acceptsExtension f.id with
        | false => rfl
        | true => cases (g.ownFields target).any (g.hasFieldId f.id) <;> rfl

/-- A node past the chain is linked in the second graph as it is in the first one. -/
theorem linkNode {n : NodeId} (hn : names.length < n) : g'.linkNode [] (φ n) =
    (g.linkNode [] n).map (Prod.map (NodeKind.rename φ) (List.map (ExtensionEntry.rename φ))) := by
  have hkind : g'.kind (φ n) = (g.kind n).rename φ := congrArg Node.kind (h.node n hn)
  cases hk : g.kind n with
  | field f =>
    rw [hk] at hkind
    rw [linkNode_field _ hk, linkNode_field _ hkind, h.linkField]
    cases g.linkField n f <;> rfl
  | method m =>
    rw [hk] at hkind
    have hmethod := h.linkMethod n m
    rw [linkNode_method _ hk, linkNode_method _ hkind]
    show (g'.linkMethod (φ n) m).map _ = _
    rw [hmethod]
    cases g.linkMethod n m <;> rfl
  | extension e =>
    rw [hk] at hkind
    rw [linkNode_extension _ hk, linkNode_extension _ hkind, h.linkExtension]
    cases g.linkExtension n e [] <;> rfl
  | _ =>
    rw [hk] at hkind
    rw [linkNode_other (g := g) [] (by simp [hk]) (by simp [hk]) (by simp [hk]),
      linkNode_other (g := g') [] (by simp [hkind, NodeKind.rename])
        (by simp [hkind, NodeKind.rename]) (by simp [hkind, NodeKind.rename]), hkind, hk]
    rfl

/-- The nodes of the second graph, in some order. -/
theorem range_perm : (List.range g'.size).Perm ((List.range g.size).map φ) := by
  refine (List.perm_ext_iff_of_nodup List.nodup_range
    (List.nodup_range.map φ.injective)).mpr fun m => ?_
  obtain ⟨n, rfl⟩ := φ.surjective m
  rw [List.mem_map_of_injective φ.injective, List.mem_range, List.mem_range, h.lt_iff]

section Each

variable {new : NodeId → List ExtensionEntry}

/-- What becomes of a node in the second graph, and what it adds. -/
theorem linkNode_of_each (heach : g.LinkedEach new G) {n : NodeId} (hn : n < g.size) :
    g'.linkNode [] (φ n) = .ok (if names.length < n then (G.kind n).rename φ else g'.kind (φ n),
      (new n).map (ExtensionEntry.rename φ)) := by
  have hlinked := heach.node n hn
  split
  · rename_i hpast
    rw [h.linkNode hpast, hlinked]
    rfl
  · rename_i hhead
    have hpackage := h.chain.package n (Nat.not_lt.mp hhead)
    rw [linkNode_of_isPackage [] hpackage] at hlinked
    rw [linkNode_of_isPackage [] ((h.isPackage n).trans hpackage),
      ← (Prod.mk.inj (Except.ok.inj hlinked)).2]
    rfl

/-- The same extensions are found in the second graph, in some order. -/
theorem extensions_perm (heach : g.LinkedEach new G) : ((List.range g'.size).flatMap fun m =>
    (new (φ.symm m)).map (ExtensionEntry.rename φ)).Perm
      (G.extensions.map (ExtensionEntry.rename φ)) := by
  refine (h.range_perm.flatMap_right _).trans ?_
  rw [List.flatMap_map, heach.extensions, List.map_flatMap]
  simp only [φ.symm_apply_apply]
  rfl

theorem exists_link (heach : g.LinkedEach new G) : ∃ G', g'.link = .ok G' := by
  have hapart : (G.extensions.map (ExtensionEntry.rename φ)).Pairwise ExtensionEntry.Apart :=
    List.pairwise_map.mpr (heach.apart.imp fun hab => hab.rename φ)
  have hnode : ∀ m < g'.size, g'.linkNode [] m =
      .ok (if names.length < φ.symm m then (G.kind (φ.symm m)).rename φ else g'.kind m,
        (new (φ.symm m)).map (ExtensionEntry.rename φ)) := by
    intro m hm
    obtain ⟨n, rfl⟩ := φ.surjective m
    rw [h.linkNode_of_each heach ((h.lt_iff n).mp hm), φ.symm_apply_apply]
  exact exists_link_of_each hnode
    (((h.extensions_perm heach).pairwise_iff ExtensionEntry.Apart.symm).mpr hapart)

end Each

/-- Graphs that are the same up to the numbers of their nodes are linked alike. -/
theorem link (hG : g.link = .ok G) : ∃ G', g'.link = .ok G' ∧ Renamed names φ G G' := by
  obtain ⟨new, heach⟩ := exists_linkedEach_of_link hG
  obtain ⟨G', hG'⟩ := h.exists_link heach
  obtain ⟨new', heach'⟩ := exists_linkedEach_of_link hG'
  have hsame : ∀ n < g.size, G'.kind (φ n) =
      (if names.length < n then (G.kind n).rename φ else g'.kind (φ n)) ∧
        new' (φ n) = (new n).map (ExtensionEntry.rename φ) := by
    intro n hn
    have hlinked := heach'.node (φ n) ((h.lt_iff n).mpr hn)
    rw [h.linkNode_of_each heach hn] at hlinked
    obtain ⟨hkind, hnew⟩ := Prod.mk.inj (Except.ok.inj hlinked)
    exact ⟨hkind.symm, hnew.symm⟩
  refine ⟨G', hG', h.tree.congr (sameShape_of_link hG), h.tree'.congr (sameShape_of_link hG'), ?_,
    h.chain.link hG, h.chain'.link hG', h.fixed, fun n => ?_, fun n hn => ?_, heach.apart, ?_⟩
  · rw [heach'.settings, heach.settings, h.settings]
  · rw [heach'.size, heach.size, h.lt_iff]
  · rw [node_eq, node_eq (g := G), heach'.name, heach'.parent?, heach.name, heach.parent?, h.name,
      h.parent?]
    rcases Nat.lt_or_ge n g.size with hlt | hle
    · rw [(hsame n hlt).1, if_pos hn]
      rfl
    · -- behind the last node there is nothing in either graph
      have hkind : G.kind n = .package {} := kind_of_size_le (heach.size.symm ▸ hle)
      have hkind' : G'.kind (φ n) = .package {} := by
        refine kind_of_size_le (heach'.size.symm ▸ Nat.not_lt.mp fun hlt => ?_)
        exact Nat.not_lt.mpr hle ((h.lt_iff n).mp hlt)
      rw [hkind, hkind']
      rfl
  · refine List.Perm.trans (List.Perm.of_eq ?_) (h.extensions_perm heach)
    rw [heach'.extensions]
    refine List.flatMap_congr fun m hm => ?_
    obtain ⟨n, rfl⟩ := φ.surjective m
    rw [φ.symm_apply_apply, (hsame n ((h.lt_iff n).mp (List.mem_range.mp hm))).2]

end Renamed

end Graph

end Protobuf

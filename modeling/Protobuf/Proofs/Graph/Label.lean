import Protobuf.Graph.Name
import Protobuf.Proofs.Graph.Linked
import Protobuf.Proofs.Graph.Step

/-!
# Paths and labels

A node is found again by walking down the names on the way to it, for the names of siblings differ.
If no name has a dot, these names can be read off the path of the node, so different nodes have
different paths; only the field of an extension shares that of its extension. So each field of a
message is found by the label under which the message knows it.

## Main results

* `Graph.Tree.walk?_pathTo` — the names on the way to a node lead to the node
* `Graph.Tree.eq_of_fqn_eq` — nodes can be told by their paths
* `Graph.Linked.fieldByName?_fieldLabel` — a field is found by its label
* `Graph.SameShape.resolve?` — what a path refers to is a matter of the shape
-/

namespace Protobuf.Graph

variable {g : Graph}

/-! ### Ancestors -/

/-- There are no more ancestors than the number of a node says. -/
theorem Branching.ancestorsWithin_eq (hg : g.Branching) {fuel fuel' n : Nat} (h : n < fuel)
    (h' : n < fuel') : g.ancestorsWithin fuel n = g.ancestorsWithin fuel' n := by
  induction fuel generalizing fuel' n with
  | zero => omega
  | succ fuel ih =>
    cases fuel' with
    | zero => omega
    | succ fuel' =>
      rw [ancestorsWithin, ancestorsWithin]
      cases hp : g.parent? n with
      | none => rfl
      | some p =>
        have hlt := (hg.lt_of_parent? hp).1
        show n :: g.ancestorsWithin fuel p = n :: g.ancestorsWithin fuel' p
        rw [ih (Nat.lt_of_lt_of_le hlt (Nat.le_of_lt_succ h))
          (Nat.lt_of_lt_of_le hlt (Nat.le_of_lt_succ h'))]

theorem Branching.ancestors_of_parent? (hg : g.Branching) {n p : NodeId}
    (h : g.parent? n = some p) : g.ancestors n = n :: g.ancestors p := by
  rw [ancestors, ancestorsWithin, h, ancestors]
  show n :: g.ancestorsWithin n p = _
  rw [hg.ancestorsWithin_eq (hg.lt_of_parent? h).1 (Nat.lt_succ_self p)]

theorem Branching.pathTo_of_parent? (hg : g.Branching) {n p : NodeId}
    (h : g.parent? n = some p) : g.pathTo n = g.pathTo p ++ [g.name n] := by
  rw [pathTo, hg.ancestors_of_parent? h, List.filter_cons, if_pos (by rw [h]; rfl), List.map_cons,
    List.reverse_cons]
  rfl

theorem pathTo_of_parent?_eq_none {n : NodeId} (h : g.parent? n = none) : g.pathTo n = [] := by
  simp [pathTo, ancestors, ancestorsWithin, h]

theorem mem_pathTo {n : NodeId} {name : String} (h : name ∈ g.pathTo n) : ∃ m, g.name m = name := by
  rw [pathTo, List.mem_reverse, List.mem_map] at h
  obtain ⟨m, -, hm⟩ := h
  exact ⟨m, hm⟩

/-! ### Walks -/

/-- Among nodes of different names, each is found by its name. -/
theorem find?_name {nodes : List NodeId} (h : nodes.Pairwise fun a b => g.name a ≠ g.name b)
    {n : NodeId} (hn : n ∈ nodes) : nodes.find? (fun c => g.name c = g.name n) = some n := by
  obtain ⟨before, after, rfl⟩ := List.append_of_mem hn
  obtain ⟨-, -, hbefore⟩ := List.pairwise_append.mp h
  rw [List.find?_append, List.find?_eq_none.mpr, Option.none_or, List.find?_cons_of_pos (by simp)]
  intro c hc
  simpa using hbefore c hc n List.mem_cons_self

theorem Branching.child?_eq_some (hg : g.Branching) {p n : NodeId} (h : g.parent? n = some p)
    (hscope : (g.kind p).hasScope) : g.child? p (g.name n) = some n :=
  find?_name (hg.siblings p) ((hg.children p n).mpr ⟨h, hscope⟩)

theorem walk?_concat (start : NodeId) (path : List String) (name : String) :
    g.walk? start (path ++ [name]) = (g.walk? start path).bind (g.child? · name) := by
  rw [walk?, List.foldlM_append]
  refine Option.bind_congr ?_
  intro n _
  exact bind_pure _

namespace Tree

/-- A node that is not the field of an extension hangs below a scope, if it is not the root. -/
theorem hasScope_of_parent? (hg : g.Tree) {n p : NodeId} (h : g.parent? n = some p)
    (hn : (g.kind n).owner? = none) : (g.kind p).hasScope := by
  rcases hg.below n p h with hscope | howned
  · exact hscope
  · rw [(hg.owned p n howned).2] at hn
    cases hn

/-- The names on the way to a node lead to the node. -/
theorem walk?_pathTo (hg : g.Tree) {n : NodeId} (hn : n < g.size)
    (howner : (g.kind n).owner? = none) : g.walk? root (g.pathTo n) = some n := by
  induction n using Nat.strongRecOn with
  | ind n ih =>
    by_cases hroot : n = root
    · subst hroot
      rw [pathTo_of_parent?_eq_none hg.parent?_root]
      rfl
    · obtain ⟨p, hlt, hp⟩ := hg.parent n hn hroot
      have hscope := hg.hasScope_of_parent? hp howner
      have howner' : (g.kind p).owner? = none := NodeKind.owner?_of_hasScope hscope
      rw [hg.pathTo_of_parent? hp, walk?_concat, ih p hlt (Nat.lt_trans hlt hn) howner']
      exact hg.child?_eq_some hp hscope

/-- The names on the way to a node have characters, but no dots. -/
theorem proper_pathTo (hg : g.Tree) (hnames : g.PlainNames) (hnamed : g.NamedNodes) {n : NodeId}
    (hn : n < g.size) : ∀ name ∈ g.pathTo n, Path.Proper name := by
  induction n using Nat.strongRecOn with
  | ind n ih =>
    by_cases hroot : n = root
    · subst hroot
      rw [pathTo_of_parent?_eq_none hg.parent?_root]
      simp
    · obtain ⟨p, hlt, hp⟩ := hg.parent n hn hroot
      rw [hg.pathTo_of_parent? hp]
      refine List.forall_mem_append.mpr ⟨ih p hlt (Nat.lt_trans hlt hn), ?_⟩
      exact List.forall_mem_singleton.mpr ⟨hnames n, hnamed n (Nat.pos_of_ne_zero hroot) hn⟩

end Tree

/-! ### Paths -/

theorem owner?_eq (n : NodeId) : (g.kind n).owner? = (g.field? n).bind FieldNode.extension := by
  rw [field?]
  cases g.kind n <;> rfl

theorem representative_eq (n : NodeId) : g.representative n = (g.kind n).owner?.getD n := by
  rw [representative, owner?_eq]

theorem fqn_eq (n : NodeId) : g.fqn n = Path.dotted (g.pathTo (g.representative n)) :=
  rfl

theorem Tree.representative_spec (hg : g.Tree) {n : NodeId} (hn : n < g.size) :
    g.representative n < g.size ∧ (g.kind (g.representative n)).owner? = none := by
  rw [representative_eq]
  cases howner : (g.kind n).owner? with
  | none => exact ⟨hn, howner⟩
  | some x =>
    have howned := hg.owner n x howner
    exact ⟨lt_size_of_owned? howned, NodeKind.owner?_of_owned? howned⟩

theorem PlainNames.pathTo (hnames : g.PlainNames) (n : NodeId) :
    ∀ name ∈ g.pathTo n, Path.Plain name := by
  intro name hname
  obtain ⟨m, rfl⟩ := mem_pathTo hname
  exact hnames m

/-- Nodes of the same path are the same, or the field of an extension and the extension. -/
theorem Tree.eq_of_fqn_eq (hg : g.Tree) (hnames : g.PlainNames) {a b : NodeId} (ha : a < g.size)
    (hb : b < g.size) (h : g.fqn a = g.fqn b) : g.representative a = g.representative b := by
  obtain ⟨halt, haowner⟩ := hg.representative_spec ha
  obtain ⟨hblt, hbowner⟩ := hg.representative_spec hb
  have hpath := Path.dotted_inj (hnames.pathTo _) (hnames.pathTo _) h
  have hwalk := hg.walk?_pathTo halt haowner
  rw [hpath, hg.walk?_pathTo hblt hbowner] at hwalk
  exact (Option.some.inj hwalk).symm

/-! ### Labels -/

theorem fieldLabel_eq (n : NodeId) :
    g.fieldLabel n = if (g.kind n).owner?.isSome then g.fqn n else g.name n := by
  rw [fieldLabel, owner?_eq]

theorem isMessage_of_mem_ownFields {m n : NodeId} (h : n ∈ g.ownFields m) :
    (g.kind m).isMessage := by
  rw [ownFields_eq] at h
  by_contra hm
  rw [NodeKind.ownFields_of_isMessage (Bool.eq_false_iff.mpr hm)] at h
  cases h

namespace Tree

theorem parent?_of_mem_ownFields (hg : g.Tree) {m n : NodeId} (h : n ∈ g.ownFields m) :
    g.parent? n = some m := by
  rw [hg.fields m (isMessage_of_mem_ownFields h)] at h
  exact ((hg.children m n).mp (List.mem_of_mem_filter h)).1

/-- A field of a message of its own belongs to no extension. -/
theorem owner?_of_mem_ownFields (hg : g.Tree) {m n : NodeId} (h : n ∈ g.ownFields m) :
    (g.kind n).owner? = none := by
  cases howner : (g.kind n).owner? with
  | none => rfl
  | some x =>
    have howned := hg.owner n x howner
    have hparent := (hg.owned x n howned).1
    rw [hg.parent?_of_mem_ownFields h] at hparent
    cases hparent
    have hscope := NodeKind.hasScope_of_isMessage (isMessage_of_mem_ownFields h)
    rw [NodeKind.owned?_of_hasScope hscope] at howned
    cases howned

/-- A field of a message of its own is found by its name. -/
theorem find?_ownFields (hg : g.Tree) {m n : NodeId} (h : n ∈ g.ownFields m) :
    (g.ownFields m).find? (fun c => g.name c = g.name n) = some n := by
  refine find?_name ?_ h
  rw [hg.fields m (isMessage_of_mem_ownFields h)]
  exact (hg.siblings m).filter _

/-- The path of a field that an extension adds begins with a dot. -/
theorem exists_fqn_of_owner? (hg : g.Tree) {n x : NodeId} (h : (g.kind n).owner? = some x) :
    ∃ rest, Path.anchored? (g.fqn n) = some rest := by
  have howned := hg.owner n x h
  have hroot : x ≠ root := by
    rintro rfl
    rw [NodeKind.owned?_of_hasScope hg.root.2] at howned
    cases howned
  obtain ⟨p, -, hp⟩ := hg.parent x (lt_size_of_owned? howned) hroot
  rw [fqn_eq, representative_eq, h, Option.getD_some, hg.pathTo_of_parent? hp]
  cases g.pathTo p with
  | nil => exact ⟨_, Path.anchored?_dotted _ _⟩
  | cons name more => exact ⟨_, Path.anchored?_dotted _ _⟩

end Tree

namespace Linked

theorem exists_owner?_of_mem_extensionsOf (hg : g.Linked) (ht : g.Tree) {m n : NodeId}
    (h : n ∈ g.extensionsOf m) : ∃ x, (g.kind x).owned? = some n ∧ (g.kind n).owner? = some x := by
  obtain ⟨e, he, -, rfl⟩ := mem_extensionsOf.mp h
  obtain ⟨x, hx⟩ := hg.extended.owned e he
  exact ⟨x, hx, (ht.owned x _ hx).2⟩

/-- A field that an extension adds is found by its path, with or without the leading dot, unless a
field of the message of its own has that name. -/
theorem fieldByName?_of_extension (hg : g.Linked) (ht : g.Tree) (hnames : g.PlainNames)
    {m n : NodeId} (h : n ∈ g.extensionsOf m) {name : String}
    (hname : Path.anchored? (g.fqn n) = some (Path.unanchored name))
    (hown : ∀ c ∈ g.ownFields m, g.name c ≠ name) : g.fieldByName? m name = some n := by
  have hnone : (g.ownFields m).find? (fun c => g.name c = name) = none :=
    List.find?_eq_none.mpr fun c hc => by simpa using hown c hc
  have hunique : ∀ c ∈ g.extensionsOf m,
      Path.anchored? (g.fqn c) = some (Path.unanchored name) → c = n := by
    intro c hc hcname
    obtain ⟨x, hx, hxowner⟩ := hg.exists_owner?_of_mem_extensionsOf ht h
    obtain ⟨y, hy, hyowner⟩ := hg.exists_owner?_of_mem_extensionsOf ht hc
    have hfqn : g.fqn c = g.fqn n :=
      (Path.anchored?_eq_some.mp hcname).trans (Path.anchored?_eq_some.mp hname).symm
    have hlt : ∀ {x n : NodeId}, (g.kind x).owned? = some n → n < g.size :=
      fun hx => lt_size_of_parent? (ht.owned _ _ hx).1
    have heq := ht.eq_of_fqn_eq hnames (hlt hy) (hlt hx) hfqn
    rw [representative_eq, representative_eq, hyowner, hxowner] at heq
    have hxy : y = x := heq
    rw [hxy, hx] at hy
    exact (Option.some.inj hy).symm
  rw [fieldByName?, hnone]
  show (g.extensionsOf m).find? _ = some n
  obtain ⟨c, hc⟩ : ∃ c, (g.extensionsOf m).find? (fun f =>
      decide (Path.anchored? (g.fqn f) = some (Path.unanchored name))) = some c :=
    Option.isSome_iff_exists.mp (List.find?_isSome.mpr ⟨n, h, decide_eq_true hname⟩)
  have hfound := List.find?_some hc
  rw [hc, hunique c (List.mem_of_find?_eq_some hc) (of_decide_eq_true hfound)]

/-- A field of a message is found by its label. -/
theorem fieldByName?_fieldLabel (hg : g.Linked) (ht : g.Tree) (hnames : g.PlainNames)
    {m n : NodeId} (h : n ∈ g.allFields m) : g.fieldByName? m (g.fieldLabel n) = some n := by
  rcases mem_allFields.mp h with h | h
  · have hlabel : g.fieldLabel n = g.name n := by
      rw [fieldLabel_eq, ht.owner?_of_mem_ownFields h]
      rfl
    rw [hlabel, fieldByName?, ht.find?_ownFields h]
    rfl
  · obtain ⟨x, -, howner⟩ := hg.exists_owner?_of_mem_extensionsOf ht h
    obtain ⟨rest, hrest⟩ := ht.exists_fqn_of_owner? howner
    rw [fieldLabel_eq, howner]
    refine hg.fieldByName?_of_extension ht hnames h ?_ ?_
    · show Path.anchored? (g.fqn n) = some ((Path.anchored? (g.fqn n)).getD (g.fqn n))
      rw [hrest]
      rfl
    · -- The name of a field has no dots, but the path begins with one.
      intro c _ hc
      have hdot := hnames c
      rw [hc] at hdot
      refine hdot ?_
      show '.' ∈ (g.fqn n).toList
      rw [Path.anchored?_eq_some.mp hrest, String.toList_append]
      simp

/-- A field that an extension adds is found by its label without the leading dot as well, unless a
field of the message of its own has that name. -/
theorem fieldByName?_unanchored (hg : g.Linked) (ht : g.Tree) (hnames : g.PlainNames)
    (hnamed : g.NamedNodes) {m n : NodeId} (h : n ∈ g.extensionsOf m)
    (hown : ∀ c ∈ g.ownFields m, g.name c ≠ Path.unanchored (g.fieldLabel n)) :
    g.fieldByName? m (Path.unanchored (g.fieldLabel n)) = some n := by
  obtain ⟨x, hx, howner⟩ := hg.exists_owner?_of_mem_extensionsOf ht h
  have hlabel : g.fieldLabel n = g.fqn n := by
    rw [fieldLabel_eq, howner]
    rfl
  rw [hlabel] at hown ⊢
  obtain ⟨rest, hrest⟩ := ht.exists_fqn_of_owner? howner
  have hproper := ht.proper_pathTo hnames hnamed
    (ht.representative_spec (lt_size_of_parent? (ht.owned x n hx).1)).1
  have hdots := Path.unanchored_unanchored_dotted hproper
  rw [← fqn_eq] at hdots
  refine hg.fieldByName?_of_extension ht hnames h ?_ hown
  rw [hdots, Path.unanchored, hrest]
  rfl

end Linked

/-! ### Graphs of the same shape -/

section Shape

variable {g' : Graph}

theorem SameShape.ancestorsWithin (h : g.SameShape g') (fuel : Nat) (n : NodeId) :
    g'.ancestorsWithin fuel n = g.ancestorsWithin fuel n := by
  induction fuel generalizing n with
  | zero => rfl
  | succ fuel ih =>
    rw [Graph.ancestorsWithin, Graph.ancestorsWithin, h.parent?]
    cases g.parent? n with
    | none => rfl
    | some p => exact congrArg (n :: ·) (ih p)

theorem SameShape.scopeOf (h : g.SameShape g') (n : NodeId) : g'.scopeOf n = g.scopeOf n := by
  rw [Graph.scopeOf, Graph.scopeOf, representative_eq, representative_eq, (h.like n).owner?,
    h.parent?]

theorem SameShape.child? (h : g.SameShape g') (p : NodeId) (name : String) :
    g'.child? p name = g.child? p name := by
  simp only [Graph.child?, h.children, h.name]

/-- A path refers to the same node in graphs of the same shape. -/
theorem SameShape.resolve? (h : g.SameShape g') (scope : NodeId) (path : String)
    (scopesOnly : Bool) : g'.resolve? scope path scopesOnly = g.resolve? scope path scopesOnly := by
  have hchild : g'.child? = g.child? := funext fun p => funext (h.child? p)
  have hwalkTo : ∀ start names, g'.walkTo? start names scopesOnly =
      g.walkTo? start names scopesOnly := by
    intro start names
    simp only [walkTo?, Graph.walk?, hchild, (h.like _).hasScope]
  simp only [Graph.resolve?, hwalkTo, ancestors, h.ancestorsWithin]

/-- A node has the same path in graphs of the same shape. -/
theorem SameShape.fqn (h : g.SameShape g') (n : NodeId) : g'.fqn n = g.fqn n := by
  simp only [Graph.fqn, pathTo, ancestors, h.ancestorsWithin, representative_eq,
    (h.like n).owner?, h.parent?, funext h.name]

end Shape

end Protobuf.Graph

import Mathlib
import Protobuf.Proofs.Graph.Member
import Protobuf.Proofs.Registry.Built

/-!
# What the graph of a registry looks like

The graph of a registry is a tree in which everything is listed where it belongs, whatever actions
have made it: definitions put together by a program or read from texts, refused midway or not. The
lists of children, of fields and oneofs, and of the members of oneofs say no more and no less than
the nodes themselves.

## Main definitions

* `Graph.Up` — one step up to the parent.
* `Graph.Faithful` — the lists in a graph and the nodes say the same.

## Main results

* `Graph.Branching.walk` — the way up from a node leads to the root
* `Registry.Built.faithful` — the graph of any registry is faithful
-/

namespace Protobuf

namespace Graph

theorem lasting_enlisted :
    Lasting False (fun g => g.Tree ∧ g.Enlisted) fun g => g.Tree ∧ g.Enlisted where
  stable := stable_enlisted
  empty settings := ⟨tree_empty settings, enlisted_empty settings⟩
  mapScope := by
    rintro g ⟨htree, hg⟩ id change hchange
    have hshape := sameShape_mapScope (g := g) id hchange
    refine ⟨htree.congr hshape, hg.congr hshape fun o => ?_⟩
    rw [kind_mapKind]
    split
    · exact NodeKind.members_mapScope _ _
    · rfl
  link := by
    rintro g g' ⟨htree, hg⟩ h
    obtain ⟨-, -, hkinds⟩ := linkedKind_of_link h
    have hshape := sameShape_of_link h
    have hmembers : ∀ o, (g'.kind o).members = (g.kind o).members := by
      intro o
      rw [members_eq, members_eq, (linkedKind_other hkinds o).1]
    exact ⟨⟨htree.congr hshape, hg.congr hshape hmembers⟩, htree.congr hshape,
      hg.congr hshape hmembers⟩

theorem lasting_numbered : Lasting False Numbered Numbered where
  stable := stable_numbered
  empty := numbered_empty
  mapScope hg id change _ := hg.congr (fun n => congrArg _ (field?_mapScope id change n))
    (ownFields_mapScope id change)
  link := by
    intro g g' hg h
    obtain ⟨-, -, hkinds⟩ := linkedKind_of_link h
    have hlinked := hg.congr (unlinked_field? hkinds) fun n => (linkedKind_other hkinds n).2
    exact ⟨hlinked, hlinked⟩

/-- The second node is the parent of the first one. -/
def Up (g : Graph) (n p : NodeId) : Prop :=
  g.parent? n = some p

/-- The lists in a graph and the nodes say the same.

* `root`, `parent`, `walk`: every node but the root has a parent that was there before it, so that
  every way up, however far it has been gone, leads on to the root.
* `listed`, `ordered`, `named`: a node is listed once by its parent if the parent has a scope, and
  nowhere else; lists are in order of declaration, and names differ in them.
* `message`, `numbered`: a message has the fields and oneofs that are its children, and the numbers
  of its fields differ.
* `oneof`, `member`: a oneof lists the fields of its message that name it, which hold single values,
  and other fields do not name it.
* `extension`, `owner`: an extension has a field, and the two refer to each other. -/
structure Faithful (g : Graph) : Prop where
  root : Graph.root < g.size ∧ g.parent? Graph.root = none
  parent : ∀ n < g.size, n ≠ Graph.root → ∃ p < n, g.parent? n = some p
  walk : ∀ n m, n < g.size → Relation.ReflTransGen g.Up n m →
    Relation.ReflTransGen g.Up m Graph.root
  listed : ∀ p n, (g.children p).count n =
    if g.parent? n = some p ∧ (g.kind p).hasScope then 1 else 0
  ordered : ∀ p, (g.children p).Pairwise (· < ·)
  named : ∀ p, (g.children p).Pairwise fun a b => g.name a ≠ g.name b
  message : ∀ m content, g.message? m = some content →
    content.fields = (g.children m).filter (fun n => (g.field? n).isSome) ∧
      content.oneofs = (g.children m).filter fun n => (g.oneof? n).isSome
  numbered : ∀ m content, g.message? m = some content → content.fields.Pairwise g.DifferentIds
  oneof : ∀ o content, g.oneof? o = some content → ∃ m message, g.parent? o = some m ∧
    g.message? m = some message ∧
    content.fields = message.fields.filter (fun n => (g.field? n).any fun f => f.oneof = some o) ∧
    ∀ n ∈ content.fields, ∃ f, g.field? n = some f ∧ f.rule ≠ .repeated ∧ f.rule ≠ .map
  member : ∀ n f o, g.field? n = some f → f.oneof = some o →
    (g.oneof? o).isSome ∧ g.parent? n = g.parent? o
  extension : ∀ x e, g.kind x = .extension e → ∃ f, g.field? e.field = some f ∧
    f.extension = some x ∧ g.parent? e.field = some x
  owner : ∀ n f x, g.field? n = some f → f.extension = some x → ∃ e, g.kind x = .extension e ∧
    e.field = n

variable {g : Graph}

/-! ### Ways up -/

/-- Parents come first, so the way up cannot go on for ever. -/
theorem Branching.walk (hg : g.Branching) {n : NodeId} (h : n < g.size) :
    Relation.ReflTransGen g.Up n Graph.root := by
  induction n using Nat.strongRecOn with
  | ind n ih =>
    by_cases hroot : n = Graph.root
    · rw [hroot]
    · obtain ⟨p, hp, hparent⟩ := hg.parent n h hroot
      exact .head hparent (ih p hp (Nat.lt_trans hp h))

theorem Branching.lt_size_of_walk (hg : g.Branching) {n m : NodeId} (h : n < g.size)
    (hwalk : Relation.ReflTransGen g.Up n m) : m < g.size := by
  induction hwalk with
  | refl => exact h
  | tail _ hup ih => exact Nat.lt_trans (hg.lt_of_parent? hup).1 ih

/-! ### Lists -/

theorem Branching.count_children (hg : g.Branching) (p n : NodeId) :
    (g.children p).count n = if g.parent? n = some p ∧ (g.kind p).hasScope then 1 else 0 := by
  have hnodup : (g.children p).Nodup := (hg.ascending p).imp Nat.ne_of_lt
  rw [hnodup.count]
  simp only [hg.children p n]

theorem isField_eq (n : NodeId) : (g.kind n).isField = (g.field? n).isSome := by
  rw [field?]
  cases g.kind n <;> rfl

theorem isOneof_eq (n : NodeId) : (g.kind n).isOneof = (g.oneof? n).isSome := by
  rw [oneof?]
  cases g.kind n <;> rfl

theorem memberOf?_eq (n : NodeId) : (g.kind n).memberOf? = (g.field? n).bind FieldNode.oneof := by
  rw [field?]
  cases g.kind n <;> rfl

theorem kind_of_message? {m : NodeId} {content : MessageNode} (h : g.message? m = some content) :
    g.kind m = .message content := by
  rw [message?] at h
  split at h
  · rename_i heq
    rw [heq, Option.some.inj h]
  · cases h

theorem Branching.lists_message (hg : g.Branching) {m : NodeId} {content : MessageNode}
    (h : g.message? m = some content) :
    content.fields = (g.children m).filter (fun n => (g.field? n).isSome) ∧
      content.oneofs = (g.children m).filter fun n => (g.oneof? n).isSome := by
  have hkind := kind_of_message? h
  have hmessage : (g.kind m).isMessage := by rw [hkind]; rfl
  have hfields := hg.fields m hmessage
  have honeofs := hg.oneofs m hmessage
  rw [ownFields_eq, hkind] at hfields
  rw [hkind] at honeofs
  simp only [isField_eq] at hfields
  simp only [isOneof_eq] at honeofs
  exact ⟨hfields, honeofs⟩

/-- Of the nodes below a message only fields name a oneof. -/
theorem membersOf_eq {m o : NodeId} :
    g.membersOf m o = ((g.children m).filter fun n => (g.field? n).isSome).filter
      fun n => (g.field? n).any fun f => f.oneof = some o := by
  rw [List.filter_filter, membersOf]
  refine List.filter_congr fun n _ => ?_
  rw [memberOf?_eq]
  cases g.field? n <;> simp

theorem Enlisted.lists_oneof (hg : g.Enlisted) (htree : g.Branching) {o : NodeId}
    {content : OneofNode} (h : g.oneof? o = some content) :
    ∃ m message, g.parent? o = some m ∧ g.message? m = some message ∧ content.fields =
      message.fields.filter fun n => (g.field? n).any fun f => f.oneof = some o := by
  have hkind := oneof?_eq_some.mp h
  have hsize : o < g.size := by
    rcases Nat.lt_or_ge o g.size with hlt | hle
    · exact hlt
    · rw [kind_of_size_le hle] at hkind
      cases hkind
  have hroot : o ≠ Graph.root := by
    rintro rfl
    have hscope := htree.root.2
    rw [hkind] at hscope
    cases hscope
  obtain ⟨m, -, hm⟩ := htree.parent o hsize hroot
  obtain ⟨hmessage, hmembers⟩ := hg.listed o m (isOneof_of_oneof? h) hm
  obtain ⟨message, hmessage⟩ : ∃ message, g.message? m = some message := by
    rw [message?]
    cases hk : g.kind m with
    | message content => exact ⟨content, rfl⟩
    | _ => rw [hk] at hmessage; cases hmessage
  refine ⟨m, message, hm, hmessage, ?_⟩
  rw [hkind] at hmembers
  rw [(htree.lists_message hmessage).1, ← membersOf_eq]
  exact hmembers

/-! ### Everything together -/

theorem faithful_of_tree (htree : g.Tree) (hg : g.Enlisted) (hnumbered : g.Numbered)
    (hsingle : g.SingleMembers) : g.Faithful where
  root := ⟨htree.root.1, htree.parent?_root⟩
  parent := htree.parent
  walk _ _ hn hwalk := htree.walk (htree.lt_size_of_walk hn hwalk)
  listed := htree.count_children
  ordered := htree.ascending
  named := htree.siblings
  message _ _ h := htree.lists_message h
  numbered m content h := by
    have hdistinct := hnumbered.distinct m
    rw [ownFields, h] at hdistinct
    exact hdistinct
  oneof o content h := by
    obtain ⟨m, message, hm, hmessage, hfields⟩ := hg.lists_oneof htree.toBranching h
    exact ⟨m, message, hm, hmessage, hfields, hsingle o content h⟩
  member n f o hf ho := by
    obtain ⟨honeof, m, hm, hn⟩ := hg.named n o (by rw [memberOf?_eq, hf]; exact ho)
    exact ⟨isOneof_eq o ▸ honeof, hn.trans hm.symm⟩
  extension x e h := by
    obtain ⟨hparent, howner⟩ := htree.owned x e.field (by rw [h]; rfl)
    cases hk : g.kind e.field with
    | field f =>
      rw [hk] at howner
      exact ⟨f, field?_eq_some.mpr hk, howner, hparent⟩
    | _ => rw [hk] at howner; cases howner
  owner n f x hf hx := by
    have howned := htree.owner n x (by rw [field?_eq_some.mp hf]; exact hx)
    cases hk : g.kind x with
    | extension e =>
      rw [hk] at howned
      exact ⟨e, rfl, Option.some.inj howned⟩
    | _ => rw [hk] at howned; cases howned

end Graph

/-- The lists in the graph of a snapshot and the nodes say the same. -/
theorem Snapshot.Built.graph_faithful {S : Snapshot} (h : S.Built) : S.graph.Faithful := by
  obtain ⟨r, hr, hS⟩ := h
  obtain ⟨htree, hg⟩ := (hr.meets Graph.lasting_enlisted).snapshot S hS
  exact Graph.faithful_of_tree htree hg ((hr.meets Graph.lasting_numbered).snapshot S hS)
    ((hr.meets Graph.lasting_singleMembers).snapshot S hS)

/-- Whatever actions have made a registry, refused or not, the lists in its graph and the nodes say
the same, and so do those in the graph of its snapshot. -/
theorem Registry.Built.faithful {r : Registry} (h : r.Built) :
    r.graph.Faithful ∧ ∀ S, r.snapshot = some S → S.graph.Faithful := by
  have henlisted := h.meets Graph.lasting_enlisted
  have hnumbered := h.meets Graph.lasting_numbered
  have hsingle := h.meets Graph.lasting_singleMembers
  exact ⟨Graph.faithful_of_tree henlisted.tree henlisted.graph.2 hnumbered.graph hsingle.graph,
    fun S hS => Snapshot.Built.graph_faithful ⟨r, h, hS⟩⟩

/-- The registry into which a text was loaded that is refused at its third field. -/
def Registry.refused : Registry :=
  (Registry.empty {}).after (Registry.load
    "message M { oneof o { int32 a = 1; string b = 2; } optional int32 c = 1; }" none)

/-- What was added before the text was refused is listed where it belongs. -/
theorem Registry.faithful_refused : refused.Built ∧ refused.graph.Faithful ∧
    refused.graph.ownFields 1 = [3, 4] ∧ refused.graph.oneof? 2 = some ⟨[3, 4], {}⟩ := by
  have hbuilt : refused.Built := .load (.empty {}) _ _
  have hfields : refused.graph.ownFields 1 = [3, 4] := by
    cbv
  have honeof : refused.graph.oneof? 2 = some ⟨[3, 4], {}⟩ := by
    cbv
  exact ⟨hbuilt, hbuilt.faithful.1, hfields, honeof⟩

end Protobuf

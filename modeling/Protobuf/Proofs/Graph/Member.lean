import Protobuf.Proofs.Graph.Step

/-!
# Oneofs and their members

A oneof lists the fields that belong to it, and each of them names the oneof. Both are parts of the
same message, and the list is what the fields of the message say, in their order. A field and the
entry in the list are added one after the other, so this is a property of whole steps.

That the numbers of fields tell them apart is another one that no text is needed for.

## Main definitions

* `Graph.Enlisted` — oneofs list the fields of their messages that name them.

## Main results

* `Graph.stable_enlisted`, `Graph.stable_numbered` — both last in every step
-/

namespace Protobuf

theorem NodeKind.Fresh.memberOf? {k : NodeKind} (h : k.Fresh) : k.memberOf? = none := by
  cases k with
  | field f => exact (h.field f rfl).2.1
  | _ => rfl

theorem NodeKind.Fresh.members {k : NodeKind} (h : k.Fresh) : k.members = [] := by
  cases k with
  | oneof c => exact h.oneof c rfl
  | _ => rfl

theorem NodeKind.members_addMember {k : NodeKind} (h : k.isOneof) (id : NodeId) :
    (k.addMember id).members = k.members ++ [id] := by
  cases k <;> first | rfl | cases h

namespace Graph

variable {g g' : Graph}

/-- The nodes below a message that name a oneof as theirs. -/
def membersOf (g : Graph) (m o : NodeId) : List NodeId :=
  (g.children m).filter fun n => (g.kind n).memberOf? = some o

/-- A oneof lists the fields of its message that name it, and only such fields name it. -/
structure Enlisted (g : Graph) : Prop where
  named : ∀ n o, (g.kind n).memberOf? = some o →
    (g.kind o).isOneof ∧ ∃ m, g.parent? o = some m ∧ g.parent? n = some m
  listed : ∀ o m, (g.kind o).isOneof → g.parent? o = some m →
    (g.kind m).isMessage ∧ (g.kind o).members = g.membersOf m o

theorem Enlisted.lt_size (hg : g.Enlisted) {n o : NodeId} (h : (g.kind n).memberOf? = some o) :
    o < g.size := by
  obtain ⟨-, m, hm, -⟩ := hg.named n o h
  exact lt_size_of_parent? hm

/-- Nothing names a node that is yet to come. -/
theorem Enlisted.membersOf_size (hg : g.Enlisted) (m : NodeId) : g.membersOf m g.size = [] := by
  refine List.filter_eq_nil_iff.mpr fun n _ hn => ?_
  exact Nat.lt_irrefl _ (hg.lt_size (of_decide_eq_true hn))

theorem membersOf_of_planted (hg : g.Branching) {parent : NodeId} {name : String}
    {kind : NodeKind} (h : g.Planted parent name kind g') {m : NodeId} (hm : m ≠ g.size)
    (o : NodeId) :
    g'.membersOf m o = if m = parent ∧ (g.kind parent).hasScope ∧ kind.memberOf? = some o then
      g.membersOf m o ++ [g.size] else g.membersOf m o := by
  have hchildren := hg.filter_children_of_planted h (fun k => decide (k.memberOf? = some o))
    (fun hlike => by rw [hlike.memberOf?]) hm
  simpa only [membersOf, decide_eq_true_eq] using hchildren

/-- Oneofs and their members stay where they are when a node is added. -/
theorem Enlisted.named_of_planted (hg : g.Enlisted) {parent : NodeId} {name : String}
    {kind : NodeKind} (h : g.Planted parent name kind g')
    (hkind : ∀ o, kind.memberOf? = some o → (g.kind o).isOneof ∧ g.parent? o = some parent)
    (n o : NodeId) (ho : (g'.kind n).memberOf? = some o) :
    (g'.kind o).isOneof ∧ ∃ m, g'.parent? o = some m ∧ g'.parent? n = some m := by
  have hkeep : ∀ {o m : NodeId}, (g.kind o).isOneof → g.parent? o = some m →
      (g'.kind o).isOneof ∧ g'.parent? o = some m := by
    intro o m honeof hm
    have hne : o ≠ g.size := Nat.ne_of_lt (lt_size_of_parent? hm)
    rw [(h.like o hne).isOneof, h.parents, if_neg hne]
    exact ⟨honeof, hm⟩
  by_cases hn : n = g.size
  · rw [hn, h.new] at ho
    obtain ⟨honeof, hparent⟩ := hkind o ho
    obtain ⟨honeof', hparent'⟩ := hkeep honeof hparent
    exact ⟨honeof', parent, hparent', by rw [h.parents, if_pos hn]⟩
  · rw [(h.like n hn).memberOf?] at ho
    obtain ⟨honeof, m, hm, hmn⟩ := hg.named n o ho
    obtain ⟨honeof', hm'⟩ := hkeep honeof hm
    exact ⟨honeof', m, hm', by rw [h.parents, if_neg hn, hmn]⟩

/-- A node that names no oneof and lists nothing leaves the lists right. -/
theorem Enlisted.plant (hg : g.Enlisted) (htree : g.Branching) {parent : NodeId} {name : String}
    {kind : NodeKind} (h : g.Planted parent name kind g')
    (hmessage : kind.isOneof → (g.kind parent).isMessage) (hmember : kind.memberOf? = none)
    (hmembers : kind.members = []) (hparent : parent < g.size) : g'.Enlisted := by
  refine ⟨hg.named_of_planted h fun o ho => ?_, fun o m ho hm => ?_⟩
  · rw [hmember] at ho
    cases ho
  · have hsame : ∀ {m : NodeId}, m < g.size → g'.membersOf m o = g.membersOf m o := by
      intro m hlt
      rw [membersOf_of_planted htree h (Nat.ne_of_lt hlt), if_neg]
      rintro ⟨-, -, hsome⟩
      rw [hmember] at hsome
      cases hsome
    rw [h.parents] at hm
    by_cases hsize : o = g.size
    · rw [if_pos hsize] at hm
      cases hm
      rw [hsize, h.new] at ho
      rw [(h.like parent (Nat.ne_of_lt hparent)).isMessage, hsame hparent, hsize, h.new, hmembers,
        hg.membersOf_size]
      exact ⟨hmessage ho, rfl⟩
    · rw [if_neg hsize] at hm
      have hlt := (htree.lt_of_parent? hm)
      have hlt' := Nat.lt_trans hlt.1 hlt.2
      rw [(h.like o hsize).isOneof] at ho
      rw [(h.like m (Nat.ne_of_lt hlt')).isMessage, h.members o hsize, hsame hlt']
      exact hg.listed o m ho hm

theorem membersOf_of_sameShape (h : g.SameShape g') (m o : NodeId) :
    g'.membersOf m o = g.membersOf m o := by
  rw [membersOf, membersOf, h.children]
  simp only [(h.like _).memberOf?]

/-- Graphs of the same shape differ at most in the lists of oneofs. -/
theorem Enlisted.congr (hg : g.Enlisted) (h : g.SameShape g')
    (hmembers : ∀ o, (g'.kind o).members = (g.kind o).members) : g'.Enlisted := by
  refine ⟨fun n o ho => ?_, fun o m ho hm => ?_⟩
  · rw [(h.like n).memberOf?] at ho
    rw [(h.like o).isOneof, h.parent?, h.parent?]
    exact hg.named n o ho
  · rw [(h.like o).isOneof] at ho
    rw [h.parent?] at hm
    rw [(h.like m).isMessage, hmembers, membersOf_of_sameShape h]
    exact hg.listed o m ho hm

/-- A oneof lists a member more once the member is noted there, and the other oneofs do not. -/
theorem members_mapKind_addMember {o : NodeId} (ho : (g.kind o).isOneof) (hlt : o < g.size)
    (member n : NodeId) : ((g.mapKind o (·.addMember member)).kind n).members =
      if n = o then (g.kind n).members ++ [member] else (g.kind n).members := by
  rw [kind_mapKind]
  by_cases hn : n = o
  · rw [if_pos hn, if_pos ⟨hn.symm, hn ▸ hlt⟩, hn, NodeKind.members_addMember ho]
  · rw [if_neg hn, if_neg fun h => hn h.1.symm]

/-- A field that names a oneof of its message leaves the lists right once it is listed. -/
theorem Enlisted.plantMember (hg : g.Enlisted) (htree : g.Branching) {parent o : NodeId}
    {name : String} {kind : NodeKind} (h : g.Planted parent name kind g')
    (hmessage : (g.kind parent).isMessage) (ho : (g.kind o).isOneof)
    (hparent : g.parent? o = some parent) (hmember : kind.memberOf? = some o)
    (honeof : kind.isOneof = false) : (g'.mapKind o (·.addMember g.size)).Enlisted := by
  have hshape := sameShape_addMember (g := g') o g.size
  have holt := lt_size_of_parent? hparent
  have hmembers := members_mapKind_addMember ((h.like o (Nat.ne_of_lt holt)).isOneof ▸ ho)
    (Nat.lt_trans holt h.lt_size) g.size
  constructor
  case named =>
    intro n o' hn
    rw [(hshape.like n).memberOf?] at hn
    rw [(hshape.like o').isOneof, hshape.parent?, hshape.parent?]
    refine hg.named_of_planted h (fun o'' hsome => ?_) n o' hn
    rw [hmember] at hsome
    cases hsome
    exact ⟨ho, hparent⟩
  case listed =>
    intro o' m ho' hm
    rw [(hshape.like o').isOneof] at ho'
    rw [hshape.parent?] at hm
    have hsize : o' ≠ g.size := by
      rintro rfl
      rw [h.new, honeof] at ho'
      cases ho'
    rw [h.parents, if_neg hsize] at hm
    rw [(h.like o' hsize).isOneof] at ho'
    obtain ⟨hm', hlisted⟩ := hg.listed o' m ho' hm
    have hlt := htree.lt_of_parent? hm
    have hne : m ≠ g.size := Nat.ne_of_lt (Nat.lt_trans hlt.1 hlt.2)
    rw [(hshape.like m).isMessage, (h.like m hne).isMessage, hmembers, membersOf_of_sameShape hshape,
      membersOf_of_planted htree h hne, h.members o' hsize, hlisted]
    refine ⟨hm', ?_⟩
    by_cases heq : o' = o
    · -- The oneof at hand is one of the message below which the field is added.
      have hmp : m = parent := Option.some.inj (hm.symm.trans (heq ▸ hparent))
      rw [if_pos heq, if_pos ⟨hmp, NodeKind.hasScope_of_isMessage hmessage, heq ▸ hmember⟩]
    · rw [if_neg heq, if_neg]
      rintro ⟨-, -, hsome⟩
      rw [hmember] at hsome
      exact heq (Option.some.inj hsome).symm

theorem members_eq (o : NodeId) : (g.kind o).members = (g.oneof? o).elim [] OneofNode.fields := by
  rw [oneof?]
  cases g.kind o <;> rfl

theorem isOneof_of_oneof? {o : NodeId} {c : OneofNode} (h : g.oneof? o = some c) :
    (g.kind o).isOneof := by
  rw [oneof?_eq_some.mp h]
  rfl

variable {strict : Prop}

/-- Trees whose oneofs list their members stay such trees. -/
theorem stable_enlisted : Stable strict fun g => g.Tree ∧ g.Enlisted := by
  rintro g g' ⟨htree, hg⟩ hstep
  refine ⟨stable_tree htree hstep, ?_⟩
  cases hstep with
  | node hparent _ hkind hadd =>
    refine hg.plant htree.toBranching (planted_of_add hparent.1.1 hadd).2 (fun honeof => ?_)
      hkind.memberOf? hkind.members hparent.1.1
    exact hparent.2 (by rw [NodeKind.isPart, honeof, Bool.or_true])
  | member hparent _ _ _ _ _ ho hc hbelow hadd =>
    obtain ⟨rfl, hplanted⟩ := planted_of_add hparent.1.1 hadd
    exact hg.plantMember htree.toBranching hplanted (hparent.2 rfl) (isOneof_of_oneof? hc)
      ((htree.children _ _).mp hbelow).1 ho rfl
  | extension hparent _ _ honeof hextension hfield hadd hadd' =>
    obtain ⟨rfl, hplanted⟩ := planted_of_add hparent.1 hadd
    have hbetween := hg.plant htree.toBranching hplanted (fun h => by cases h) rfl rfl hparent.1
    have hbranching := htree.toBranching.plant hplanted hparent.1 (.inl hparent.2) rfl rfl rfl
      fun x hx => by cases hx
    exact hbetween.plant hbranching (planted_of_add hplanted.lt_size hadd').2
      (fun h => by cases h) honeof rfl hplanted.lt_size

theorem enlisted_empty (settings : Settings) : (empty settings).Enlisted := by
  constructor
  · intro n o h
    rw [kind_empty] at h
    cases h
  · intro o m h
    rw [kind_empty] at h
    cases h

/-! ### Numbers -/

theorem stable_numbered : Stable strict Numbered := by
  intro g g' hg hstep
  cases hstep with
  | node _ _ hkind hadd => exact hg.added (added_of_add hkind.ownFields hadd).2
  | member _ _ _ _ _ _ _ hc _ hadd =>
    obtain ⟨rfl, hadded⟩ := added_of_add rfl hadd
    have hc' := (hadded.oneof? _ _).mpr (.inr hc)
    exact (hg.added hadded).congr (fun n => congrArg _ (field?_mapKind_oneof hc' rfl n))
      (ownFields_mapKind_oneof hc' rfl)
  | extension _ _ _ _ _ _ hadd hadd' =>
    exact (hg.added (added_of_add rfl hadd).2).added (added_of_add rfl hadd').2

theorem numbered_empty (settings : Settings) : (empty settings).Numbered :=
  (sound_empty settings).numbered

end Graph

end Protobuf

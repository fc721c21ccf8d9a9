import Protobuf.Proofs.Graph.Label
import Protobuf.Proofs.Message.Packed
import Protobuf.Proofs.Message.Reached
import Protobuf.Proofs.Registry.Faithful

/-!
# Fields of a oneof

A message keeps the values of its fields and knows nothing of oneofs, so that at most one field of a
oneof is present has to come from the ways in which messages are changed: a single value is put only
where the other fields of its oneof are cleared, defaults are filled in only for fields outside of
oneofs, and a value that is replaced was present before. Hence the field that was set last, or read
last, is the one that is present.

What the declarations say is needed as well: that a oneof lists the fields of its message that name
it, and that these are found by their names.

## Main definitions

* `MessageType.HasOneof` — a oneof of a message type, found by its name like the fields in it.
* `Message.Exclusive` — at most one of some fields is present, and it is the one that is named.

## Main results

* `Message.Apart.exclusive` — fields of a oneof that do not compete are exclusive
* `Value.Reached.exclusive_oneof` — so are those of whatever message a program comes by
-/

namespace Protobuf

/-- The type has the oneof `o`, which is found by its name, and so are the fields in it. -/
structure MessageType.HasOneof (t : MessageType) (o : NodeId) (c : OneofNode) : Prop where
  content : t.graph.oneof? o = some c
  found : t.graph.child? t.node (t.graph.name o) = some o
  field : ∀ f ∈ c.fields, t.field? (t.graph.name f) = some f
  compete : ∀ f ∈ c.fields, ∀ f' ∈ c.fields, t.graph.Compete f f'

/-- At most one of the fields is present. It is named when the oneof is asked for, and nothing is
named if there is none. -/
structure Message.Exclusive (m : Message) (oneof : String) (fields : List NodeId) : Prop where
  unique : ∀ f ∈ fields, ∀ f' ∈ fields,
    m.has (m.graph.name f) → m.has (m.graph.name f') → f = f'
  named : ∀ name, m.whichOneof? oneof = some name ↔
    ∃ f ∈ fields, m.graph.name f = name ∧ m.has name
  unnamed : m.whichOneof? oneof = none ↔ ∀ f ∈ fields, m.has (m.graph.name f) = false

/-! ### Oneofs of a type -/

/-- The fields of a oneof hold single values. -/
theorem Graph.Linked.slot?_of_member {g : Graph} (hg : g.Linked) {o f : NodeId} {c : OneofNode}
    (hc : g.oneof? o = some c) (hf : f ∈ c.fields) :
    ∃ s, g.slot? f = some s ∧ s.shape = .single := by
  obtain ⟨fn, hfn, ho⟩ := hg.listed o c hc f hf
  obtain ⟨l, hl, -⟩ := hg.link f fn hfn
  have hrule := (hg.member f fn o hfn ho).1
  obtain ⟨s, hs, hshape, -⟩ := slot?_of_single hfn hl (by simp [hrule]) (by simp [hrule])
  exact ⟨s, hs, hshape⟩

/-- The oneofs that a message lists are oneofs below it, and the fields that these list are fields
of the message. -/
theorem Graph.Faithful.exists_oneof {g : Graph} (hg : g.Faithful) {m o : NodeId}
    {content : MessageNode} (hm : g.message? m = some content) (ho : o ∈ content.oneofs) :
    ∃ c, g.oneof? o = some c ∧ g.child? m (g.name o) = some o ∧
      ∀ f ∈ c.fields, f ∈ g.ownFields m := by
  rw [(hg.message m content hm).2] at ho
  obtain ⟨hbelow, honeof⟩ := List.mem_filter.mp ho
  obtain ⟨c, hc⟩ := Option.isSome_iff_exists.mp honeof
  have hparent : g.parent? o = some m := by
    have hcount := List.count_pos_iff.mpr hbelow
    rw [hg.listed] at hcount
    split at hcount
    · rename_i h
      exact h.1
    · cases hcount
  obtain ⟨m', content', hm', hcontent', hfields, -⟩ := hg.oneof o c hc
  rw [hparent] at hm'
  cases hm'
  refine ⟨c, hc, find?_name (hg.named m) hbelow, fun f hf => ?_⟩
  rw [ownFields, hcontent']
  rw [hfields] at hf
  exact List.mem_of_mem_filter hf

theorem Snapshot.Loaded.exists_oneof {t : MessageType} (hS : t.snapshot.Loaded) {o : NodeId}
    {content : MessageNode} (ht : t.graph.message? t.node = some content)
    (ho : o ∈ content.oneofs) : ∃ c, t.HasOneof o c := by
  obtain ⟨c, hc, hfound, hown⟩ := (Snapshot.Built.graph_faithful hS.built).exists_oneof ht ho
  refine ⟨c, hc, hfound, fun f hf => ?_, fun f hf f' hf' => ?_⟩
  · have hfirst := (Snapshot.Built.tree hS.built).find?_ownFields (hown f hf)
    change t.snapshot.graph.fieldByName? t.node (t.snapshot.graph.name f) = some f
    rw [Graph.fieldByName?, hfirst]
    rfl
  · obtain ⟨fn, hfn, ho⟩ := hS.linked.listed o c hc f hf
    obtain ⟨fn', hfn', ho'⟩ := hS.linked.listed o c hc f' hf'
    exact ⟨fn, fn', o, hfn, hfn', ho, ho'⟩

/-! ### Messages whose fields do not compete -/

namespace Message

variable {m m' : Message} {o : NodeId} {c : OneofNode} {f : NodeId}

theorem has_of_field? {name : String} (h : m.type.field? name = some f) :
    m.has name = (m.value? f).isSome := by
  rw [has, get?, h]
  rfl

theorem whichOneof?_eq (h : m.type.HasOneof o c) : m.whichOneof? (m.graph.name o) =
    (c.fields.find? fun f => (m.value? f).isSome).map m.graph.name := by
  have hfound : m.graph.child? m.type.node (m.graph.name o) = some o := h.found
  have hcontent : m.graph.oneof? o = some c := h.content
  rw [whichOneof?, hfound]
  simp only [Option.bind_eq_bind, Option.bind_some, hcontent]
  cases c.fields.find? fun f => (m.value? f).isSome <;> rfl

/-- Where fields do not compete, those of a oneof are exclusive. -/
theorem Apart.exclusive (hm : m.Apart) (h : m.type.HasOneof o c) :
    m.Exclusive (m.graph.name o) c.fields := by
  have hhas : ∀ f ∈ c.fields, m.has (m.graph.name f) = (m.value? f).isSome :=
    fun f hf => has_of_field? (h.field f hf)
  have hfind : ∀ f, (c.fields.find? fun f => (m.value? f).isSome) = some f →
      f ∈ c.fields ∧ m.has (m.graph.name f) := by
    intro f hf
    have hmem := List.mem_of_find?_eq_some hf
    have hpresent := List.find?_some hf
    exact ⟨hmem, (hhas f hmem).trans hpresent⟩
  have hunique : ∀ f ∈ c.fields, ∀ f' ∈ c.fields,
      m.has (m.graph.name f) → m.has (m.graph.name f') → f = f' := by
    intro f hf f' hf' hpresent hpresent'
    rw [hhas f hf] at hpresent
    rw [hhas f' hf'] at hpresent'
    obtain ⟨v, hv⟩ := Option.isSome_iff_exists.mp hpresent
    obtain ⟨v', hv'⟩ := Option.isSome_iff_exists.mp hpresent'
    exact hm f f' v v' hv hv' (h.compete f hf f' hf')
  refine ⟨hunique, fun name => ?_, ?_⟩
  · rw [whichOneof?_eq h]
    constructor
    · intro hname
      obtain ⟨f, hf, rfl⟩ := Option.map_eq_some_iff.mp hname
      obtain ⟨hmem, hpresent⟩ := hfind f hf
      exact ⟨f, hmem, rfl, hpresent⟩
    · rintro ⟨f, hf, rfl, hpresent⟩
      -- Some field is found, and no other one is present.
      obtain ⟨f', hf'⟩ : ∃ f', (c.fields.find? fun f => (m.value? f).isSome) = some f' :=
        Option.isSome_iff_exists.mp (List.find?_isSome.mpr ⟨f, hf, (hhas f hf).symm.trans hpresent⟩)
      obtain ⟨hmem', hpresent'⟩ := hfind f' hf'
      rw [hf', hunique f' hmem' f hf hpresent' hpresent]
      rfl
  · rw [whichOneof?_eq h, Option.map_eq_none_iff, List.find?_eq_none]
    refine forall₂_congr fun f hf => ?_
    rw [hhas f hf, Bool.not_eq_true]

/-- A field of a oneof that is present is the one that is named. -/
theorem Exclusive.eq_of_value? (hm : m.Exclusive (m.graph.name o) c.fields)
    (h : m.type.HasOneof o c) (hf : f ∈ c.fields) {v : Value} (hv : m.value? f = some v) :
    m.whichOneof? (m.graph.name o) = some (m.graph.name f) := by
  have hhas := has_of_field? (h.field f hf)
  rw [hv] at hhas
  exact (hm.named _).mpr ⟨f, hf, rfl, hhas⟩

/-! ### The field that was set last -/

/-- The field that has been set is present, whatever was present before. -/
theorem Apart.exclusive_set (hg : m.graph.Sound) (hm : m.Apart) (h : m.type.HasOneof o c)
    (hf : f ∈ c.fields) {v : Value} (hset : m.set (m.graph.name f) v = .ok m') :
    m'.Exclusive (m.graph.name o) c.fields ∧
      m'.whichOneof? (m.graph.name o) = some (m.graph.name f) := by
  obtain ⟨f', s, v', hnode, -, -, rfl⟩ := set_eq_ok hset
  have hfield := (field?_of_node hnode).symm.trans (h.field f hf)
  cases hfield
  have htype := Decoding.type_put m f v'
  have hgraph : (m.put f v').graph = m.graph := congrArg (fun t : MessageType => t.graph) htype
  have hput : (m.put f v').type.HasOneof o c := htype ▸ h
  have hexclusive := (hm.put hg f v').exclusive hput
  have hnamed := hexclusive.eq_of_value? hput hf (value?_put_self m f v')
  rw [hgraph] at hexclusive hnamed
  exact ⟨hexclusive, hnamed⟩

end Message

/-! ### The field that was read last -/

namespace Decoding

variable {inner : Inner} {levels : Nat} {t : MessageType}

/-- The record of a field of single values puts a value into it. -/
theorem yields_put {id : UInt32} {p : Wire.Payload} {f : NodeId} {s : Slot}
    (hf : t.fieldById? id = some f) (hs : t.graph.slot? f = some s) (hshape : s.shape = .single) :
    Yields (change inner levels t (id, p)) fun c => ∃ v, c = .put f v := by
  rw [change_of_field hf hs, fieldChange, hshape]
  exact Yields.andThen fun _ => Yields.andThen fun v => Yields.pure ⟨v, rfl⟩

end Decoding

namespace Message

variable {m : Message} {t : MessageType} {bytes : List UInt8}

theorem IsReadFrom.type (h : m.IsReadFrom t bytes) : m.type = t := by
  obtain ⟨noted, hrun⟩ := isReadFrom_iff.mp h
  obtain ⟨-, cs, noted', -, rfl, -⟩ := Decoding.message_eq_ok.mp hrun
  rw [WellTyped.type_populate, Change.type_foldl]
  rfl

/-- The field of the last record is present, if it holds single values. -/
theorem IsReadFrom.value?_last (h : m.IsReadFrom t bytes) {before : List Wire.Record}
    {id : UInt32} {p : Wire.Payload}
    (hrecords : (Wire.Stream.ofBytes bytes).records = before ++ [(id, p)]) {f : NodeId} {s : Slot}
    (hf : t.fieldById? id = some f) (hs : t.graph.slot? f = some s) (hshape : s.shape = .single) :
    ∃ v, m.value? f = some v := by
  obtain ⟨noted, hrun⟩ := isReadFrom_iff.mp h
  obtain ⟨-, cs, noted', hcs, rfl, -⟩ := Decoding.message_eq_ok.mp hrun
  rw [hrecords, List.mapM_append, StateT.run_bind] at hcs
  obtain ⟨⟨first, noted₁⟩, -, hcs⟩ := bind_eq_ok.mp hcs
  change StateT.run _ noted₁ = _ at hcs
  rw [StateT.run_bind] at hcs
  obtain ⟨⟨last, noted₂⟩, hlast, hcs⟩ := bind_eq_ok.mp hcs
  cases hcs
  change StateT.run _ noted₁ = _ at hlast
  rw [List.mapM_cons, List.mapM_nil, StateT.run_bind] at hlast
  obtain ⟨⟨change, noted₃⟩, hchange, hlast⟩ := bind_eq_ok.mp hlast
  cases hlast
  obtain ⟨v, rfl⟩ := Decoding.yields_put hf hs hshape _ _ _ hchange
  refine ⟨v, ?_⟩
  rw [WellTyped.value?_populate, List.foldl_append]
  show ((Message.put _ f v).value? f).or _ = some v
  rw [value?_put_self]
  rfl

end Message

/-! ### Whatever is reached -/

/-- Whatever a program does with a message of a schema that was loaded from text, and whichever
actions are refused, at most one field of each oneof is present, and it is the one that is named.
It is the one that was set, if one of them was set just now, and the one in the last record, if the
message was just read from bytes that end with such a record. -/
theorem Value.Reached.exclusive_oneof {known : Snapshot → Prop} {m : Message}
    (hm : (Value.message m).Reached known) (hknown : known m.type.snapshot)
    (hS : m.type.snapshot.Loaded) {content : MessageNode}
    (hcontent : m.graph.message? m.type.node = some content) {o : NodeId}
    (ho : o ∈ content.oneofs) : ∃ c, m.graph.oneof? o = some c ∧
      m.Exclusive (m.graph.name o) c.fields ∧
      (∀ f ∈ c.fields, ∀ v m', m.set (m.graph.name f) v = .ok m' →
        m'.Exclusive (m.graph.name o) c.fields ∧
        m'.whichOneof? (m.graph.name o) = some (m.graph.name f)) ∧
      ∀ f ∈ c.fields, ∀ t bytes before id p, m.IsReadFrom t bytes →
        (Wire.Stream.ofBytes bytes).records = before ++ [(id, p)] → t.fieldById? id = some f →
        m.whichOneof? (m.graph.name o) = some (m.graph.name f) := by
  obtain ⟨c, hc⟩ := hS.exists_oneof hcontent ho
  have hg : m.graph.Linked := hS.linked
  have hapart : m.Apart := hm.orderly.apart hknown hg
  have hexclusive := hapart.exclusive hc
  refine ⟨c, hc.content, hexclusive, fun f hf v m' hset =>
    hapart.exclusive_set hg.toSound hc hf hset, ?_⟩
  intro f hf t bytes before id p hread hrecords hid
  obtain rfl := hread.type
  obtain ⟨s, hs, hshape⟩ := hg.slot?_of_member hc.content hf
  obtain ⟨v, hv⟩ := hread.value?_last hrecords hid hs hshape
  exact hexclusive.eq_of_value? hc hf hv

/-- Of the two fields of a oneof in these bytes the second one is present, until the first one is
set. -/
theorem Message.exclusive_oneof_mixed : ∃ m m' : Message,
    decode ⟨⟨.mixed, 1⟩⟩ [8, 1, 16, 2] = .ok m ∧ m.Exclusive "o" [3, 4] ∧
      m.whichOneof? "o" = some "y" ∧ m.set "x" (.atom (.i32 3)) = .ok m' ∧
      m'.Exclusive "o" [3, 4] ∧ m'.whichOneof? "o" = some "x" := by
  have hdecode : decode ⟨⟨.mixed, 1⟩⟩ [8, 1, 16, 2] =
      .ok ⟨⟨⟨.mixed, 1⟩⟩, [(4, .atom (.i32 2))]⟩ :=
    (decode_eq_ok_iff rfl).mpr
      ⟨by cbv, [.put 3 (.atom (.i32 1)), .put 4 (.atom (.i32 2))], by cbv, by cbv, by cbv⟩
  have hset : Message.set ⟨⟨⟨.mixed, 1⟩⟩, [(4, .atom (.i32 2))]⟩ "x" (.atom (.i32 3)) =
      .ok ⟨⟨⟨.mixed, 1⟩⟩, [(3, .atom (.i32 3))]⟩ := by
    cbv
  have hrecords : (Wire.Stream.ofBytes [8, 1, 16, 2]).records =
      [(1, .varint 1)] ++ [(2, .varint 2)] := by
    cbv
  have hreached : (Value.message ⟨⟨⟨.mixed, 1⟩⟩, [(4, .atom (.i32 2))]⟩).Reached fun _ => True :=
    .read Snapshot.loaded_mixed.built (.inl hdecode)
  have hmember : 2 ∈ [2] := List.mem_singleton_self 2
  obtain ⟨c, hc, hexclusive, hafter, hlast⟩ :=
    Value.Reached.exclusive_oneof hreached trivial Snapshot.loaded_mixed rfl hmember
  cases hc
  obtain ⟨hexclusive', hnamed'⟩ := hafter 3 (by decide) _ _ hset
  exact ⟨_, _, hdecode, hexclusive,
    hlast 4 (by decide) _ _ _ _ _ (.inl hdecode) hrecords (by cbv), hset, hexclusive', hnamed'⟩

end Protobuf

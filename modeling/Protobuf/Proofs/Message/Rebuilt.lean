import Mathlib
import Protobuf.Proofs.Message.Conversion
import Protobuf.Proofs.Message.Effect
import Protobuf.Proofs.Message.Replay
import Protobuf.Proofs.Message.Settable

/-!
# Messages that are built anew

What a message tells of its fields is enough to build it anew: a new message has its fields set one
after the other, under the labels that the message gives for them. The values come out as they went
in, because whatever a setter has kept it keeps again. Setting a field clears the others of its
oneof, but of these none is present, and what is in a new message to begin with is either set again
or was there from the start.

There is one value that no setter would take. A field that should always be present is filled in
with the zero value of its type, which for an enum without any values is the number zero; a closed
enum takes only the numbers that it declares. No message with such a field can be built anew, and
any other one can.

## Main definitions

* `Message.Grown` — a message that was new, and has been changed by setters since.
* `Graph.Barren` — a field is filled in with a number that no setter would take.
* `Message.Resettable` — what is known of messages that have grown.

## Main results

* `Message.Grown.resettable` — messages that have grown hold what setters keep, barren fields apart
* `Message.Resettable.foldlM_set` — setting the fields of such a message anew
* `Message.Grown.ofFields_fields_iff` — when a message can be built anew
-/

namespace Protobuf

/-- The message was new, and what has been done since is to set fields, to add elements to lists
and to put entries into maps, each time with a value that the program has come by in any way. -/
inductive Message.Grown (t : MessageType) : Message → Prop
  | new : Grown t (Message.new t)
  | set {m m' : Message} {name : String} {v : Value} (grown : Grown t m)
      (reached : v.Reached fun _ => True) (set : m.set name v = .ok m') : Grown t m'
  | add {m m' : Message} {name : String} {v : Value} (grown : Grown t m)
      (reached : v.Reached fun _ => True) (add : m.add name v = .ok m') : Grown t m'
  | openMap {m m' : Message} {name : String} {map : MapValue} (grown : Grown t m)
      (opened : m.openMap name = .ok (map, m')) : Grown t m'
  | openSet {m m' m'' : Message} {name : String} {map map' : MapValue} {key v : Value}
      (grown : Grown t m) (reached : v.Reached fun _ => True)
      (opened : m.openMap name = .ok (map, m')) (set : map.set key v = .ok map')
      (put : m'.update? name (fun _ => some (.map map')) = some m'') : Grown t m''

/-- The field is filled in when it is absent, but its type is a closed enum without values, so no
number may be set. -/
def Graph.Barren (g : Graph) (n : NodeId) (e : NodeId) : Prop :=
  ∃ f, g.field? n = some f ∧ f.isAlwaysPresent = true ∧ f.default?.isSome = true ∧
    f.type? = some (.enumeration e) ∧ g.dialectOf e = .proto2 ∧ g.enumValues e = []

/-- A setter would keep each value as it is, unless it stands in for one of a barren field. What
should always be present is, and the fields of oneofs are apart. -/
structure Message.Resettable (S : Snapshot) (m : Message) : Prop where
  snapshot : m.type.snapshot = S
  apart : m.Apart
  populated : m.Populated
  kept : ∀ n v, m.value? n = some v → n ∈ S.graph.allFields m.type.node ∧
    ∃ s, S.graph.slot? n = some s ∧
      (S.FieldConverts s v v ∨ m.standIn? n = some v ∧ ∃ e, S.graph.Barren n e)

/-! ### Equality -/

/-- A value that is in order is equal to itself. -/
theorem Value.Sorted.same_self {v : Value} (h : v.Sorted) : v.same v := by
  induction h with
  | atom a => simp [Value.same]
  | @list items _ ih =>
    rw [Value.same]
    simpa using Value.sameItems_map (f := id) (g := id) ih
  | @map m _ _ ih =>
    obtain ⟨key, type, owner, entries⟩ := m
    rw [Value.same, Bool.and_eq_true, decide_eq_true_eq]
    refine ⟨rfl, ?_⟩
    simpa using Value.sameEntries_map (f := id) (g := id) ih
  | @message m ascending _ ih =>
    refine (Value.same_message_iff ascending ascending).mpr ⟨m.type.sameAs_self, fun f => ?_⟩
    cases hv : m.value? f with
    | none => rfl
    | some v => exact ih (f, v) (Message.mem_of_value? hv)

/-- Values of which everything is looked into are in order. -/
theorem Value.Orderly.sorted {v : Value} (h : v.Orderly fun _ => True) : v.Sorted := by
  induction h with
  | atom a => exact .atom a
  | list _ ih => exact .list ih
  | map ascending _ _ ih => exact .map ascending ih
  | message ascending _ _ ih => exact .message (ascending trivial) (ih trivial)

/-! ### Defaults -/

section

variable {S : Snapshot} {n : NodeId} {v : Value}

/-- What a field is filled in with would be kept by a setter, unless the field is barren. -/
theorem Snapshot.Built.fieldConverts_filling? (hS : S.Built)
    (h : S.graph.filling? n = some v) : ∃ s, S.graph.slot? n = some s ∧
      (S.FieldConverts s v v ∨ ∃ e, S.graph.Barren n e) := by
  obtain ⟨f, a, hf, halways, ha, rfl⟩ := Graph.filling?_eq_some.mp h
  obtain ⟨l, hl, hclosed⟩ := hS.fieldClosed hf
  obtain ⟨s, hs, hshape, htype⟩ := Graph.slot?_of_isAlwaysPresent hf hl halways
  have hdefault : l.default = some a := by
    rw [FieldNode.default?, hl] at ha
    exact ha
  have hcanonical := hclosed.default a hdefault
  have hconverts : ∀ {t : FieldType}, l.type = t → S.Converts t (.atom a) (.atom a) →
      S.FieldConverts s (.atom a) (.atom a) := fun ht hc =>
    .single hshape (by rwa [htype, ht])
  refine ⟨s, hs, ?_⟩
  cases ht : l.type with
  | scalar scalar =>
    rw [ht] at hcanonical
    exact .inl (hconverts ht (.scalar (.kept hcanonical.1)))
  | enumeration e =>
    rw [ht] at hcanonical
    obtain ⟨id, rfl, hdeclared | ⟨hvalues, -⟩⟩ := hcanonical
    · exact .inl (hconverts ht (.numbered rfl fun _ => hdeclared))
    · by_cases hdialect : S.graph.dialectOf e = .proto2
      · have hfieldType : f.type? = some (.enumeration e) := by
          rw [FieldNode.type?, hl, Option.map_some, ht]
        exact .inr ⟨e, f, hf, halways, by rw [ha]; rfl, hfieldType, hdialect, hvalues⟩
      · exact .inl (hconverts ht (.numbered rfl fun hclosed => absurd hclosed hdialect))
  | message node =>
    rw [ht] at hcanonical
    exact hcanonical.elim
  | group node =>
    rw [ht] at hcanonical
    exact hcanonical.elim

section

variable {e : NodeId}

theorem Snapshot.Built.slot?_of_barren (hS : S.Built) (h : S.graph.Barren n e) :
    ∃ s, S.graph.slot? n = some s ∧ s.shape = .single ∧ s.type = .enumeration e := by
  obtain ⟨f, hf, halways, -, htype, -⟩ := h
  obtain ⟨l, hl, -⟩ := hS.fieldClosed hf
  obtain ⟨s, hs, hshape, hstype⟩ := Graph.slot?_of_isAlwaysPresent hf hl halways
  rw [FieldNode.type?, hl, Option.map_some, Option.some.injEq] at htype
  exact ⟨s, hs, hshape, hstype.trans htype⟩

theorem Graph.Barren.enumHas (h : S.graph.Barren n e) (id : Int32) :
    S.graph.enumHas e id = false := by
  obtain ⟨f, -, -, -, -, -, hvalues⟩ := h
  simp [Graph.enumHas, hvalues]

/-- No setter would take any value for a barren field. -/
theorem Snapshot.Built.not_fieldConverts_of_barren (hS : S.Built) (h : S.graph.Barren n e)
    {s : Slot} (hs : S.graph.slot? n = some s) {v' : Value} : ¬S.FieldConverts s v v' := by
  obtain ⟨s', hs', hshape, htype⟩ := hS.slot?_of_barren h
  rw [hs] at hs'
  cases hs'
  have hundeclared := h.enumHas
  obtain ⟨f, -, -, -, -, hdialect, -⟩ := h
  have hconverts : ¬S.Converts (.enumeration e) v v' := by
    rintro (_ | found | ⟨-, declared⟩ | ⟨node⟩)
    · have hdeclared := Graph.enumHas_of_enumId? found
      rw [hundeclared] at hdeclared
      cases hdeclared
    · have hdeclared := declared hdialect
      rw [hundeclared] at hdeclared
      cases hdeclared
    · cases node
  rintro (⟨-, converts⟩ | ⟨hlist, -⟩ | ⟨hmap, -⟩)
  · exact hconverts (htype ▸ converts)
  · rw [hshape] at hlist
    cases hlist
  · rw [hshape] at hmap
    cases hmap

/-- The zero that a barren field is filled in with is refused by setters, as it is not declared. -/
theorem Snapshot.Built.filling?_of_barren (hS : S.Built) (h : S.graph.Barren n e) :
    S.graph.filling? n = some (.atom (.enumeration 0)) ∧ ∃ s, S.graph.slot? n = some s ∧
      S.fitField s (.atom (.enumeration 0)) = .error (.enumNumber 0 (S.graph.fqn e)) := by
  obtain ⟨s, hs, hshape, hstype⟩ := hS.slot?_of_barren h
  have hundeclared := h.enumHas
  obtain ⟨f, hf, halways, hdefault, htype, hdialect, hvalues⟩ := h
  obtain ⟨a, ha⟩ := Option.isSome_iff_exists.mp hdefault
  obtain ⟨l, hl, hclosed⟩ := hS.fieldClosed hf
  have hlinked : l.default = some a := by
    rw [FieldNode.default?, hl] at ha
    exact ha
  have hcanonical := hclosed.default a hlinked
  rw [FieldNode.type?, hl, Option.map_some, Option.some.injEq] at htype
  rw [htype] at hcanonical
  obtain ⟨id, rfl, hdeclared | ⟨-, rfl⟩⟩ := hcanonical
  · rw [hundeclared] at hdeclared
    cases hdeclared
  · have hrefused : S.graph.fitEnum e (.atom (.enumeration 0)) =
        .error (.enumNumber 0 (S.graph.fqn e)) := by
      rw [Graph.fitEnum, Graph.enumNumber_enumeration]
      exact if_pos ⟨hdialect, by rw [hundeclared]; rfl⟩
    refine ⟨Graph.filling?_eq_some.mpr ⟨f, _, hf, halways, ha, rfl⟩, s, hs, ?_⟩
    simp only [Snapshot.fitField, hshape, Snapshot.fit, hstype, hrefused]
    rfl

end

end

namespace Message

variable {S : Snapshot} {m m' : Message} {t : MessageType} {n : NodeId} {v : Value}

/-! ### Growing -/

namespace Resettable

theorem graph (hm : m.Resettable S) : m.graph = S.graph :=
  graph_of_snapshot hm.snapshot

theorem new (hS : S.Built) (hg : S.graph.Linked) (ht : t.snapshot = S) :
    (Message.new t).Resettable S where
  snapshot := (WellTyped.new hg ht).snapshot
  apart := (WellTyped.new hg ht).regular.apart
  populated := WellTyped.populated_populate _
  kept n v hv := by
    have hv : (Message.new t).standIn? n = some v :=
      (value?_new (WellTyped.type_populate _) n).symm.trans hv
    obtain ⟨hown, hfilling⟩ := filling?_of_standIn? (WellTyped.new hg ht).snapshot hv
    obtain ⟨s, hs, hkept⟩ := hS.fieldConverts_filling? hfilling
    exact ⟨Graph.mem_allFields.mpr (.inl hown), s, hs, hkept.imp_right fun hbarren => ⟨hv, hbarren⟩⟩

/-- What a setter keeps is put into a field. -/
theorem put (hg : S.graph.Linked) (hm : m.Resettable S) {s : Slot}
    (hn : n ∈ S.graph.allFields m.type.node) (hs : S.graph.slot? n = some s)
    (hv : S.FieldConverts s v v) : (m.put n v).Resettable S where
  snapshot := by rw [Decoding.type_put, hm.snapshot]
  apart := hm.apart.put (hm.graph ▸ hg.toSound) n v
  populated := hm.populated.put (hm.graph ▸ hg) n v
  kept n' v' hv' := by
    rw [Decoding.type_put, WellTyped.standIn?_of_type_eq (Decoding.type_put m n v)]
    rw [value?_put] at hv'
    split at hv'
    · rename_i heq
      cases hv'
      subst heq
      exact ⟨hn, s, hs, .inl hv⟩
    · split at hv'
      · cases hv'
      · exact hm.kept n' v' hv'

/-- What a setter keeps is put into a field of lists or maps. -/
theorem insert_collection (hg : S.graph.Linked) (hm : m.Resettable S) {s : Slot}
    (hn : n ∈ S.graph.allFields m.type.node) (hs : S.graph.slot? n = some s)
    (hshape : s.shape ≠ .single) (hv : S.FieldConverts s v v) : (m.insert n v).Resettable S := by
  have hput := hm.put hg hn hs hv
  rwa [put_of_collection (hm.graph ▸ hg) (hm.graph ▸ hs) hshape] at hput

/-- A list or a map in a message is one that a setter has kept. -/
theorem fieldConverts_of_collection (hS : S.Built) (hm : m.Resettable S) {s : Slot}
    (hs : S.graph.slot? n = some s) (hshape : s.shape ≠ .single) (hv : m.value? n = some v) :
    S.FieldConverts s v v := by
  obtain ⟨-, s', hs', hkept | ⟨-, e, f, hf, halways, -, -⟩⟩ := hm.kept n v hv
  · rw [hs] at hs'
    cases hs'
    exact hkept
  · obtain ⟨l, hl, -⟩ := hS.fieldClosed hf
    obtain ⟨s'', hs'', hsingle, -⟩ := Graph.slot?_of_isAlwaysPresent hf hl halways
    rw [hs] at hs''
    cases hs''
    exact absurd hsingle hshape

theorem set (hg : S.graph.Linked) (hm : m.Resettable S) {name : String}
    (h : m.set name v = .ok m') : m'.Resettable S := by
  obtain ⟨n, s, v', hn, hs, hfit, rfl⟩ := set_eq_ok h
  have hfield := Graph.mem_of_fieldByName? (field?_of_node hn)
  rw [hm.snapshot] at hfit
  rw [hm.graph] at hs
  exact hm.put hg (hm.graph ▸ hfield) hs (Snapshot.fitField_eq_ok_iff.mp hfit).idem

theorem add (hS : S.Built) (hg : S.graph.Linked) (hm : m.Resettable S) {name : String}
    (h : m.add name v = .ok m') : m'.Resettable S := by
  obtain ⟨n, s, v', hn, hs, hshape, hfit, rfl⟩ := add_eq_ok h
  have hfield := Graph.mem_of_fieldByName? (field?_of_node hn)
  rw [hm.snapshot] at hfit
  rw [hm.graph] at hs
  have hsingle : s.shape ≠ .single := by simp [hshape]
  have hitems : ∀ w ∈ ((m.value? n).bind Value.list?).getD [], S.Converts s.type w w := by
    cases hv : m.value? n with
    | none => simp
    | some w =>
      cases hm.fieldConverts_of_collection hS hs hsingle hv with
      | single hshape' => exact absurd hshape' hsingle
      | list _ converts => exact List.forall₂_same.mp converts
      | map hshape' => simp [Value.list?]
  refine hm.insert_collection hg (hm.graph ▸ hfield) hs hsingle
    (.list hshape (List.forall₂_same.mpr fun w hw => ?_))
  rcases List.mem_append.mp hw with hw | hw
  · exact hitems w hw
  · rw [List.mem_singleton.mp hw]
    exact (Snapshot.fit_eq_ok_iff.mp hfit).idem

/-- An entry that a map takes is one that a setter would keep. -/
theorem fieldConverts_mapSet {s : Slot} {map map' : MapValue} {k : Value}
    (hsingle : s.shape ≠ .single) (hmap : S.FieldConverts s (.map map) (.map map))
    (h : map.set k v = .ok map') : S.FieldConverts s (.map map') (.map map') := by
  obtain ⟨a, v', -, hfit, rfl⟩ := MapValue.set_eq_ok h
  cases hmap with
  | single hshape => exact absurd hshape hsingle
  | map hshape converts =>
    exact .map hshape (List.forall₂_same.mpr (Keyed.forall_mem_insert
      ⟨rfl, (Snapshot.fit_eq_ok_iff.mp hfit).idem⟩ (List.forall₂_same.mp converts)))

/-- The map of a field that has been opened is one that a setter would keep. -/
theorem openMap (hS : S.Built) (hg : S.graph.Linked) (hm : m.Resettable S) {name : String}
    {map : MapValue} (h : m.openMap name = .ok (map, m')) : m'.Resettable S ∧ ∃ n s,
      m'.node name = .ok n ∧ n ∈ S.graph.allFields m'.type.node ∧ S.graph.slot? n = some s ∧
      s.shape ≠ .single ∧ m'.value? n = some (.map map) ∧
      S.FieldConverts s (.map map) (.map map) := by
  obtain ⟨n, s, key, hn, hs, hshape, hcases⟩ := openMap_eq_ok h
  have hfield := Graph.mem_of_fieldByName? (field?_of_node hn)
  have hnode : m'.node name = .ok n := by
    rw [node, type_openMap h]
    exact hn
  rw [hm.graph] at hs
  have hsingle : s.shape ≠ .single := by simp [hshape]
  rcases hcases with ⟨-, rfl, rfl⟩ | ⟨hv, rfl⟩
  · have hempty : S.FieldConverts s (.map (m.emptyMap s key)) (.map (m.emptyMap s key)) := by
      rw [emptyMap, hm.snapshot]
      exact .map hshape .nil
    refine ⟨hm.insert_collection hg (hm.graph ▸ hfield) hs hsingle hempty, n, s, hnode,
      hm.graph ▸ hfield, hs, hsingle, ?_, hempty⟩
    rw [value?_insert, if_pos rfl]
  · exact ⟨hm, n, s, hnode, hm.graph ▸ hfield, hs, hsingle, hv,
      hm.fieldConverts_of_collection hS hs hsingle hv⟩

end Resettable

/-- What has been set is what setters keep, one change after the other. -/
theorem Grown.resettable (hS : S.Built) (hg : S.graph.Linked) (ht : t.snapshot = S)
    (hm : m.Grown t) : m.type = t ∧ m.Resettable S := by
  induction hm with
  | new => exact ⟨WellTyped.type_populate _, .new hS hg ht⟩
  | set _ _ hset ih =>
    refine ⟨?_, ih.2.set hg hset⟩
    obtain ⟨n, s, v, -, -, -, rfl⟩ := set_eq_ok hset
    exact (Decoding.type_put _ n v).trans ih.1
  | add _ _ hadd ih =>
    refine ⟨?_, ih.2.add hS hg hadd⟩
    obtain ⟨n, s, v, -, -, -, -, rfl⟩ := add_eq_ok hadd
    exact ih.1
  | openMap _ hopen ih => exact ⟨(type_openMap hopen).trans ih.1, (ih.2.openMap hS hg hopen).1⟩
  | openSet _ _ hopen hset hput ih =>
    obtain ⟨hm', n, s, hnode, hn, hs, hshape, -, hmap⟩ := ih.2.openMap hS hg hopen
    obtain ⟨n', v', hn', hv', rfl⟩ := update?_eq_some hput
    cases hnode.symm.trans hn'
    obtain ⟨w, -, hw⟩ := Option.bind_eq_some_iff.mp hv'
    cases hw
    exact ⟨(type_openMap hopen).trans ih.1,
      hm'.insert_collection hg hn hs hshape (Resettable.fieldConverts_mapSet hshape hmap hset)⟩

/-- What has grown has been reached, so it is in order. -/
theorem Grown.sorted (hS : t.snapshot.Built) (hm : m.Grown t) : m.Sorted := by
  have hreached : (Value.message m).Reached fun _ => True := by
    induction hm with
    | new => exact .new hS
    | set _ hv hset ih => exact .set ih hv hset
    | add _ hv hadd ih => exact .add ih hv hadd
    | openMap _ hopen ih => exact .openMap ih hopen
    | openSet _ hv hopen hset hput ih =>
      exact ih.changeMap hopen (fun hmap => .mapSet hmap hv hset) hput
  exact hreached.orderly.sorted

/-! ### Building anew -/

/-- The fields among the given ones that are present, with their labels. -/
def told (m : Message) (rest : List NodeId) : List (String × Value) :=
  rest.filterMap fun n => (m.value? n).map fun v => (m.graph.fieldLabel n, v)

theorem told_allFields (m : Message) : m.told (m.graph.allFields m.type.node) = m.fields := by
  refine List.filterMap_congr fun n _ => ?_
  rw [value?, Option.map_map]
  rfl

theorem told_cons_of_none {rest : List NodeId} (h : m.value? n = none) :
    m.told (n :: rest) = m.told rest :=
  List.filterMap_cons_none (by rw [h]; rfl)

theorem told_cons_of_some {rest : List NodeId} (h : m.value? n = some v) :
    m.told (n :: rest) = (m.graph.fieldLabel n, v) :: m.told rest :=
  List.filterMap_cons_some (by rw [h]; rfl)

section Again

variable {acc : Message}

/-- A field of a message is known by its label in every message of the type. -/
theorem field?_fieldLabel (hS : S.Loaded) (hm : m.Resettable S) (htype : acc.type = m.type)
    (hn : n ∈ S.graph.allFields m.type.node) :
    acc.type.field? (S.graph.fieldLabel n) = some n := by
  rw [htype]
  show m.graph.fieldByName? m.type.node _ = _
  rw [hm.graph]
  exact hS.linked.fieldByName?_fieldLabel hS.built.tree hS.plainNames hn

/-- What a setter has kept, it keeps again. -/
theorem set_fieldLabel (hS : S.Loaded) (hm : m.Resettable S) (htype : acc.type = m.type) {s : Slot}
    (hn : n ∈ S.graph.allFields m.type.node) (hs : S.graph.slot? n = some s)
    (hv : S.FieldConverts s v v) : acc.set (S.graph.fieldLabel n) v = .ok (acc.put n v) := by
  have hsnapshot : acc.type.snapshot = S := by rw [htype, hm.snapshot]
  exact (set_eq_ok_iff (field?_fieldLabel hS hm htype hn) (graph_of_snapshot hsnapshot ▸ hs)).mpr
    ⟨v, hsnapshot ▸ Snapshot.fitField_eq_ok_iff.mpr hv, rfl⟩

/-- The value that a barren field has been filled in with is refused. -/
theorem set_fieldLabel_of_barren (hS : S.Loaded) (hm : m.Resettable S) (htype : acc.type = m.type)
    (hn : n ∈ S.graph.allFields m.type.node) (hv : m.standIn? n = some v) {e : NodeId}
    (hbarren : S.graph.Barren n e) : v = .atom (.enumeration 0) ∧
      acc.set (S.graph.fieldLabel n) v =
        .error (.illegalValue (S.graph.fieldLabel n) (.enumNumber 0 (S.graph.fqn e))) := by
  have hsnapshot : acc.type.snapshot = S := by rw [htype, hm.snapshot]
  obtain ⟨hfilling, s, hs, hrefused⟩ := hS.built.filling?_of_barren hbarren
  rw [(filling?_of_standIn? hm.snapshot hv).2] at hfilling
  cases hfilling
  have hnode : acc.node (S.graph.fieldLabel n) = .ok n := by
    rw [node, field?_fieldLabel hS hm htype hn]
  refine ⟨rfl, ?_⟩
  rw [set_of_node hnode, graph_of_snapshot hsnapshot, hsnapshot, hs]
  dsimp only
  rw [hrefused]
  rfl

end Again

/-- Setting the fields of a message one after the other leads to the message, unless one of them is
a barren field that has been filled in. The first one of these is refused. -/
theorem Resettable.foldlM_set (hS : S.Loaded) (hm : m.Resettable S) (hsorted : m.Sorted)
    {acc : Message} {rest : List NodeId} (hnodup : rest.Nodup)
    (hrest : ∀ n ∈ rest, n ∈ S.graph.allFields m.type.node) (h : m.Nears Eq acc rest) :
    (∀ n ∈ rest, ∀ e, S.graph.Barren n e → m.standIn? n = none) ∧
        (m.told rest).foldlM (fun m e => m.set e.1 e.2) acc = .ok m ∨
      ∃ n ∈ rest, ∃ e, S.graph.Barren n e ∧ m.standIn? n = m.value? n ∧
        m.value? n = some (.atom (.enumeration 0)) ∧
        (m.told rest).foldlM (fun m e => m.set e.1 e.2) acc =
          .error (.illegalValue (S.graph.fieldLabel n) (.enumNumber 0 (S.graph.fqn e))) := by
  have hg := hS.linked
  -- Field by field, what has been set so far nears the message.
  induction rest generalizing acc with
  | nil =>
    have heq : acc = m := eq_of_value?_eq h.type h.ascending hsorted.ascending fun n =>
      h.done n List.not_mem_nil
    exact .inl ⟨by simp, by rw [heq]; rfl⟩
  | cons n rest ih =>
    obtain ⟨hn, hnodup⟩ := List.nodup_cons.mp hnodup
    have hmem := hrest n List.mem_cons_self
    have hrest' := fun n' hn' => hrest n' (List.mem_cons_of_mem _ hn')
    cases hv : m.value? n with
    | none =>
      rw [told_cons_of_none hv]
      rcases ih hnodup hrest' (h.skip rfl hm.populated hv) with ⟨hgood, hok⟩ | ⟨n', hn', herror⟩
      · exact .inl ⟨List.forall_mem_cons.mpr ⟨fun _ _ => hm.populated n hv, hgood⟩, hok⟩
      · exact .inr ⟨n', List.mem_cons_of_mem _ hn', herror⟩
    | some v =>
      rw [told_cons_of_some hv, List.foldlM_cons, hm.graph]
      obtain ⟨-, s, hs, hconverts | ⟨hstandIn, e, hbarren⟩⟩ := hm.kept n v hv
      · rw [set_fieldLabel hS hm h.type hmem hs hconverts]
        have hput : m.Nears Eq (acc.put n v) rest := h.put hg hm.snapshot rfl hn hv.symm
          fun n' v' hv' hcompete => hm.apart n n' v v' hv hv' hcompete
        rcases ih hnodup hrest' hput with ⟨hgood, hok⟩ | ⟨n', hn', herror⟩
        · refine .inl ⟨List.forall_mem_cons.mpr ⟨fun e hbarren => ?_, hgood⟩, hok⟩
          exact absurd hconverts (hS.built.not_fieldConverts_of_barren hbarren hs)
        · exact .inr ⟨n', List.mem_cons_of_mem _ hn', herror⟩
      · obtain ⟨rfl, hset⟩ := set_fieldLabel_of_barren hS hm h.type hmem hstandIn hbarren
        refine .inr ⟨n, List.mem_cons_self, e, hbarren, hstandIn.trans hv.symm, hv, ?_⟩
        rw [hset]
        rfl

/-- An own field is known by its name. -/
theorem fieldLabel_of_mem_ownFields (hS : S.Built) {node : NodeId}
    (h : n ∈ S.graph.ownFields node) : S.graph.fieldLabel n = S.graph.name n := by
  rw [Graph.fieldLabel_eq, hS.tree.owner?_of_mem_ownFields h]
  rfl

/-- An extension is known by its path. -/
theorem fieldLabel_of_mem_extensionsOf (hS : S.Loaded) {node : NodeId}
    (h : n ∈ S.graph.extensionsOf node) : S.graph.fieldLabel n = S.graph.fqn n := by
  obtain ⟨x, -, howner⟩ := hS.linked.exists_owner?_of_mem_extensionsOf hS.built.tree h
  rw [Graph.fieldLabel_eq, howner]
  rfl

/-- What a message tells are its own fields under their names and the extensions under their
paths. -/
theorem Resettable.mem_fields (hS : S.Loaded) (hm : m.Resettable S) {label : String} :
    (label, v) ∈ m.fields ↔ ∃ n, m.value? n = some v ∧
      (n ∈ S.graph.ownFields m.type.node ∧ label = S.graph.name n ∨
        n ∈ S.graph.extensionsOf m.type.node ∧ label = S.graph.fqn n) := by
  rw [Message.mem_fields, hm.graph]
  constructor
  · rintro ⟨n, hn, hv, rfl⟩
    refine ⟨n, hv, (Graph.mem_allFields.mp hn).imp (fun hn => ⟨hn, ?_⟩) fun hn => ⟨hn, ?_⟩⟩
    · exact fieldLabel_of_mem_ownFields hS.built hn
    · exact fieldLabel_of_mem_extensionsOf hS hn
  · rintro ⟨n, hv, ⟨hn, rfl⟩ | ⟨hn, rfl⟩⟩
    · exact ⟨n, Graph.mem_allFields.mpr (.inl hn), hv,
        (fieldLabel_of_mem_ownFields hS.built hn).symm⟩
    · exact ⟨n, Graph.mem_allFields.mpr (.inr hn), hv, (fieldLabel_of_mem_extensionsOf hS hn).symm⟩

/-- A message that was new and has been changed by setters tells its own fields under their names
and its extensions under their paths. Building it anew from what it tells gives the message, unless
defaults are asked for and some own field is barren: then the zero is refused that the first such
field has been filled in with. -/
theorem Grown.ofFields_fields_iff (hS : t.snapshot.Loaded) (hm : m.Grown t) :
    (∀ label v, (label, v) ∈ m.fields ↔ ∃ n, m.value? n = some v ∧
      (n ∈ t.graph.ownFields t.node ∧ label = t.graph.name n ∨
        n ∈ t.graph.extensionsOf t.node ∧ label = t.graph.fqn n)) ∧
    ((∃ m', ofFields t m.fields = .ok m' ∧ m' == m) ↔ (t.graph.settings.populateDefaults = true →
      ∀ n ∈ t.graph.ownFields t.node, ∀ e, ¬t.graph.Barren n e)) ∧
    (ofFields t m.fields = .ok m ∨ ∃ n ∈ t.graph.ownFields t.node, ∃ e, t.graph.Barren n e ∧
      m.value? n = some (.atom (.enumeration 0)) ∧ ofFields t m.fields =
        .error (.illegalValue (t.graph.name n) (.enumNumber 0 (t.graph.fqn e)))) := by
  obtain ⟨rfl, hresettable⟩ := hm.resettable hS.built hS.linked rfl
  have hsorted := hm.sorted hS.built
  have hstart : m.Nears Eq (Message.new m.type)
      (m.type.snapshot.graph.allFields m.type.node) :=
    .new rfl rfl hresettable.populated fun n hn =>
      Option.eq_none_iff_forall_ne_some.mpr fun v hv => hn (hresettable.kept n v hv).1
  have hrun := hresettable.foldlM_set hS hsorted (hS.linked.nodup_allFields m.type.node)
    (fun _ h => h) hstart
  have hfields : ofFields m.type m.fields =
      (m.told (m.type.snapshot.graph.allFields m.type.node)).foldlM (fun m e => m.set e.1 e.2)
        (Message.new m.type) := by
    rw [ofFields, ← told_allFields, hresettable.graph]
  rw [← hfields] at hrun
  have hstandIn : ∀ {n v}, m.standIn? n = some v →
      m.type.snapshot.graph.settings.populateDefaults = true ∧
        n ∈ m.type.snapshot.graph.ownFields m.type.node := by
    intro n v h
    rw [standIn?] at h
    split at h
    · assumption
    · cases h
  refine ⟨fun label v => hresettable.mem_fields hS, ?_, ?_⟩
  · constructor
    · rintro ⟨m', hok, -⟩ hsettings n hn e hbarren
      rcases hrun with ⟨hgood, -⟩ | ⟨n', -, e', -, -, -, herror⟩
      · have hnone := hgood n (Graph.mem_allFields.mpr (.inl hn)) e hbarren
        rw [standIn?, hresettable.graph, if_pos ⟨hsettings, hn⟩,
          (hS.built.filling?_of_barren hbarren).1] at hnone
        cases hnone
      · rw [herror] at hok
        cases hok
    · intro hfertile
      rcases hrun with ⟨-, hok⟩ | ⟨n, -, e, hbarren, hstand, hv, -⟩
      · exact ⟨m, hok, hsorted.same_self⟩
      · obtain ⟨hsettings, hn⟩ := hstandIn (hstand.trans hv)
        exact absurd hbarren (hfertile hsettings n hn e)
  · refine hrun.imp And.right ?_
    rintro ⟨n, -, e, hbarren, hstand, hv, herror⟩
    have hn := (hstandIn (hstand.trans hv)).2
    rw [fieldLabel_of_mem_ownFields hS.built hn] at herror
    exact ⟨n, hn, e, hbarren, hv, herror⟩

/-- A message with a field of a oneof, a map and a list is built anew. The other field of the oneof
was present for a while. -/
theorem ofFields_fields_mixed : (mixed 4 2 3 [7]).Grown ⟨⟨.mixed, 1⟩⟩ ∧
    (mixed 4 2 3 [7]).fields.map Prod.fst = ["y", "m", "r"] ∧
    ∃ m', ofFields ⟨⟨.mixed, 1⟩⟩ (mixed 4 2 3 [7]).fields = .ok m' ∧ m' == mixed 4 2 3 [7] := by
  have hx : (new ⟨⟨.mixed, 1⟩⟩).set "x" (.atom (.i32 1)) =
      .ok ⟨⟨⟨.mixed, 1⟩⟩, [(3, .atom (.i32 1))]⟩ := by
    cbv
  have hy : Message.set ⟨⟨⟨.mixed, 1⟩⟩, [(3, .atom (.i32 1))]⟩ "y" (.atom (.i32 2)) =
      .ok ⟨⟨⟨.mixed, 1⟩⟩, [(4, .atom (.i32 2))]⟩ := by
    cbv
  have hopen : Message.openMap ⟨⟨⟨.mixed, 1⟩⟩, [(4, .atom (.i32 2))]⟩ "m" =
      .ok (.empty .int32 (.scalar .int32) (some .mixed), ⟨⟨⟨.mixed, 1⟩⟩,
        [(4, .atom (.i32 2)), (5, .map ⟨.int32, .scalar .int32, some .mixed, []⟩)]⟩) := by
    cbv
  have hentry : MapValue.set (.empty .int32 (.scalar .int32) (some .mixed)) (.atom (.u64 1))
      (.atom (.i32 3)) =
        .ok ⟨.int32, .scalar .int32, some .mixed, [(.i32 1, .atom (.i32 3))]⟩ := by
    cbv
  have hput : Message.update? ⟨⟨⟨.mixed, 1⟩⟩,
      [(4, .atom (.i32 2)), (5, .map ⟨.int32, .scalar .int32, some .mixed, []⟩)]⟩ "m"
        (fun _ => some (.map
          ⟨.int32, .scalar .int32, some .mixed, [(.i32 1, .atom (.i32 3))]⟩)) =
      some ⟨⟨⟨.mixed, 1⟩⟩, [(4, .atom (.i32 2)),
        (5, .map ⟨.int32, .scalar .int32, some .mixed, [(.i32 1, .atom (.i32 3))]⟩)]⟩ := by
    cbv
  have hr : Message.add ⟨⟨⟨.mixed, 1⟩⟩, [(4, .atom (.i32 2)),
      (5, .map ⟨.int32, .scalar .int32, some .mixed, [(.i32 1, .atom (.i32 3))]⟩)]⟩ "r"
        (.atom (.i32 7)) = .ok (mixed 4 2 3 [7]) := by
    cbv
  have hm : (mixed 4 2 3 [7]).Grown ⟨⟨.mixed, 1⟩⟩ :=
    .add (.openSet (.set (.set .new (.atom _) hx) (.atom _) hy) (.atom _) hopen hentry hput)
      (.atom _) hr
  exact ⟨hm, by cbv,
    (hm.ofFields_fields_iff Snapshot.loaded_mixed).2.1.mpr fun hsettings => by cases hsettings⟩

end Message

/-- A message whose field is of a closed enum without values. -/
def Snapshot.barren : Snapshot where
  stamp := 0
  graph :=
    { nodes := #[
        ⟨"", none, .package { children := [1, 2] }⟩,
        ⟨"E", some 0, .enumeration {}⟩,
        ⟨"M", some 0, .message
          { scope := { children := [3], dialect := .proto3 }, fields := [3] }⟩,
        ⟨"e", some 2, .field (.plain .proto3 .implicit 1 "e" "E"
          ⟨.enumeration 1, none, false, some (.enumeration 0)⟩)⟩]
      extensions := []
      settings := {} }

/-- The enum comes from a file of its own. -/
theorem Snapshot.loaded_barren : Snapshot.barren.Loaded := by
  let first : Registry :=
    { graph :=
        { nodes := #[⟨"", none, .package { children := [1] }⟩, ⟨"E", some 0, .enumeration {}⟩]
          extensions := []
          settings := {} } }
  have hfirst : (Registry.empty {}).after (Registry.load "enum E {}" none) = first := by
    cbv
  have hsecond : ((first.after
      (Registry.load "syntax = \"proto3\"; message M { E e = 1; }" none)).after
        (Registry.resolveAll 0)).snapshot = some barren := by
    cbv
  have hloaded : first.Loaded := hfirst ▸ .load (.empty {}) "enum E {}" none
  exact ⟨_, .resolveAll (.load hloaded _ none) 0, hsecond⟩

/-- A new message with such a field cannot be built anew. -/
theorem Message.ofFields_fields_barren : Snapshot.barren.Loaded ∧
    (new ⟨⟨.barren, 2⟩⟩).Grown ⟨⟨.barren, 2⟩⟩ ∧
    (new ⟨⟨.barren, 2⟩⟩).fields = [("e", .atom (.enumeration 0))] ∧
    ofFields ⟨⟨.barren, 2⟩⟩ (new ⟨⟨.barren, 2⟩⟩).fields =
      .error (.illegalValue "e" (.enumNumber 0 ".E")) ∧
    ¬∃ m', ofFields ⟨⟨.barren, 2⟩⟩ (new ⟨⟨.barren, 2⟩⟩).fields = .ok m' ∧
      m' == new ⟨⟨.barren, 2⟩⟩ := by
  have hrefused : ofFields ⟨⟨.barren, 2⟩⟩ (new ⟨⟨.barren, 2⟩⟩).fields =
      .error (.illegalValue "e" (.enumNumber 0 ".E")) := by
    cbv
  refine ⟨Snapshot.loaded_barren, .new, by cbv, hrefused, ?_⟩
  rintro ⟨m', hok, -⟩
  rw [hrefused] at hok
  cases hok

end Protobuf

import Mathlib
import Protobuf.Proofs.Graph.Label
import Protobuf.Proofs.Message.Made
import Protobuf.Proofs.Registry.Loaded

/-!
# What a message holds may be set again

A value that fills its slot is a fixpoint of the check that setters make, with one exception: a
closed enum has to declare the numbers that are set, but a message may hold others, because the
decoder does not ask for that. So what a message tells of its fields may be set on any message of
the type, each value under its label, exactly if the closed enums in question declare the numbers in
it; and whatever is let in is kept as it is.

## Main definitions

* `Value.elements` — the single values that a setter looks at one by one.
* `Graph.Declares` — a closed enum declares the number that a value gives for it.

## Main results

* `Value.Fills.fitField_eq_ok` — when a value of a message is let into its field again
* `Message.WellTyped.set_field` — when a field may be set again
* `Message.set_of_decode` — when a decoded field may be set on a new message
-/

namespace Protobuf

/-- The single values that a value is made of: the elements of a list, the values of a map, and any
other value itself. -/
def Value.elements : Value → List Value
  | .list items => items
  | .map m => MapValue.values m
  | v => [v]

/-- If the value is a number of a closed enum, the enum declares it. -/
def Graph.Declares (g : Graph) (t : FieldType) (v : Value) : Prop :=
  ∀ e id, t = .enumeration e → v = .atom (.enumeration id) → g.dialectOf e = .proto2 →
    g.enumHas e id = true

/-! ### Single values -/

/-- A check that lets a value in as it is. -/
theorem ok_eq_ok_iff {ε α : Type} {a b : α} {P : Prop} (h : P) :
    (Except.ok a : Except ε α) = .ok b ↔ b = a ∧ P := by
  rw [Except.ok.injEq, eq_comm]
  exact (and_iff_left h).symm

theorem Graph.enumNumber_enumeration (g : Graph) (e : NodeId) (id : Int32) :
    g.enumNumber e (.atom (.enumeration id)) = .ok id := by
  show Value.enumNumber (.atom (.enumeration id)) = .ok id
  have hmem : id.toInt ∈ IntRange.int32 := IntRange.mem_int32 id
  simp [Value.enumNumber, Value.atom?, Atom.integer?, hmem]

theorem Graph.fitEnum_eq_ok {g : Graph} {e : NodeId} {id id' : Int32} :
    g.fitEnum e (.atom (.enumeration id)) = .ok id' ↔
      id' = id ∧ (g.dialectOf e = .proto2 → g.enumHas e id = true) := by
  rw [fitEnum, enumNumber_enumeration]
  show (if _ then (throw _ >>= fun _ => pure id) else pure id) = Except.ok id' ↔ _
  split
  · rename_i hclosed
    constructor
    · intro h
      cases h
    · rintro ⟨-, hdeclared⟩
      simp [hdeclared hclosed.1] at hclosed
  · rename_i hopen
    constructor
    · intro h
      cases h
      exact ⟨rfl, fun hclosed => by simpa [hclosed] using hopen⟩
    · rintro ⟨rfl, -⟩
      rfl

namespace Value.Fills

variable {S : Snapshot} {t : FieldType} {v v' : Value}

/-- A value of a message is let in again as it is, if at all. -/
theorem fit_eq_ok (h : v.Fills S .single t) :
    S.fit t v = .ok v' ↔ v' = v ∧ S.graph.Declares t v := by
  cases h with
  | @atom _ a holds =>
    cases t with
    | scalar s =>
      have hfit : S.fit (.scalar s) (.atom a) = .ok (.atom a) := by
        rw [Snapshot.fit, coerce, Scalar.coerce_of_holds holds]
        rfl
      rw [hfit]
      refine ok_eq_ok_iff ?_
      intro e id ht
      cases ht
    | enumeration e =>
      cases a with
      | enumeration id =>
        show (S.graph.fitEnum e (.atom (.enumeration id))).map _ = _ ↔ _
        rw [map_eq_ok]
        constructor
        · rintro ⟨id', hid', rfl⟩
          obtain ⟨rfl, hdeclared⟩ := Graph.fitEnum_eq_ok.mp hid'
          refine ⟨rfl, ?_⟩
          intro e' id ht hv hclosed
          cases ht
          cases hv
          exact hdeclared hclosed
        · rintro ⟨rfl, hdeclared⟩
          exact ⟨id, Graph.fitEnum_eq_ok.mpr ⟨rfl, hdeclared e id rfl rfl⟩, rfl⟩
      | _ => cases holds
    | message node => cases holds
    | group node => cases holds
  | @message _ m node snapshot _ _ =>
    have hsame : m.type.sameAs ⟨⟨S, m.type.node⟩⟩ = true := by
      simp [MessageType.sameAs, snapshot]
    have hfit : S.fit t (.message m) = .ok (.message m) := by
      cases t with
      | scalar s => cases node
      | enumeration e => cases node
      | message n | group n =>
        cases node
        exact if_pos hsame
    rw [hfit]
    refine ok_eq_ok_iff ?_
    intro e id _ hv
    cases hv

/-! ### Lists and maps -/

theorem attach_eq_ok {key : Scalar} {entries : List (Atom × Value)} {m : MapValue}
    (h : (Value.map ⟨key, t, some S, entries⟩).Fills S (.map key) t) :
    MapValue.attach ⟨key, t, some S, entries⟩ S = .ok m ↔
      m = ⟨key, t, some S, entries⟩ ∧ ∀ e ∈ entries, S.graph.Declares t e.2 := by
  cases h with
  | map _ _ values =>
    have hentry : ∀ e ∈ entries, ∀ e', (do
          let v ← S.fit t e.2
          return (e.1, v)) = Except.ok e' ↔ e' = e ∧ S.graph.Declares t e.2 := by
      intro e he e'
      rw [bind_eq_ok]
      constructor
      · rintro ⟨v, hv, heq⟩
        obtain ⟨rfl, hdeclares⟩ := (values e he).fit_eq_ok.mp hv
        cases heq
        exact ⟨rfl, hdeclares⟩
      · rintro ⟨rfl, hdeclares⟩
        exact ⟨e'.2, (values e' he).fit_eq_ok.mpr ⟨rfl, hdeclares⟩, rfl⟩
    rw [MapValue.attach, bind_eq_ok]
    constructor
    · rintro ⟨entries', hentries, heq⟩
      obtain ⟨rfl, hall⟩ := (mapM_eq_ok_of_self hentry).mp hentries
      cases heq
      exact ⟨rfl, hall⟩
    · rintro ⟨rfl, hall⟩
      exact ⟨entries, (mapM_eq_ok_of_self hentry).mpr ⟨rfl, hall⟩, rfl⟩

/-- What a field of a message holds is let in again as it is, if the closed enums among the types
declare the numbers in it, and not otherwise. -/
theorem fitField_eq_ok {s : Slot} (h : v.Fills S s.shape s.type) :
    S.fitField s v = .ok v' ↔ v' = v ∧ ∀ w ∈ v.elements, S.graph.Declares s.type w := by
  unfold Snapshot.fitField
  generalize s.shape = shape at h
  cases h with
  | atom holds =>
    rw [(Value.Fills.atom holds).fit_eq_ok]
    simp [elements]
  | message node snapshot regular fields =>
    rw [(Value.Fills.message node snapshot regular fields).fit_eq_ok]
    simp [elements]
  | @list _ items fills =>
    show (items.mapM (S.fit s.type)).map .list = .ok v' ↔ _
    have hmap : ∀ items', items.mapM (S.fit s.type) = .ok items' ↔
        items' = items ∧ ∀ w ∈ items, S.graph.Declares s.type w :=
      fun items' => mapM_eq_ok_of_self fun w hw w' => (fills w hw).fit_eq_ok
    rw [map_eq_ok]
    constructor
    · rintro ⟨items', hitems, rfl⟩
      obtain ⟨rfl, hall⟩ := (hmap items').mp hitems
      exact ⟨rfl, hall⟩
    · rintro ⟨rfl, hall⟩
      exact ⟨items, (hmap items).mpr ⟨rfl, hall⟩, rfl⟩
  | @map key _ entries ascending keys values =>
    have hattach := fun m => (Value.Fills.map ascending keys values).attach_eq_ok (m := m)
    show (if _ then (MapValue.attach ⟨key, s.type, some S, entries⟩ S).map Value.map else _) =
      Except.ok v' ↔ _
    rw [if_pos ⟨rfl, rfl⟩, map_eq_ok]
    constructor
    · rintro ⟨m, hm, rfl⟩
      obtain ⟨rfl, hall⟩ := (hattach m).mp hm
      refine ⟨rfl, ?_⟩
      intro w hw
      obtain ⟨e, he, rfl⟩ := List.mem_map.mp hw
      exact hall e he
    · rintro ⟨rfl, hall⟩
      refine ⟨_, (hattach _).mpr ⟨rfl, ?_⟩, rfl⟩
      intro e he
      exact hall e.2 (List.mem_map.mpr ⟨e, he, rfl⟩)

end Value.Fills

/-! ### Fields of messages -/

namespace Message

variable {S : Snapshot} {m : Message} {t : MessageType} {label : String} {v : Value}

/-- What a message tells of its fields are the values that it has, under the labels of the
fields. -/
theorem mem_fields : (label, v) ∈ m.fields ↔ ∃ f ∈ m.graph.allFields m.type.node,
    m.value? f = some v ∧ label = m.graph.fieldLabel f := by
  rw [fields, MessageType.arrange, List.mem_filterMap]
  constructor
  · rintro ⟨f, hf, h⟩
    obtain ⟨e, he, heq⟩ := Option.map_eq_some_iff.mp h
    cases heq
    exact ⟨f, hf, by rw [value?, he]; rfl, rfl⟩
  · rintro ⟨f, hf, hv, rfl⟩
    obtain ⟨e, he, rfl⟩ := Option.map_eq_some_iff.mp hv
    exact ⟨f, hf, by rw [he]; rfl⟩

/-- When setting a field succeeds. -/
theorem set_eq_ok_iff {name : String} {m' : Message} {f : NodeId} {s : Slot}
    (hf : m.type.field? name = some f) (hs : m.graph.slot? f = some s) :
    m.set name v = .ok m' ↔ ∃ v', m.type.snapshot.fitField s v = .ok v' ∧ m' = m.put f v' := by
  have hnode : m.node name = .ok f := by rw [node, hf]
  constructor
  · intro h
    obtain ⟨f', s', v', hf', hs', hfit, rfl⟩ := set_eq_ok h
    rw [hnode] at hf'
    cases hf'
    rw [hs] at hs'
    cases hs'
    exact ⟨v', hfit, rfl⟩
  · rintro ⟨v', hfit, rfl⟩
    have hkept := mapError_eq_ok (f := ValueError.illegalValue name).mpr hfit
    rw [Message.set]
    refine bind_eq_ok.mpr ⟨f, hnode, ?_⟩
    rw [hs]
    exact bind_eq_ok.mpr ⟨v', hkept, rfl⟩

/-- The field of a well-typed message that is told under a label is found by this label. -/
theorem WellTyped.exists_field (hS : S.Loaded) (hm : m.WellTyped S) (hv : (label, v) ∈ m.fields) :
    ∃ f s, m.type.field? label = some f ∧ S.graph.slot? f = some s ∧ m.value? f = some v ∧
      v.Fills S s.shape s.type := by
  obtain ⟨f, hf, hvalue, rfl⟩ := mem_fields.mp hv
  obtain ⟨-, s, hs⟩ := hm.regular.known f v hvalue
  rw [hm.graph] at hf hs
  have hfield : m.type.field? (m.graph.fieldLabel f) = some f := by
    show m.graph.fieldByName? m.type.node _ = _
    rw [hm.graph]
    exact hS.linked.fieldByName?_fieldLabel hS.built.tree hS.plainNames hf
  exact ⟨f, s, hfield, hs, hvalue, hm.fills hvalue hs⟩

/-- What a well-typed message tells of a field may be set on another message of the type, if the
closed enums in question declare the numbers in it, and not otherwise. -/
theorem WellTyped.set_field (hS : S.Loaded) (hm : m.WellTyped S) (hv : (label, v) ∈ m.fields)
    {m₀ : Message} (htype : m₀.type = m.type) : ∃ f s, m.type.field? label = some f ∧
      S.graph.slot? f = some s ∧
      ((∃ m', m₀.set label v = .ok m') ↔ ∀ w ∈ v.elements, S.graph.Declares s.type w) ∧
      ∀ m', m₀.set label v = .ok m' → m'.get? label = some v := by
  obtain ⟨f, s, hf, hs, -, hfills⟩ := hm.exists_field hS hv
  have hsnapshot : m₀.type.snapshot = S := by rw [htype, hm.snapshot]
  have hset : ∀ m', m₀.set label v = .ok m' ↔
      m' = m₀.put f v ∧ ∀ w ∈ v.elements, S.graph.Declares s.type w := by
    intro m'
    rw [set_eq_ok_iff (htype ▸ hf) (by rw [graph_of_snapshot hsnapshot, hs]), hsnapshot]
    constructor
    · rintro ⟨v', hfit, rfl⟩
      obtain ⟨rfl, hall⟩ := hfills.fitField_eq_ok.mp hfit
      exact ⟨rfl, hall⟩
    · rintro ⟨rfl, hall⟩
      exact ⟨v, hfills.fitField_eq_ok.mpr ⟨rfl, hall⟩, rfl⟩
  refine ⟨f, s, hf, hs, ⟨?_, ?_⟩, ?_⟩
  · rintro ⟨m', hm'⟩
    exact ((hset m').mp hm').2
  · intro hall
    exact ⟨_, (hset _).mpr ⟨rfl, hall⟩⟩
  · intro m' hm'
    obtain ⟨rfl, -⟩ := (hset m').mp hm'
    rw [get?, Decoding.type_put, htype, hf]
    exact value?_put_self m₀ f v

/-- What is decoded may be set on a new message, field by field and under the labels of the fields,
if the closed enums in question declare the numbers in it, and is refused otherwise. Whatever is
let in is kept as it is. -/
theorem set_of_decode (hS : S.Loaded) (ht : t.snapshot = S) {bytes : List UInt8}
    (h : decode t bytes = .ok m) (hv : (label, v) ∈ m.fields) : ∃ f s, t.field? label = some f ∧
      S.graph.slot? f = some s ∧
      ((∃ m', (new t).set label v = .ok m') ↔ ∀ w ∈ v.elements, S.graph.Declares s.type w) ∧
      ∀ m', (new t).set label v = .ok m' → m'.get? label = some v := by
  obtain ⟨rfl, hm, -⟩ := wellTyped_of_decode hS.linked ht h
  exact hm.set_field hS hv (WellTyped.type_populate _)

end Message

/-- Messages with values of a closed enum. -/
def Snapshot.closed : Snapshot where
  stamp := 0
  graph :=
    { nodes := #[
        ⟨"", none, .package { children := [1, 4] }⟩,
        ⟨"M", some 0, .message { scope := { children := [2, 3] }, fields := [2, 3] }⟩,
        ⟨"e", some 1, .field (.plain .proto2 .optional 1 "e" "E"
          ⟨.enumeration 4, none, false, none⟩)⟩,
        ⟨"r", some 1, .field (.plain .proto2 .repeated 2 "r" "E"
          ⟨.enumeration 4, none, false, none⟩)⟩,
        ⟨"E", some 0, .enumeration { children := [5] }⟩,
        ⟨"A", some 4, .enumValue 1 {}⟩]
      extensions := []
      settings := {} }

theorem Snapshot.loaded_closed : Snapshot.closed.Loaded := by
  have h : (Registry.ofText {}
      "enum E { A = 1; } message M { optional E e = 1; repeated E r = 2; }").snapshot =
        some closed := by
    cbv
  exact loaded_of_ofText h

/-- A list of declared numbers may be set again. -/
theorem Message.set_of_decode_declared : ∃ m : Message,
    decode ⟨⟨.closed, 1⟩⟩ [16, 1, 16, 1] = .ok m ∧
      ∃ m', (new ⟨⟨.closed, 1⟩⟩).set "r"
          (.list [.atom (.enumeration 1), .atom (.enumeration 1)]) = .ok m' ∧
        m'.get? "r" = some (.list [.atom (.enumeration 1), .atom (.enumeration 1)]) := by
  have hread : decode ⟨⟨.closed, 1⟩⟩ [16, 1, 16, 1] = .ok ⟨⟨⟨.closed, 1⟩⟩,
      [(3, .list [.atom (.enumeration 1), .atom (.enumeration 1)])]⟩ := by
    cbv
  have hfields : ("r", Value.list [.atom (.enumeration 1), .atom (.enumeration 1)]) ∈
      Message.fields ⟨⟨⟨.closed, 1⟩⟩,
        [(3, .list [.atom (.enumeration 1), .atom (.enumeration 1)])]⟩ :=
    mem_fields.mpr ⟨3, by decide, rfl, by cbv⟩
  obtain ⟨f, s, hf, hs, hset, hkept⟩ := set_of_decode Snapshot.loaded_closed rfl hread hfields
  have hfield : some f = some 3 := hf.symm.trans (by cbv)
  cases hfield
  have htype : (Snapshot.closed.graph.slot? 3).map Slot.type = some (.enumeration 4) := by cbv
  rw [hs] at htype
  have hdeclared : ∀ w ∈ Value.elements (.list [.atom (.enumeration 1), .atom (.enumeration 1)]),
      Snapshot.closed.graph.Declares s.type w := by
    intro w hw e id ht hv _
    rw [Option.some.inj htype] at ht
    cases ht
    simp only [Value.elements, List.mem_cons, List.not_mem_nil, or_false, or_self] at hw
    rw [hw] at hv
    cases hv
    decide_cbv
  obtain ⟨m', hm'⟩ := hset.mpr hdeclared
  exact ⟨_, hread, m', hm', hkept m' hm'⟩

/-- A number that a closed enum does not declare is read from the wire, but may not be set. -/
theorem Message.set_of_decode_undeclared : Snapshot.closed.Loaded ∧ ∃ m : Message,
    decode ⟨⟨.closed, 1⟩⟩ [8, 5] = .ok m ∧ ("e", .atom (.enumeration 5)) ∈ m.fields ∧
      (new ⟨⟨.closed, 1⟩⟩).set "e" (.atom (.enumeration 5)) =
        .error (.illegalValue "e" (.enumNumber 5 ".E")) := by
  refine ⟨Snapshot.loaded_closed, ⟨⟨⟨.closed, 1⟩⟩, [(2, .atom (.enumeration 5))]⟩, by cbv, ?_,
    by cbv⟩
  exact mem_fields.mpr ⟨2, by decide, rfl, by cbv⟩

end Protobuf

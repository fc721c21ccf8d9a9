import Mathlib
import Protobuf.Proofs.Message.Packed
import Protobuf.Proofs.Registry.Loaded

/-!
# Defaults and oneofs

A new message, and one that has just been read, is filled up: each own field that should always be
present is given its default, if it is absent and has one. This leaves alone whatever is present. A
field of implicit presence belongs to no oneof, but a required field is filled in wherever it
stands. Schema texts have no required fields in oneofs; definitions that a program has put together
may, and then all fields of a oneof can be filled in at once, though none was ever set.

So oneofs are spared exactly if no required field in them has a default. That these are the only
ones to be excepted is read off the rule and the oneof of a field alone.

## Main definitions

* `FieldNode.isImposed` — a field is filled in although it belongs to a oneof.
* `Message.FilledUp` — what filling up does to a message.
* `MessageType.SparesOneofs` — filling up never presents a field of a oneof.

## Main results

* `Message.filledUp_populate` — filling up adds defaults and changes nothing else
* `MessageType.populate_spares_iff` — when filling up spares the oneofs of a type
-/

namespace Protobuf

/-- The field belongs to a oneof and is filled in all the same, as it is required and has a
default. -/
def FieldNode.isImposed (f : FieldNode) : Bool :=
  f.oneof.isSome && f.rule = .required && f.default?.isSome

/-- The node is a field that belongs to a oneof. -/
def Graph.InOneof (g : Graph) (n : NodeId) : Prop :=
  ∃ f o, g.field? n = some f ∧ f.oneof = some o

/-- The message `full` is `m` with the defaults of own fields that were absent from it and should
always be present, and no such default is missing. -/
structure Message.FilledUp (m full : Message) : Prop where
  type : full.type = m.type
  kept : ∀ n v, m.value? n = some v → full.value? n = some v
  added : ∀ n v, m.value? n = none → full.value? n = some v →
    n ∈ m.graph.ownFields m.type.node ∧ ∃ f a, m.graph.field? n = some f ∧
      (f.rule = .required ∨ f.hasImplicitPresence) ∧ f.default? = some a ∧ v = .atom a
  complete : full.Populated

/-- Filling up leaves the fields of oneofs as they are: none is present in a new message, and in one
that has been read only those are for which there is a record. -/
structure MessageType.SparesOneofs (t : MessageType) : Prop where
  populate : ∀ m : Message, m.type = t → ∀ n, t.graph.InOneof n →
    m.populate.value? n = m.value? n
  apart : ∀ m : Message, m.type = t → m.Apart → m.populate.Apart
  new : ∀ n, t.graph.InOneof n → (Message.new t).value? n = none
  read : ∀ bytes (m : Message), m.IsReadFrom t bytes →
    ∀ n v, t.graph.InOneof n → m.value? n = some v →
    ∃ r ∈ (Wire.Stream.ofBytes bytes).records, t.fieldById? r.1 = some n

/-! ### Filling up -/

/-- A field of a oneof that is filled in is required, and not of implicit presence. -/
theorem FieldNode.isImposed_of_isAlwaysPresent {f : FieldNode} {o : NodeId} {a : Atom}
    (halways : f.isAlwaysPresent = true) (ho : f.oneof = some o) (ha : f.default? = some a) :
    f.isImposed = true := by
  have hrule : f.rule = .required := by
    simpa [isAlwaysPresent, hasImplicitPresence, ho] using halways
  simp [isImposed, ho, hrule, ha]

namespace Graph

variable {g : Graph} {n : NodeId} {v : Value}

/-- What a field is filled in with is the default of a field that should always be present. -/
theorem filling?_eq_some : g.filling? n = some v ↔
    ∃ f a, g.field? n = some f ∧ f.isAlwaysPresent = true ∧ f.default? = some a ∧ v = .atom a := by
  rw [filling?, Option.map_eq_some_iff]
  constructor
  · rintro ⟨a, ha, rfl⟩
    obtain ⟨f, hf, ha⟩ := Option.bind_eq_some_iff.mp ha
    obtain ⟨hf, halways⟩ := Option.filter_eq_some_iff.mp hf
    exact ⟨f, a, hf, halways, ha, rfl⟩
  · rintro ⟨f, a, hf, halways, ha, rfl⟩
    refine ⟨a, ?_, rfl⟩
    rw [hf, Option.filter_some, if_pos halways]
    exact ha

/-- Where no field is imposed on its oneof, fields of oneofs are not filled in. -/
theorem filling?_of_inOneof (h : ∀ f, g.field? n = some f → f.isImposed = false)
    (hn : g.InOneof n) : g.filling? n = none := by
  refine Option.eq_none_iff_forall_ne_some.mpr fun v hv => ?_
  obtain ⟨f, a, hf, halways, ha, -⟩ := filling?_eq_some.mp hv
  obtain ⟨f', o, hf', ho⟩ := hn
  rw [hf] at hf'
  cases hf'
  have himposed := FieldNode.isImposed_of_isAlwaysPresent halways ho ha
  rw [h f hf] at himposed
  cases himposed

/-- A field that is imposed on its oneof is filled in. -/
theorem exists_filling?_of_isImposed {f : FieldNode} (hf : g.field? n = some f)
    (h : f.isImposed = true) : g.InOneof n ∧ ∃ v, g.filling? n = some v := by
  rw [FieldNode.isImposed, Bool.and_eq_true, Bool.and_eq_true, decide_eq_true_eq] at h
  obtain ⟨⟨ho, hrule⟩, ha⟩ := h
  obtain ⟨o, ho⟩ := Option.isSome_iff_exists.mp ho
  obtain ⟨a, ha⟩ := Option.isSome_iff_exists.mp ha
  have halways : f.isAlwaysPresent = true := by simp [FieldNode.isAlwaysPresent, hrule]
  exact ⟨⟨f, o, hf, ho⟩, .atom a, filling?_eq_some.mpr ⟨f, a, hf, halways, ha, rfl⟩⟩

end Graph

namespace Message

variable {m : Message} {n : NodeId} {v : Value}

/-- Filling up adds defaults and changes nothing else. -/
theorem filledUp_populate (m : Message) : m.FilledUp m.populate where
  type := WellTyped.type_populate m
  kept n v hv := by rw [WellTyped.value?_populate, hv, Option.some_or]
  added n v hnone hv := by
    rw [WellTyped.value?_populate, hnone, Option.none_or, standIn?] at hv
    split at hv
    · rename_i hown
      obtain ⟨f, a, hf, halways, ha, rfl⟩ := Graph.filling?_eq_some.mp hv
      rw [FieldNode.isAlwaysPresent, Bool.or_eq_true, decide_eq_true_eq] at halways
      exact ⟨hown.2, f, a, hf, halways, ha, rfl⟩
    · cases hv
  complete := WellTyped.populated_populate m

end Message

/-! ### Messages that are read -/

namespace Change

/-- A field is made present by a change to it. -/
theorem field?_of_value?_apply {m : Message} {n : NodeId} {v : Value} {c : Change}
    (hm : m.value? n = none) (h : (c.apply m).value? n = some v) : c.field? = some n := by
  by_contra hc
  have hinsert : ∀ (m' : Message) f w, m'.value? n = none → f ≠ n →
      (m'.insert f w).value? n ≠ some v := by
    intro m' f w hm' hne heq
    rw [Message.value?_insert, if_neg hne, hm'] at heq
    cases heq
  cases c with
  | keep => exact absurd (hm.symm.trans h) (by simp)
  | put f w =>
    refine hinsert _ f w ?_ (fun heq => hc (congrArg some heq)) h
    rw [Message.WellTyped.value?_foldl_erase, hm, ite_self]
  | append f items =>
    rw [apply, Message.append] at h
    split at h
    · exact absurd (hm.symm.trans h) (by simp)
    · exact hinsert m f _ hm (fun heq => hc (congrArg some heq)) h
  | putEntry f s keyType key w =>
    rw [apply, Message.putEntry] at h
    split at h
    · exact hinsert m f _ hm (fun heq => hc (congrArg some heq)) h
    · exact hinsert m f _ hm (fun heq => hc (congrArg some heq)) h
    · exact absurd (hm.symm.trans h) (by simp)

/-- A field that changes have made present was changed by one of them. -/
theorem exists_field?_of_value?_foldl {m : Message} {n : NodeId} {v : Value} {cs : List Change}
    (hm : m.value? n = none) (h : (cs.foldl apply m).value? n = some v) :
    ∃ c ∈ cs, c.field? = some n := by
  induction cs generalizing m with
  | nil => exact absurd (hm.symm.trans h) (by simp)
  | cons c more ih =>
    cases hc : (c.apply m).value? n with
    | none =>
      obtain ⟨c', hc', hfield⟩ := ih hc h
      exact ⟨c', List.mem_cons_of_mem _ hc', hfield⟩
    | some w => exact ⟨c, List.mem_cons_self, field?_of_value?_apply hm hc⟩

end Change

namespace Message

variable {m : Message} {t : MessageType} {bytes : List UInt8}

/-- A message that is read is what its records have left, filled up. -/
theorem IsReadFrom.exists_filledUp (h : m.IsReadFrom t bytes) :
    ∃ before : Message, before.type = t ∧ m = before.populate ∧ ∀ n v, before.value? n = some v →
      ∃ r ∈ (Wire.Stream.ofBytes bytes).records, t.fieldById? r.1 = some n := by
  obtain ⟨noted, hrun⟩ := isReadFrom_iff.mp h
  obtain ⟨-, cs, before, hcs, rfl, -⟩ := Decoding.message_eq_ok.mp hrun
  refine ⟨_, Change.type_foldl _ cs, rfl, fun n v hv => ?_⟩
  obtain ⟨c, hc, hfield⟩ := Change.exists_field?_of_value?_foldl rfl hv
  have hyields : Yields ((Wire.Stream.ofBytes bytes).records.mapM
      (Decoding.change (Decoding.below recursionLimit) recursionLimit t)) fun cs => ∀ c ∈ cs,
        ∃ r ∈ (Wire.Stream.ofBytes bytes).records, c.field? = t.fieldById? r.1 :=
    Yields.mapM fun r hr => (Decoding.yields_field?_change r).mono fun _ hc => ⟨r, hr, hc⟩
  obtain ⟨r, hr, hrecord⟩ := hyields _ _ _ hcs c hc
  exact ⟨r, hr, hrecord.symm.trans hfield⟩

end Message

/-! ### Oneofs -/

namespace MessageType

variable {t : MessageType}

/-- If filling up leaves the fields of oneofs alone, it spares the oneofs in every way. -/
theorem sparesOneofs_of_populate (h : ∀ m : Message, m.type = t → ∀ n, t.graph.InOneof n →
    m.populate.value? n = m.value? n) : t.SparesOneofs where
  populate := h
  apart := by
    rintro m rfl hm n n' v v' hv hv' hcompete
    have hgraph : m.populate.graph = m.type.graph := by
      rw [Message.graph, Message.WellTyped.type_populate]
    rw [hgraph] at hcompete
    obtain ⟨f, f', o, hf, hf', ho, ho'⟩ := hcompete
    rw [h m rfl n ⟨f, o, hf, ho⟩] at hv
    rw [h m rfl n' ⟨f', o, hf', ho'⟩] at hv'
    exact hm n n' v v' hv hv' ⟨f, f', o, hf, hf', ho, ho'⟩
  new n hn := h (.empty t) rfl n hn
  read := by
    intro bytes m hread n v hn hv
    obtain ⟨before, htype, rfl, hrecords⟩ := hread.exists_filledUp
    rw [h before htype n hn] at hv
    exact hrecords n v hv

/-- Filling up adds nothing but defaults of own fields that are absent, required or of implicit
presence, and it changes nothing else; this is all that is done to make a new message of an empty
one, and all that is done to a message when its last record has been read. It spares the oneofs of
a type, unless defaults are asked for and some required field of a oneof has one. In a schema that
was loaded from text no field of a oneof is required. -/
theorem populate_spares_iff (t : MessageType) :
    (∀ m : Message, m.type = t → m.FilledUp m.populate) ∧
    (Message.empty t).FilledUp (Message.new t) ∧
    (∀ bytes (m : Message), m.IsReadFrom t bytes →
      ∃ before : Message, before.type = t ∧ before.FilledUp m ∧
      ∀ n v, before.value? n = some v →
        ∃ r ∈ (Wire.Stream.ofBytes bytes).records, t.fieldById? r.1 = some n) ∧
    (t.SparesOneofs ↔ (t.graph.settings.populateDefaults = true →
      ∀ n ∈ t.graph.ownFields t.node, ∀ f, t.graph.field? n = some f → f.isImposed = false)) ∧
    (t.snapshot.Loaded → t.SparesOneofs) := by
  have hspares : (t.graph.settings.populateDefaults = true →
      ∀ n ∈ t.graph.ownFields t.node, ∀ f, t.graph.field? n = some f → f.isImposed = false) →
      t.SparesOneofs := by
    intro himposed
    refine sparesOneofs_of_populate ?_
    rintro m rfl n hn
    rw [Message.WellTyped.value?_populate, Message.standIn?]
    split
    · rename_i hown
      rw [Message.graph, Graph.filling?_of_inOneof (himposed hown.1 n hown.2) hn, Option.or_none]
    · rw [Option.or_none]
  refine ⟨fun m _ => m.filledUp_populate, (Message.empty t).filledUp_populate, ?_,
    ⟨fun h hsettings n hn f hf => ?_, hspares⟩, fun hS => hspares fun _ n _ f hf => ?_⟩
  · intro bytes m hread
    obtain ⟨before, htype, rfl, hrecords⟩ := hread.exists_filledUp
    exact ⟨before, htype, before.filledUp_populate, hrecords⟩
  · rw [Bool.eq_false_iff]
    intro himposed
    obtain ⟨honeof, v, hv⟩ := Graph.exists_filling?_of_isImposed hf himposed
    have hnew := h.new n honeof
    rw [Message.new, Message.WellTyped.value?_populate, Message.standIn?,
      if_pos ⟨hsettings, hn⟩] at hnew
    have habsent : t.graph.filling? n = none := hnew
    rw [habsent] at hv
    cases hv
  · cases ho : f.oneof with
    | none => simp [FieldNode.isImposed, ho]
    | some o =>
      have hrule : f.rule = .optional := (hS.linked.member n f o hf ho).1
      simp [FieldNode.isImposed, hrule]

end MessageType

/-- Two fields of a oneof, both required and with a default. -/
def Snapshot.imposing : Snapshot where
  stamp := 0
  graph :=
    let required (id : UInt32) (name : String) : FieldNode :=
      { FieldNode.plain .proto2 .required id name "int32"
          ⟨.scalar .int32, none, false, some (.i32 id.toInt32)⟩ with
        options := .ofList [("default", .int id.toNat)], oneof := some 2 }
    { nodes := #[
        ⟨"", none, .package { children := [1] }⟩,
        ⟨"M", some 0, .message
          { scope := { children := [2, 3, 4] }, fields := [3, 4], oneofs := [2] }⟩,
        ⟨"o", some 1, .oneof { fields := [3, 4] }⟩,
        ⟨"a", some 1, .field (required 1 "a")⟩,
        ⟨"b", some 1, .field (required 2 "b")⟩]
      extensions := []
      settings := {} }

/-- Its definitions. -/
def Snapshot.imposingDefinitions : List Definition :=
  let required (id : UInt32) (name : String) : FieldDecl :=
    { rule := .required, typeName := "int32", keyType := none, name, id,
      options := .ofList [("default", .int id.toNat)], oneof := some "o", line := 0 }
  [.message { name := "M", fields := [required 1 "a", required 2 "b"], oneofs := [⟨"o", {}⟩] }]

theorem Snapshot.built_imposing : Snapshot.imposing.Built := by
  have h : (Registry.ofDefinitions {} imposingDefinitions).snapshot = some imposing := by
    cbv
  exact built_of_ofDefinitions h

/-- In a new message both fields of the oneof are present, though neither was set; so they are in a
message without any records. -/
theorem MessageType.populate_imposing : Snapshot.imposing.Built ∧
    ¬(⟨⟨.imposing, 1⟩⟩ : MessageType).SparesOneofs ∧
    (Message.new ⟨⟨.imposing, 1⟩⟩).fields = [("a", .atom (.i32 1)), ("b", .atom (.i32 2))] ∧
    ¬(Message.new ⟨⟨.imposing, 1⟩⟩).Apart ∧
    ∃ m, Message.IsReadFrom m ⟨⟨.imposing, 1⟩⟩ [] ∧ m = Message.new ⟨⟨.imposing, 1⟩⟩ := by
  have ha : (Message.new ⟨⟨.imposing, 1⟩⟩).value? 3 = some (.atom (.i32 1)) := by cbv
  have hb : (Message.new ⟨⟨.imposing, 1⟩⟩).value? 4 = some (.atom (.i32 2)) := by cbv
  have hcompete : Snapshot.imposing.graph.Compete 3 4 := ⟨_, _, 2, rfl, rfl, rfl, rfl⟩
  refine ⟨Snapshot.built_imposing, fun h => ?_, by cbv, fun h => ?_, _, ?_, rfl⟩
  · obtain ⟨f, f', o, hf, -, ho, -⟩ := hcompete
    have hnone := h.new 3 ⟨f, o, hf, ho⟩
    rw [ha] at hnone
    cases hnone
  · exact absurd (h 3 4 _ _ ha hb hcompete) (by decide)
  · exact Message.isReadFrom_iff.mpr
      ⟨_, Decoding.message_eq_ok.mpr ⟨by cbv, [], [], by cbv, rfl, rfl⟩⟩

end Protobuf

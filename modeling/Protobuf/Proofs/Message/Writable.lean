import Protobuf.Proofs.Message.Sent
import Protobuf.Proofs.Message.Typed
import Protobuf.Proofs.Registry.Loaded

/-!
# Typed messages can be written

The writer refuses a value that is not of the shape and the type of its slot, and a field whose type
has not been looked up. Typed messages have neither, at any depth, so of these nothing is refused:
all that may be missing from a message that has been made are required fields.

## Main results

* `Value.Typed.exists_encoding` — a typed value can be written
* `Message.Made.writable` — what has been made is typed, and is refused for absent fields only
-/

namespace Protobuf

/-! ### Single values -/

theorem FieldType.isMessage_of_isPackable {t : FieldType} (h : t.isPackable) :
    t.isMessage = false := by
  cases t with
  | message node => cases h
  | group node => cases h
  | _ => rfl

/-- A single value that is no message is an atom. -/
theorem Value.Typed.exists_atom {S : Snapshot} {t : FieldType} {v : Value}
    (h : v.Typed S .single t) (ht : t.isMessage = false) : ∃ a, v = .atom a ∧ t.holds a := by
  cases h with
  | atom holds => exact ⟨_, rfl, holds⟩
  | message node _ _ _ =>
    cases t with
    | message _ => cases ht
    | group _ => cases ht
    | _ => cases node

namespace Slot

variable {s : Slot}

theorem exists_atomPayload {a : Atom} (h : s.type.holds a) :
    ∃ p, s.atomPayload (.atom a) = .ok p := by
  obtain ⟨p, hp, -⟩ := FieldType.payload?_of_holds h
  refine ⟨p, ?_⟩
  simp [atomPayload, Value.atom?, hp]

theorem exists_encodeAtom {a : Atom} (hshape : s.shape = .single) (h : s.type.holds a) :
    ∃ e, s.encodeAtom a = .ok e := by
  obtain ⟨p, hp⟩ := exists_atomPayload h
  rw [encodeAtom, hshape]
  by_cases hzero : (s.omitsZero && a.isZero) = true
  · exact ⟨{}, by simp [hzero]⟩
  · refine ⟨.record s.id p, ?_⟩
    simp only [hzero, hp]
    rfl

theorem exists_encodePacked {items : List Value}
    (h : ∀ v ∈ items, ∃ a, v = .atom a ∧ s.type.holds a) :
    ∃ e, s.encodePacked items = .ok e := by
  have hpayloads : ∃ ps, items.mapM s.element.atomPayload = .ok ps := by
    refine exists_mapM_eq_ok ?_
    intro v hv
    obtain ⟨a, rfl, ha⟩ := h v hv
    exact exists_atomPayload ha
  obtain ⟨ps, hps⟩ := hpayloads
  rw [encodePacked, hps]
  split
  · exact ⟨_, rfl⟩
  · exact ⟨_, rfl⟩

end Slot

/-! ### Lists and maps -/

section

variable {g : Graph} {s : Slot}

theorem Value.exists_encodingOfItems {items : List Value}
    (h : ∀ v ∈ items, ∃ e, v.encoding g s = .ok e) :
    ∃ e, Value.encodingOfItems g s items = .ok e := by
  induction items with
  | nil => exact ⟨{}, by rw [Value.encodingOfItems]⟩
  | cons v more ih =>
    obtain ⟨e, he⟩ := h v List.mem_cons_self
    obtain ⟨e', he'⟩ := ih fun w hw => h w (List.mem_cons_of_mem _ hw)
    refine ⟨e.append e', ?_⟩
    rw [Value.encodingOfItems, he, he']
    rfl

theorem Value.exists_encodingOfEntries {key : Scalar} {entries : List (Atom × Value)}
    (hkeys : ∀ x ∈ entries, key.holds x.1)
    (hvalues : ∀ x ∈ entries, ∃ e, x.2.encoding g s.entryValue = .ok e) :
    ∃ e, Value.encodingOfEntries g s key entries = .ok e := by
  induction entries with
  | nil => exact ⟨{}, by rw [Value.encodingOfEntries]⟩
  | cons x more ih =>
    obtain ⟨k, v⟩ := x
    obtain ⟨e, he⟩ := Slot.exists_encodeAtom (s := s.entryKey key) rfl
      (hkeys (k, v) List.mem_cons_self)
    obtain ⟨e', he'⟩ := hvalues (k, v) List.mem_cons_self
    obtain ⟨e'', he''⟩ := ih (fun x hx => hkeys x (List.mem_cons_of_mem _ hx))
      fun x hx => hvalues x (List.mem_cons_of_mem _ hx)
    refine ⟨((e.append e').wrap s.id).append e'', ?_⟩
    rw [Value.encodingOfEntries, he, he', he'']
    rfl

end

/-! ### Messages -/

/-- A message can be written if each of its values can. Fields that are absent are only noted. -/
theorem Message.exists_encoding {S : Snapshot} {m : Message} (hm : m.graph = S.graph)
    (h : ∀ f v, m.value? f = some v →
      ∃ s, S.graph.slot? f = some s ∧ ∃ part, v.encoding S.graph s = .ok part) :
    ∃ e, m.encoding = .ok e := by
  rw [encoding_eq]
  refine exists_foldlM_eq_ok ?_ _
  intro e f _
  cases hv : m.value? f with
  | none => exact ⟨_, writeField_of_none hv e⟩
  | some v =>
    obtain ⟨s, hs, part, hpart⟩ := h f v hv
    exact ⟨_, writeField_of_some hm hv hs hpart e⟩

/-- A typed value can be written. The induction is on the value, through all of its levels. -/
theorem Value.Typed.exists_encoding {S : Snapshot} {shape : Shape} {t : FieldType} {v : Value}
    (h : v.Typed S shape t) :
    ∀ s : Slot, s.shape = shape → s.type = t → ∃ e, v.encoding S.graph s = .ok e := by
  induction h with
  | atom holds =>
    intro s hshape htype
    rw [Value.encoding]
    exact Slot.exists_encodeAtom hshape (htype ▸ holds)
  | @message t m node snapshot known fields ih =>
    intro s hshape htype
    have hgraph := Message.graph_of_snapshot snapshot
    have hcontent : ∃ e, m.encoding = .ok e := by
      refine Message.exists_encoding hgraph ?_
      intro f v hv
      have hmem := Message.mem_of_value? hv
      obtain ⟨-, s', hs'⟩ := known (f, v) hmem
      exact ⟨s', hs', ih (f, v) hmem s' hs' s' rfl rfl⟩
    obtain ⟨e, he⟩ := hcontent
    rw [Value.encoding_message hgraph, he, Slot.encodeMessage, hshape, htype]
    cases t with
    | message _ => exact ⟨_, rfl⟩
    | group _ => exact ⟨_, rfl⟩
    | _ => cases node
  | @list t items elements ih =>
    intro s hshape htype
    rw [Value.encoding, hshape]
    by_cases hpacked : (s.packed && s.isPackable) = true
    · simp only [hpacked, if_true]
      simp only [Slot.isPackable, Bool.and_eq_true] at hpacked
      refine Slot.exists_encodePacked ?_
      intro v hv
      rw [htype]
      exact (elements v hv).exists_atom (FieldType.isMessage_of_isPackable (htype ▸ hpacked.2.2))
    · simp only [hpacked]
      exact Value.exists_encodingOfItems fun v hv => ih v hv s.element rfl htype
  | map keys values ih =>
    intro s hshape htype
    rw [Value.encoding, hshape]
    exact Value.exists_encodingOfEntries keys fun x hx => ih x hx s.entryValue rfl htype

namespace Message

variable {S : Snapshot} {m : Message}

theorem Typed.exists_encoding (hm : m.Typed S) : ∃ e, m.encoding = .ok e := by
  refine Message.exists_encoding hm.graph ?_
  intro f v hv
  obtain ⟨-, s, hs, htyped⟩ := hm.suits hv
  exact ⟨s, hs, htyped.exists_encoding s rfl rfl⟩

/-- Whatever a program makes without unchecked changes, every value at every level of it is of the
shape and the type of its slot. Such a message is written, or refused because required fields are
absent, and for no other reason. -/
theorem Made.writable (hS : S.Built) (hm : m.Made S) :
    m.Typed S ∧ ((∃ bytes, m.encode = .ok bytes) ∨
      ∃ missing bytes, m.encode = .error (.missingRequired missing bytes)) := by
  have htyped := hm.typed hS.defaultsHold
  obtain ⟨e, he⟩ := htyped.exists_encoding
  refine ⟨htyped, ?_⟩
  rw [encode, encodeFramed_eq he]
  split
  · exact .inl ⟨_, rfl⟩
  · exact .inr ⟨_, _, rfl⟩

end Message

/-- A oneof with two members that are filled in when they are absent, and a list of messages. No
schema text defines it, because there the members of a oneof are optional. -/
def Snapshot.filled : Snapshot where
  stamp := 0
  graph :=
    let required (id : UInt32) (name : String) (default : Int32) : FieldNode :=
      { FieldNode.plain .proto2 .required id name "int32"
          ⟨.scalar .int32, none, false, some (.i32 default)⟩ with
        oneof := some 2
        options := ⟨[("default", .int default.toInt)]⟩ }
    { nodes := #[
        ⟨"", none, .package { children := [1] }⟩,
        ⟨"M", some 0, .message
          { scope := { children := [2, 3, 4, 5] }, fields := [3, 4, 5], oneofs := [2] }⟩,
        ⟨"o", some 1, .oneof { fields := [3, 4] }⟩,
        ⟨"a", some 1, .field (required 1 "a" 3)⟩,
        ⟨"b", some 1, .field (required 2 "b" 4)⟩,
        ⟨"c", some 1, .field (.plain .proto2 .repeated 3 "c" "M" ⟨.message 1, none, false, none⟩)⟩]
      extensions := []
      settings := {} }

theorem Snapshot.built_filled : filled.Built := by
  let field (rule : Rule) (name typeName : String) (id : UInt32) (oneof : Option String)
      (options : Options) : FieldDecl :=
    { rule, typeName, keyType := none, name, id, options, oneof, line := 0 }
  have h : (Registry.ofDefinitions {} [.message {
      name := "M"
      fields := [field .required "a" "int32" 1 (some "o") ⟨[("default", .int 3)]⟩,
        field .required "b" "int32" 2 (some "o") ⟨[("default", .int 4)]⟩,
        field .repeated "c" "M" 3 none {}]
      oneofs := [⟨"o", {}⟩] }]).snapshot = some filled := by
    cbv
  exact built_of_ofDefinitions h

namespace Message

/-- A message with both members of the oneof, and one more in its list. -/
def filled : Message :=
  let members : List (NodeId × Value) := [(3, .atom (.i32 3)), (4, .atom (.i32 4))]
  ⟨⟨⟨.filled, 1⟩⟩, members ++ [(5, .list [.message ⟨⟨⟨.filled, 1⟩⟩, members⟩])]⟩

theorem made_filled : filled.Made .filled := by
  have hadd : (new ⟨⟨.filled, 1⟩⟩).add "c" (.message (new ⟨⟨.filled, 1⟩⟩)) = .ok filled := by
    cbv
  exact ⟨rfl, .add (.new rfl) (.new rfl) hadd⟩

/-- Members of a oneof may compete in what is made, but they are of their types and are written. -/
theorem writable_filled : filled.Typed .filled ∧ ((∃ bytes, filled.encode = .ok bytes) ∨
    ∃ missing bytes, filled.encode = .error (.missingRequired missing bytes)) :=
  Made.writable Snapshot.built_filled made_filled

example : filled.encode = .ok [8, 3, 16, 4, 26, 4, 8, 3, 16, 4] := by
  cbv

end Message

end Protobuf

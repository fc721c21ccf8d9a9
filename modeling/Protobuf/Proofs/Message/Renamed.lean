import Mathlib
import Protobuf.Proofs.Graph.Renamed
import Protobuf.Proofs.Message.Sent

/-!
# Messages under other numbers

A message keeps its fields by their numbers, so it belongs to one snapshot. The same message of another
snapshot, in which nodes go by other numbers, has the same values under these numbers, and so do the
messages in it. Both are written alike: which field comes first, and what it is called, is a matter of
the declarations and not of the numbers.

## Main definitions

* `Value.rename`, `Message.rename` — a value and a message as they are in another snapshot.

## Main results

* `Message.value?_rename` — a message has the same values under other numbers
* `Message.encode_rename` — a message is written alike under other numbers
-/

namespace Protobuf

section Rename

variable (φ : NodeId → NodeId) (S : Snapshot)

mutual

/-- The value in the snapshot `S`, where nodes go by other numbers. -/
def Value.rename : Value → Value
  | .atom a => .atom a
  | .message ⟨type, entries⟩ => .message ⟨⟨⟨S, φ type.node⟩⟩, Value.renameFields entries⟩
  | .list items => .list (Value.renameItems items)
  | .map ⟨keyType, valueType, owner, entries⟩ =>
    .map ⟨keyType, valueType.rename φ, owner.map fun _ => S, Value.renameEntries entries⟩

/-- The elements of a list under other numbers. -/
def Value.renameItems : List Value → List Value
  | [] => []
  | v :: more => v.rename :: Value.renameItems more

/-- The entries of a map under other numbers. -/
def Value.renameEntries : List (Atom × Value) → List (Atom × Value)
  | [] => []
  | (key, v) :: more => (key, v.rename) :: Value.renameEntries more

/-- The fields of a message under other numbers, ascending by these. -/
def Value.renameFields : List (NodeId × Value) → List (NodeId × Value)
  | [] => []
  | (f, v) :: more => Keyed.insert Prod.fst (φ f, v.rename) (Value.renameFields more)

end

/-- The message in the snapshot `S`, where nodes go by other numbers. -/
def Message.rename (m : Message) : Message :=
  ⟨⟨⟨S, φ m.type.node⟩⟩, Value.renameFields φ S m.entries⟩

end Rename

variable {φ : Equiv.Perm NodeId} {S : Snapshot}

namespace Value

theorem kind_rename (v : Value) : (v.rename φ S).kind = v.kind := by
  cases v with
  | map m => cases m; rfl
  | message m => cases m; rfl
  | _ => rfl

theorem atom?_rename (v : Value) : (v.rename φ S).atom? = v.atom? := by
  cases v with
  | map m => cases m; rfl
  | message m => cases m; rfl
  | _ => rfl

theorem renameItems_eq (items : List Value) :
    renameItems φ S items = items.map (rename φ S) := by
  induction items with
  | nil => rw [renameItems, List.map_nil]
  | cons v more ih => rw [renameItems, List.map_cons, ih]

theorem find?_renameFields (entries : List (NodeId × Value)) (f : NodeId) :
    Keyed.find? Prod.fst (φ f) (renameFields φ S entries) =
      (Keyed.find? Prod.fst f entries).map fun e => (φ e.1, e.2.rename φ S) := by
  induction entries with
  | nil => rw [renameFields]; rfl
  | cons e more ih =>
    rw [renameFields, Keyed.find?_insert, Keyed.find?_cons]
    simp only [EmbeddingLike.apply_eq_iff_eq]
    split
    · rfl
    · exact ih

end Value

/-- A message has the same values under other numbers. -/
theorem Message.value?_rename (m : Message) (f : NodeId) :
    (m.rename φ S).value? (φ f) = (m.value? f).map (Value.rename φ S) := by
  rw [value?, value?, rename, Value.find?_renameFields, Option.map_map, Option.map_map]
  rfl

/-! ### Slots -/

namespace Slot

variable (s : Slot)

theorem expectation_rename : (s.rename φ).expectation = s.expectation := by
  obtain ⟨label, id, type, shape, packed, omitsZero⟩ := s
  cases shape <;> cases type <;> rfl

theorem isPackable_rename : (s.rename φ).isPackable = s.isPackable := by
  obtain ⟨label, id, type, shape, packed, omitsZero⟩ := s
  cases type <;> rfl

theorem refuse_rename {α : Type} {v w : Value} (h : v.kind = w.kind) :
    ((s.rename φ).refuse v : Except EncodeError α) = s.refuse w := by
  rw [refuse, refuse, expectation_rename, h]
  rfl

theorem atomPayload_of_atom?_eq {v w : Value} (hatom : v.atom? = w.atom?) (hkind : v.kind = w.kind) :
    (s.rename φ).atomPayload v = s.atomPayload w := by
  have hpayload : (s.rename φ).type.payload? = s.type.payload? := by
    rw [rename]
    cases s.type <;> rfl
  rw [atomPayload, atomPayload, hpayload, hatom, s.refuse_rename hkind]

theorem encodeAtom_rename (a : Atom) : (s.rename φ).encodeAtom a = s.encodeAtom a := by
  have hatom : (Value.atom a).atom? = (Value.atom a).atom? := rfl
  have hkind : (Value.atom a).kind = (Value.atom a).kind := rfl
  rw [encodeAtom, encodeAtom, s.atomPayload_of_atom?_eq hatom hkind, s.refuse_rename hkind]
  rfl

theorem encodePacked_rename (items : List Value) :
    (s.rename φ).encodePacked (items.map (Value.rename φ S)) = s.encodePacked items := by
  have hpayload : ∀ v : Value, (s.rename φ).element.atomPayload (v.rename φ S) =
      s.element.atomPayload v := fun v =>
    s.element.atomPayload_of_atom?_eq v.atom?_rename v.kind_rename
  rw [encodePacked, encodePacked, List.isEmpty_map, List.mapM_map]
  simp only [Function.comp_def, hpayload]
  rfl

theorem encodeMessage_rename (m n : Message) (content : Except EncodeError Encoding) :
    (s.rename φ).encodeMessage m content = s.encodeMessage n content := by
  have hkind : (Value.message m).kind = (Value.message n).kind := rfl
  have hrefuse : ((s.rename φ).refuse (.message m) : Except EncodeError Encoding) =
      s.refuse (.message n) := s.refuse_rename hkind
  rw [encodeMessage, encodeMessage, hrefuse]
  obtain ⟨label, id, type, shape, packed, omitsZero⟩ := s
  cases shape <;> cases type <;> rfl

end Slot

/-! ### Writing -/

section Writing

variable {names : List String} {g g' : Graph}

/-- The parts of a message are put into the same order. -/
theorem Encoding.arrange_rename (h : Graph.Renamed names φ g g') (m : NodeId)
    {parts parts' : List (NodeId × Except EncodeError Encoding)}
    (hparts : ∀ f, (Keyed.find? Prod.fst (φ f) parts').map Prod.snd =
      (Keyed.find? Prod.fst f parts).map Prod.snd) :
    arrange g' (φ m) parts' = arrange g m parts := by
  rw [arrange, arrange, h.allFields, List.foldlM_map]
  congr 1
  funext e f
  have hpart := hparts f
  have hrequired : ((g'.field? (φ f)).any fun fn => fn.rule = .required) =
      (g.field? f).any fun fn => fn.rule = .required := by
    rw [h.field?, Option.any_map]
    rfl
  rw [hrequired, h.fqn]
  cases hfind : Keyed.find? Prod.fst f parts with
  | none =>
    rw [hfind, Option.map_none, Option.map_eq_none_iff] at hpart
    rw [hpart]
  | some p =>
    rw [hfind] at hpart
    obtain ⟨p', hp', heq⟩ := Option.map_eq_some_iff.mp hpart
    rw [hp']
    show p'.2.map _ = p.2.map _
    rw [heq]

/-- The fields that are present are written alike, if their values are. -/
theorem Value.find?_encodingOfFields_rename {entries : List (NodeId × Value)}
    (hwritten : ∀ e ∈ entries, (Message.writtenField g' (φ e.1, e.2.rename φ S)).2 =
      (Message.writtenField g e).2) (f : NodeId) :
    (Keyed.find? Prod.fst (φ f)
      (Value.encodingOfFields g' (Value.renameFields φ S entries))).map Prod.snd =
      (Keyed.find? Prod.fst f (Value.encodingOfFields g entries)).map Prod.snd := by
  have hkey : ∀ (g : Graph) (e : NodeId × Value), (Message.writtenField g e).1 = e.1 :=
    fun _ _ => rfl
  rw [Message.encodingOfFields_eq, Message.encodingOfFields_eq, Keyed.find?_map Prod.fst (hkey g'),
    Keyed.find?_map Prod.fst (hkey g), Value.find?_renameFields, Option.map_map, Option.map_map,
    Option.map_map]
  exact Option.map_congr fun e he => hwritten e (Keyed.mem_of_find? he)

mutual

/-- A value is written alike under other numbers. -/
theorem Value.encoding_rename (h : Graph.Renamed names φ g g') (v : Value) (s : Slot) :
    (v.rename φ S).encoding g' (s.rename φ) = v.encoding g s := by
  match v with
  | .atom a =>
    rw [Value.rename, Value.encoding, Value.encoding]
    exact s.encodeAtom_rename a
  | .message ⟨type, entries⟩ =>
    rw [Value.rename, Value.encoding, Value.encoding,
      Encoding.arrange_rename h type.node
        (Value.find?_encodingOfFields_rename (Value.writtenField_rename h entries))]
    exact s.encodeMessage_rename _ _ _
  | .list items =>
    have hrefuse : (Value.list (items.map (Value.rename φ S))).kind = (Value.list items).kind := rfl
    rw [Value.rename, Value.encoding, Value.encoding, Value.renameItems_eq, s.refuse_rename hrefuse,
      s.encodePacked_rename, s.isPackable_rename, ← Value.encodingOfItems_rename h items s.element,
      Value.renameItems_eq]
    rfl
  | .map ⟨keyType, valueType, owner, entries⟩ =>
    rw [Value.rename, Value.encoding, Value.encoding]
    cases hshape : s.shape with
    | map key =>
      have hshape' : (s.rename φ).shape = .map key := hshape
      rw [hshape']
      exact Value.encodingOfEntries_rename h entries s key
    | _ =>
      have hshape' : (s.rename φ).shape = _ := hshape
      rw [hshape']
      exact s.refuse_rename rfl

theorem Value.encodingOfItems_rename (h : Graph.Renamed names φ g g') (items : List Value)
    (s : Slot) :
    Value.encodingOfItems g' (s.rename φ) (Value.renameItems φ S items) =
      Value.encodingOfItems g s items := by
  match items with
  | [] =>
    rw [Value.renameItems, Value.encodingOfItems, Value.encodingOfItems]
  | v :: more =>
    rw [Value.renameItems, Value.encodingOfItems, Value.encodingOfItems, Value.encoding_rename h v,
      Value.encodingOfItems_rename h more]

theorem Value.encodingOfEntries_rename (h : Graph.Renamed names φ g g')
    (entries : List (Atom × Value)) (s : Slot) (key : Scalar) :
    Value.encodingOfEntries g' (s.rename φ) key (Value.renameEntries φ S entries) =
      Value.encodingOfEntries g s key entries := by
  match entries with
  | [] =>
    rw [Value.renameEntries, Value.encodingOfEntries, Value.encodingOfEntries]
  | (k, v) :: more =>
    have hkey : (s.rename φ).entryKey key = (s.entryKey key).rename φ := rfl
    have hvalue : (s.rename φ).entryValue = s.entryValue.rename φ := rfl
    rw [Value.renameEntries, Value.encodingOfEntries, Value.encodingOfEntries, hkey, hvalue,
      Slot.encodeAtom_rename, Value.encoding_rename h v, Value.encodingOfEntries_rename h more]
    rfl

theorem Value.writtenField_rename (h : Graph.Renamed names φ g g')
    (entries : List (NodeId × Value)) :
    ∀ e ∈ entries, (Message.writtenField g' (φ e.1, e.2.rename φ S)).2 =
      (Message.writtenField g e).2 := by
  match entries with
  | [] => exact nofun
  | (f, v) :: more =>
    refine List.forall_mem_cons.mpr ⟨?_, Value.writtenField_rename h more⟩
    simp only [Message.writtenField, h.slot?, h.fieldLabel]
    cases g.slot? f with
    | none => rfl
    | some s => exact Value.encoding_rename h v s

end

/-- A message is written alike under other numbers. -/
theorem Message.encode_rename (h : Graph.Renamed names φ g g') {m : Message} (hm : m.graph = g) (hS : S.graph = g') :
    (m.rename φ S).encode = m.encode := by
  have hgraph : (m.rename φ S).graph = g' := hS
  have hencoding : (m.rename φ S).encoding = m.encoding := by
    rw [encoding, encoding, hgraph, hm]
    exact Encoding.arrange_rename h m.type.node
      (Value.find?_encodingOfFields_rename (Value.writtenField_rename h m.entries))
  rw [encode, encode, encodeFramed, encodeFramed, hencoding]

end Writing

end Protobuf

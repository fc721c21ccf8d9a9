import Protobuf.Atom.Payload
import Protobuf.Message.Basic

/-!
# Writing messages

A message is written as the records of its fields: own fields in order of declaration, then
extensions by number. A required field that is absent does not stop the writing; it is noted, and
what could be written goes along with the error.

The records of all fields that are present are made first, in whatever order they are kept, and
then arranged. So the first error is that of the first field in the order of writing.

## Main definitions

* `EncodeError` — why a message cannot be written.
* `Encoding` — records, and the required fields that were found absent.
* `Value.encoding`, `Message.encoding` — the records of a value of a field and of a message.
* `Message.encode`, `Message.encodeDelimited` — the bytes of a message.

## Implementation notes

The definitions of the outermost message are those by which nested messages are written, too.
-/

namespace Protobuf

/-- Why a message cannot be written. -/
inductive EncodeError where
  | typeMismatch (field expected actual : String)
  /-- What the type of the field refers to has not been looked up. -/
  | unresolvedField (field : String)
  /-- Required fields are absent; `partialBytes` is the message without them. -/
  | missingRequired (missing : List String) (partialBytes : List UInt8)
  deriving DecidableEq, Repr

/-- The wording of an error. -/
def EncodeError.message : EncodeError → String
  | typeMismatch field expected actual =>
    s!"type mismatch for field '{field}': expected {expected}, got {actual}"
  | unresolvedField field => s!"field '{field}' has no resolved type"
  | missingRequired missing _ => "missing required field(s): " ++ ", ".intercalate missing

/-- The records of something that is written, and the paths of the required fields that were found
absent in it. -/
structure Encoding where
  records : List Wire.Record := []
  missing : List String := []

namespace Encoding

/-- Two encodings, one after the other. -/
def append (e f : Encoding) : Encoding :=
  ⟨e.records ++ f.records, e.missing ++ f.missing⟩

/-- The encoding of a single record. -/
def record (id : UInt32) (p : Wire.Payload) : Encoding :=
  ⟨[(id, p)], []⟩

/-- The bytes of the records. -/
def bytes (e : Encoding) : List UInt8 :=
  Wire.write e.records

/-- The encoding as the content of one record that stands around it. -/
def wrap (e : Encoding) (id : UInt32) : Encoding :=
  ⟨[(id, .bytes e.bytes)], e.missing⟩

/-- The encoding between the tags of a group. -/
def bracket (e : Encoding) (id : UInt32) : Encoding :=
  ⟨[(id, .group e.records)], e.missing⟩

/-- The encoding in the order of the fields of a message: `parts` has what the fields that are
present are written as. -/
def arrange (g : Graph) (message : NodeId) (parts : List (NodeId × Except EncodeError Encoding)) :
    Except EncodeError Encoding :=
  (g.allFields message).foldlM (fun e field =>
    match Keyed.find? Prod.fst field parts with
    | some (_, part) => part.map e.append
    | none =>
      if (g.field? field).any fun f => f.rule = .required then
        .ok (e.append ⟨[], [g.fqn field]⟩)
      else .ok e) {}

end Encoding

namespace Slot

variable (s : Slot)

/-- Refuses a value that is not what the field holds. -/
def refuse {α : Type} (v : Value) : Except EncodeError α :=
  .error (.typeMismatch s.label s.expectation v.kind)

/-- The payload of a single value that is an atom. -/
def atomPayload (v : Value) : Except EncodeError Wire.Payload :=
  match v.atom?.bind s.type.payload? with
  | some p => .ok p
  | none => s.refuse v

/-- The record of an atom; a zero may be left out. -/
def encodeAtom (a : Atom) : Except EncodeError Encoding :=
  match s.shape with
  | .single =>
    if s.omitsZero && a.isZero then .ok {}
    else (s.atomPayload (.atom a)).map (.record s.id)
  | _ => s.refuse (.atom a)

/-- The record of the elements of a list under one key. An empty list is not written. -/
def encodePacked (items : List Value) : Except EncodeError Encoding := do
  if items.isEmpty then return {}
  let payloads ← items.mapM s.element.atomPayload
  return .record s.id (.bytes (payloads.flatMap Wire.Payload.content))

/-- The record of a message of which the encoding is given. -/
def encodeMessage (m : Message) (content : Except EncodeError Encoding) :
    Except EncodeError Encoding :=
  match s.shape, s.type with
  | .single, .message _ => content.map (·.wrap s.id)
  | .single, .group _ => content.map (·.bracket s.id)
  | _, _ => s.refuse (.message m)

end Slot

mutual

/-- The records of the value of a field. -/
def Value.encoding (g : Graph) (s : Slot) : Value → Except EncodeError Encoding
  | .atom a => s.encodeAtom a
  | .message ⟨type, entries⟩ =>
    s.encodeMessage ⟨type, entries⟩
      (Encoding.arrange g type.node (Value.encodingOfFields g entries))
  | .list items =>
    match s.shape with
    | .list =>
      if s.packed && s.isPackable then s.encodePacked items
      else Value.encodingOfItems g s.element items
    | _ => s.refuse (.list items)
  | .map ⟨keyType, valueType, owner, entries⟩ =>
    match s.shape with
    | .map key => Value.encodingOfEntries g s key entries
    | _ => s.refuse (.map ⟨keyType, valueType, owner, entries⟩)

/-- The records of single values, one each. -/
def Value.encodingOfItems (g : Graph) (s : Slot) : List Value → Except EncodeError Encoding
  | [] => .ok {}
  | v :: more => do
    let e ← v.encoding g s
    let f ← Value.encodingOfItems g s more
    return e.append f

/-- The records of the entries of a map, each a message with a key and a value. -/
def Value.encodingOfEntries (g : Graph) (s : Slot) (keyType : Scalar) :
    List (Atom × Value) → Except EncodeError Encoding
  | [] => .ok {}
  | (key, v) :: more => do
    let k ← (s.entryKey keyType).encodeAtom key
    let e ← v.encoding g s.entryValue
    let f ← Value.encodingOfEntries g s keyType more
    return ((k.append e).wrap s.id).append f

/-- The records of the fields of a message, field by field. -/
def Value.encodingOfFields (g : Graph) :
    List (NodeId × Value) → List (NodeId × Except EncodeError Encoding)
  | [] => []
  | (field, v) :: more =>
    let part := match g.slot? field with
      | some s => v.encoding g s
      | none => .error (.unresolvedField (g.fieldLabel field))
    (field, part) :: Value.encodingOfFields g more

end

namespace Message

variable (m : Message)

/-- The records of a message, and the required fields that are absent. -/
def encoding : Except EncodeError Encoding :=
  Encoding.arrange m.graph m.type.node (Value.encodingOfFields m.graph m.entries)

/-- The bytes of a message, put into a frame. -/
def encodeFramed (frame : List UInt8 → List UInt8) : Except EncodeError (List UInt8) := do
  let e ← m.encoding
  if e.missing.isEmpty then return frame e.bytes
  throw (.missingRequired e.missing (frame e.bytes))

/-- The bytes of a message. -/
def encode : Except EncodeError (List UInt8) :=
  m.encodeFramed id

/-- The bytes of a message, with their count in front. -/
def encodeDelimited : Except EncodeError (List UInt8) :=
  m.encodeFramed Wire.lengthDelimited

/-- How many bytes the message takes. -/
def encodedLength : Except EncodeError Nat :=
  m.encode.map List.length

end Message

end Protobuf

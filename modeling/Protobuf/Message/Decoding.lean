import Protobuf.Atom.Payload
import Protobuf.Message.Basic

/-!
# Reading messages

The bytes of a message are cut into records, and the records are taken into a message one after
the other. A record of a field that the type does not know is stepped over. A single value replaces
an earlier one, elements are appended to their list, and entries are put into their map.

A required field that is absent does not stop the reading; it is noted, and the message that could
be read goes along with the error.

## Main definitions

* `DecodeError` — why bytes are no message.
* `Decoding` — reading that notes required fields that are absent.
* `Decoding.message` — the message that a stream of records holds.
* `Message.decode`, `Message.decodeDelimited`, `Message.decodeFrames` — messages of bytes.

## Implementation notes

Messages nest, so a reader for what lies inside is handed to everything that may step into a
message. It is the same reader with one level less to go, and the innermost one refuses.

The last element of a list stands first while its message is being read, so that a list that is
written in many records takes time in proportion. The lists are turned when the message ends.
-/

namespace Protobuf

/-- Why bytes are no message. -/
inductive DecodeError where
  | wire (fault : Wire.Fault)
  /-- The bytes end in the middle of a group. -/
  | missingEndGroup (id : UInt32)
  /-- A message has the end tag of a group that is not open in it. -/
  | unexpectedEndGroup (id : UInt32)
  | wireTypeMismatch (field : String) (expected actual : WireType)
  | invalidUtf8 (field : String) (fault : Utf8.Fault)
  /-- What the type of the field refers to has not been looked up. -/
  | unresolvedField (field : String)
  /-- Required fields are absent from the message `decoded`. If it was read from a frame, so many
  bytes belong to it. -/
  | missingRequired (missing : List String) (decoded : Message) (consumed : Option Nat)

/-- The wording of an error. -/
def DecodeError.message : DecodeError → String
  | wire fault => fault.message
  | missingEndGroup id => s!"invalid data: missing end group tag for field {id}"
  | unexpectedEndGroup id => s!"invalid data: unexpected end group tag {id}"
  | wireTypeMismatch field expected actual =>
    s!"wire type mismatch for field '{field}': expected {expected.name}, got {actual.name}"
  | invalidUtf8 field fault => s!"invalid utf-8 string in field '{field}': {fault.message}"
  | unresolvedField field => s!"invalid data: field '{field}' has no resolved type"
  | missingRequired missing _ _ => "missing required field(s): " ++ ", ".intercalate missing

/-- Reading that may be refused, and that notes the paths of required fields that are absent. -/
abbrev Decoding (α : Type) := StateT (List String) (Except DecodeError) α

/-- A reader for the messages inside of a message. -/
abbrev Inner := MessageType → Wire.Stream → Decoding Message

namespace Decoding

/-- Refuses a layout in which the values of a field are not written. -/
def expect (s : Slot) (w : WireType) : Decoding Unit :=
  if s.accepts w then pure () else throw (.wireTypeMismatch s.label s.wireType w)

/-! ### Values -/

/-- A single value that is an atom. -/
def atom (s : Slot) (p : Wire.Payload) : Decoding Atom :=
  match s.type.ofPayload p with
  | .ok a => pure a
  | .error .layout => throw (.wireTypeMismatch s.label s.wireType p.wireType)
  | .error (.text fault) => throw (.invalidUtf8 s.label fault)

/-- A single value. -/
def value (inner : Inner) (t : MessageType) (s : Slot) (p : Wire.Payload) : Decoding Value :=
  match s.type, p with
  | .message node, .bytes content => .message <$> inner (t.sibling node) (.ofBytes content)
  | .group node, .group records => .message <$> inner (t.sibling node) ⟨records, .atEnd⟩
  | _, p => .atom <$> atom s p

/-- The elements that stand under one key. -/
def packed (s : Slot) (content : List UInt8) : Decoding (List Value) :=
  match Wire.readPacked s.type.wireType (.ofBytes content) with
  | .ok payloads => payloads.mapM fun p => .atom <$> atom s p
  | .error fault => throw (.wire fault)

/-- Steps over a payload of a field that is not known, where so many levels of groups may still be
begun. -/
def pass (levels : Nat) (p : Wire.Payload) : Decoding Unit :=
  if p.nesting ≤ levels then pure () else throw (.wire .tooDeep)

/-- Refuses records that stop before the end of their bytes. What is wrong with a record that is not
whole depends on its field: the layout is judged first, and a group that has no end is read as far
as it goes. `closed` is the error for an end tag. -/
def finish (inner : Inner) (levels : Nat) (t : MessageType)
    (known : UInt32 → Decoding (Option Slot)) (closed : UInt32 → Decoding Unit) :
    Wire.Ending → Decoding Unit
  | .atEnd => pure ()
  | .closed id => closed id
  | .badKey fault => throw (.wire fault)
  | .badPayload id w fault => do
    if let some s ← known id then expect s w
    throw (.wire fault)
  | .openGroup id records ending => do
    match ← known id with
    | none => throw (.wire (ending.skipFault levels id records))
    | some s =>
      expect s .startGroup
      if let .group node := s.type then discard (inner (t.sibling node) ⟨records, ending⟩)
      throw (.missingEndGroup id)

/-! ### Map entries -/

/-- The slots of the two halves of a map entry. -/
def halves (s : Slot) (key : Scalar) (id : UInt32) : Option Slot :=
  if id = 1 then some (s.entryKey key)
  else if id = 2 then some s.entryValue
  else none

/-- The value of a map entry that has none: zero, or a new message. -/
def absentHalf (t : MessageType) : FieldType → Value
  | .scalar s => .atom s.zero
  | .enumeration e => .atom (.enumeration (t.graph.enumDefault e))
  | .message node | .group node => .message (Message.new (t.sibling node))

/-- Takes a record into the halves of a map entry that have been read. -/
def half (inner : Inner) (levels : Nat) (t : MessageType) (s : Slot) (key : Scalar)
    (read : Option Atom × Option Value) : Wire.Record → Decoding (Option Atom × Option Value)
  | (id, p) => do
    if id = 1 then
      let k ← atom (s.entryKey key) p
      return (some k, read.2)
    else if id = 2 then
      let v ← value inner t s.entryValue p
      return (read.1, some v)
    else
      pass (levels - 1) p
      return read

/-- A map entry. It lies one level below the message that the map belongs to. A half that is absent
is zero. -/
def entry (inner : Inner) (levels : Nat) (t : MessageType) (s : Slot) (key : Scalar)
    (content : List UInt8) : Decoding (Atom × Value) := do
  let stream := Wire.Stream.ofBytes content
  let read ← stream.records.foldlM (half inner levels t s key) (none, none)
  let known (id : UInt32) : Decoding (Option Slot) := pure (halves s key id)
  let closed (id : UInt32) : Decoding Unit := do
    if let some s := halves s key id then expect s .endGroup
    throw (.wire (.unexpectedEndGroup id))
  finish inner (levels - 1) t known closed stream.ending
  return (read.1.getD key.zero, read.2.getD (absentHalf t s.type))

/-! ### Messages -/

/-- The slot of a field. -/
def slot (g : Graph) (field : NodeId) : Decoding Slot :=
  match g.slot? field with
  | some s => pure s
  | none => throw (.unresolvedField (g.fieldLabel field))

/-- The slot of the field of a message type that has a number, if there is such a field. -/
def known (t : MessageType) (id : UInt32) : Decoding (Option Slot) :=
  match t.fieldById? id with
  | some field => some <$> slot t.graph field
  | none => pure none

/-- The message that is being read with further elements in a list. -/
def prepend (m : Message) (f : NodeId) (items : List Value) : Message :=
  if items.isEmpty then m
  else m.insert f (.list (items.reverseAux (((m.value? f).bind Value.list?).getD [])))

/-- A value with the elements of a list from the last to the first. -/
def turnValue : Value → Value
  | .list items => .list items.reverse
  | v => v

/-- A field and its value, with the elements of a list from the last to the first. -/
def turnEntry (e : NodeId × Value) : NodeId × Value :=
  (e.1, turnValue e.2)

theorem fst_turnEntry (e : NodeId × Value) : (turnEntry e).1 = e.1 :=
  rfl

/-- A message that has been read, with the elements of its lists as they were written. -/
def turn (m : Message) : Message :=
  { m with entries := m.entries.map turnEntry }

theorem value?_turn (m : Message) (f : NodeId) :
    (turn m).value? f = (m.value? f).map turnValue := by
  simp only [Message.value?, turn, Keyed.find?_map Prod.fst fst_turnEntry, Option.map_map]
  rfl

theorem turn_insert (m : Message) (f : NodeId) (v : Value) :
    turn (m.insert f v) = (turn m).insert f (turnValue v) :=
  congrArg (MessageOf.mk m.type)
    (Keyed.insert_map Prod.fst fst_turnEntry (f, v) m.entries).symm

/-- What stands in front while a message is being read stands at the end afterwards. -/
theorem turn_prepend (m : Message) (f : NodeId) (items : List Value) :
    turn (prepend m f items) = (turn m).append f items := by
  unfold prepend Message.append
  split
  · rfl
  · rw [turn_insert, value?_turn]
    cases m.value? f with
    | none => simp [turnValue]
    | some v => cases v <;> simp [turnValue, Value.list?]

/-- Takes the payload of a field into a message. -/
def field (inner : Inner) (levels : Nat) (m : Message) (f : NodeId) (s : Slot) (p : Wire.Payload) :
    Decoding Message := do
  expect s p.wireType
  match s.shape, p with
  | .single, p => return m.put f (← value inner m.type s p)
  | .list, .bytes content =>
    if s.isPackable then return prepend m f (← packed s content)
    else return prepend m f [← value inner m.type s p]
  | .list, p => return prepend m f [← value inner m.type s p]
  | .map key, .bytes content =>
    let (k, v) ← entry inner levels m.type s key content
    return m.putEntry f s key k v
  | .map _, p => throw (.wireTypeMismatch s.label s.wireType p.wireType)

/-- Takes a record into a message. -/
def record (inner : Inner) (levels : Nat) (m : Message) : Wire.Record → Decoding Message
  | (id, p) => do
    match m.type.fieldById? id with
    | some f => field inner levels m f (← slot m.graph f) p
    | none =>
      pass levels p
      return m

/-- The message that a stream of records holds, where so many levels may still be begun. -/
def messageWith (inner : Inner) (levels : Nat) (t : MessageType) (stream : Wire.Stream) :
    Decoding Message := do
  let m := turn (← stream.records.foldlM (record inner levels) (Message.empty t))
  finish inner levels t (known t) (fun id => throw (.unexpectedEndGroup id)) stream.ending
  modify (· ++ m.missingFields)
  return m.populate

/-- The message that a stream of records holds, where so many levels may still be begun below
it. -/
def message : (levels : Nat) → Inner
  | 0 => messageWith (fun _ _ => throw (.wire .tooDeep)) 0
  | levels + 1 => messageWith (message levels) (levels + 1)

end Decoding

namespace Message

/-- The message of a type that bytes hold. -/
def decode (t : MessageType) (bytes : List UInt8) : Except DecodeError Message := do
  let (m, missing) ← (Decoding.message recursionLimit t (.ofBytes bytes)).run []
  if missing.isEmpty then return m
  throw (.missingRequired missing m none)

/-- The message of a type in the frame at the front of bytes, and the size of the frame. There is
none while the bytes do not hold the whole frame. -/
def decodeDelimited (t : MessageType) (bytes : List UInt8) :
    Except DecodeError (Option (Message × Nat)) :=
  match Reader.varint.runAt (.ofBytes bytes) with
  | (.error (.truncated _ _), _) => .ok none
  | (.error fault, _) => .error (.wire fault)
  | (.ok count, c) =>
    if c.remaining < count.toNat then .ok none
    else
      let consumed := c.position + count.toNat
      match decode t (c.rest.take count.toNat) with
      | .ok m => .ok (some (m, consumed))
      | .error (.missingRequired missing m _) =>
        .error (.missingRequired missing m (some consumed))
      | .error e => .error e

/-- At most `fuel` messages in frames that follow each other, and the bytes after them. -/
def decodeFramesWithin (t : MessageType) :
    (fuel : Nat) → List UInt8 → Except DecodeError (List Message × List UInt8)
  | 0, bytes => .ok ([], bytes)
  | fuel + 1, bytes => do
    match ← decodeDelimited t bytes with
    | none => return ([], bytes)
    | some (m, consumed) =>
      let (more, rest) ← decodeFramesWithin t fuel (bytes.drop consumed)
      return (m :: more, rest)

/-- The messages in frames that follow each other, up to bytes that hold no whole frame. A frame
takes at least one byte, so there are no more frames than bytes. -/
def decodeFrames (t : MessageType) (bytes : List UInt8) :
    Except DecodeError (List Message × List UInt8) :=
  decodeFramesWithin t bytes.length bytes

end Message

end Protobuf

import Protobuf.Datum.Basic

/-!
# Messages of plain data

A record, or a map whose keys are texts, is made into a message field by field. Names that the type
does not know are passed over, and so are values that are not there. Single values are not judged
here; that is left to the message in which they are set.

## Main definitions

* `Datum.value` — the value of a datum for a field.
* `Datum.message` — the message of a type that a datum stands for.
* `Message.ofSource` — the message of a type for data that is handed over.
-/

namespace Protobuf

namespace Datum

/-- Refuses a datum that has not the structure that a field needs. -/
def refuse {α : Type} (field : String) (s : Slot) (d : Datum) : Except DataError α :=
  let expected := match s.shape with
    | .single => "scalar"
    | .list => "sequence"
    | .map _ => "map"
  .error (.mismatch field expected d.kind)

/-- The number of the enum value that a name stands for. -/
def enumValue (g : Graph) (field : String) (enumeration : NodeId) (name : String) :
    Except DataError Value :=
  match g.enumId? enumeration name with
  | some id => .ok (.atom (.enumeration id))
  | none => .error (.mismatch field s!"a value of {g.fqn enumeration}" name)

/-- The atom of a datum without structure. -/
def atom? : Datum → Option Atom
  | bool v => some (.bool v)
  | int v => some (.i64 v)
  | uint v => some (.u64 v)
  | float bits => some (.f64 bits)
  | text s => some (.string s)
  | bytes content => some (.bytes content)
  | _ => none

/-- The value of a datum without structure. Enum values are found by their names. -/
def leaf (g : Graph) (field : String) (s : Slot) (d : Datum) : Except DataError Value :=
  match s.shape, s.type, d with
  | .single, .enumeration e, .text name => enumValue g field e name
  | .single, _, d =>
    match d.atom? with
    | some a => .ok (.atom a)
    | none => d.refuse field s
  | _, _, d => d.refuse field s

/-- Refuses entries of which a key is no text. -/
def checkNames (entries : List (Datum × Datum)) : Except DataError Unit :=
  entries.forM fun entry =>
    match entry.1 with
    | text _ => .ok ()
    | d => .error (.fieldName d.kind)

end Datum

/-- Sets the field of a name, if there is one. The value is made for the slot of the field. -/
def Message.accept (m : Message) (name : String) (make : Slot → Except DataError Value) :
    Except DataError Message :=
  match m.type.field? name with
  | none => .ok m
  | some field =>
    match m.graph.slot? field with
    | none => .error (.unresolvedField name)
    | some s => do
      let v ← make s
      (m.set name v).mapError .value

mutual

/-- The value of a datum for the field `name` of a message of the type `t`. -/
def Datum.value (t : MessageType) (name : String) (s : Slot) : Datum → Except DataError Value
  | .sequence items =>
    match s.shape with
    | .list => (Datum.valueOfItems t name s.element items).map .list
    | _ => Datum.refuse name s (.sequence items)
  | .map entries =>
    match s.shape, s.type.message? with
    | .map key, _ =>
      (Datum.valueOfEntries t name s key (.empty key s.type none) entries).map .map
    | .single, some node => do
      Datum.checkNames entries
      let m ← Datum.setEntries (.new (t.sibling node)) entries
      return .message m
    | _, _ => Datum.refuse name s (.map entries)
  | .record fields =>
    match s.shape, s.type.message? with
    | .single, some node => (Datum.setFields (.new (t.sibling node)) fields).map .message
    | _, _ => Datum.refuse name s (.record fields)
  | d => Datum.leaf t.graph name s d

/-- The values of the items of a sequence. -/
def Datum.valueOfItems (t : MessageType) (name : String) (s : Slot) :
    List Datum → Except DataError (List Value)
  | [] => .ok []
  | d :: more => do
    let v ← d.value t name s
    let rest ← Datum.valueOfItems t name s more
    return v :: rest

/-- The map with further entries. -/
def Datum.valueOfEntries (t : MessageType) (name : String) (s : Slot) (keyType : Scalar)
    (m : MapValue) : List (Datum × Datum) → Except DataError MapValue
  | [] => .ok m
  | (key, d) :: more => do
    let k ← key.value t name (s.entryKey keyType)
    let v ← d.value t name s.entryValue
    let m ← (m.set k v).mapError .value
    Datum.valueOfEntries t name s keyType m more

/-- The message with fields that are named by the keys of entries. -/
def Datum.setEntries (m : Message) : List (Datum × Datum) → Except DataError Message
  | [] => .ok m
  | (.text name, d) :: more => do
    let m ← if d.isAbsent then pure m else m.accept name fun s => d.value m.type name s
    Datum.setEntries m more
  | (key, _) :: _ => .error (.fieldName key.kind)

/-- The message with the fields of a record. -/
def Datum.setFields (m : Message) : List (String × Datum) → Except DataError Message
  | [] => .ok m
  | (name, d) :: more => do
    let m ← if d.isAbsent then pure m else m.accept name fun s => d.value m.type name s
    Datum.setFields m more

end

/-- The message of a type that a datum stands for. -/
def Datum.message (t : MessageType) : Datum → Except DataError Message
  | .record fields => Datum.setFields (.new t) fields
  | .map entries => do
    Datum.checkNames entries
    Datum.setEntries (.new t) entries
  | d => .error (.mismatch t.fqn "struct" d.kind)

namespace Message

/-- The message of a type for data that is handed over. -/
def ofSource (t : MessageType) (s : Source) : Except DataError Message := do
  let d ← s.datum
  d.message t

/-- The bytes of a message of a type for data that is handed over. -/
def encodeSource (t : MessageType) (s : Source) : Except DataError (List UInt8) := do
  let m ← ofSource t s
  m.encode.mapError .encode

end Message

end Protobuf

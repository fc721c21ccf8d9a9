import Protobuf.Datum.Basic

/-!
# Plain data of messages

A program that takes a value out of a message says what it is prepared for, and is handed the value
in the way that comes closest. A message shows its own fields that are present, in order of
declaration, and lists and maps that are absent show up empty. Enum values come out as names.

## Main definitions

* `Request` — what a program is prepared for.
* `Reading` — what it is handed.
* `Value.read`, `Message.read` — the reading of a value and of a message under a request.

## Implementation notes

Requests that ask for something around a value are taken apart before the value is looked at, so
that reading is a recursion on the value alone.
-/

namespace Protobuf

/-- What a program is prepared for. -/
inductive Request where
  /-- Anything. Whoever asks for a number or a text takes what is there, too. -/
  | anything
  /-- Nothing; the value is passed over. -/
  | nothing
  /-- One of several names. -/
  | choice
  /-- A value that could have been absent. -/
  | optional (inner : Request)
  /-- A value with something around it. -/
  | wrapped (inner : Request)
  | sequence (item : Request)
  | map (key value : Request)
  /-- Values with names. The values of other names are passed over. -/
  | record (fields : List (String × Request))

/-- What a program is handed. -/
inductive Reading where
  | atom (a : Atom)
  | byte (b : UInt8)
  | nothing
  | present (inner : Reading)
  | wrapped (inner : Reading)
  | sequence (items : List Reading)
  | map (entries : List (Reading × Reading))
  | choice (name : String)
  /-- The number of an enum value that has no name. -/
  | choiceNumber (id : UInt32)

namespace Request

/-- The request for what is inside of everything that is asked for around it. -/
def core : Request → Request
  | optional inner => inner.core
  | wrapped inner => inner.core
  | r => r

/-- A reading with everything that is asked for around it. -/
def surround : Request → Reading → Reading
  | optional inner, x => .present (inner.surround x)
  | wrapped inner, x => .wrapped (inner.surround x)
  | _, x => x

/-- The request for the items of a sequence. -/
def item : Request → Request
  | sequence r => r
  | _ => anything

/-- The request for the keys of a map. -/
def key : Request → Request
  | map r _ => r
  | _ => anything

/-- The request for the values of a map. -/
def value : Request → Request
  | map _ r => r
  | _ => anything

/-- The request for the value of a name. -/
def field (name : String) : Request → Request
  | record fields => (fields.lookup name).getD nothing
  | r => r.value

end Request

namespace Reading

/-- Refuses a value of another kind than the program is prepared for. -/
def refuse {α : Type} (expected actual : String) : Except DataError α :=
  .error (.mismatch "" expected actual)

/-- The name of a field under a request. -/
def name (s : String) : Request → Reading
  | .choice => choice s
  | _ => atom (.string s)

/-- The name of an enum value, where the type is known. -/
def enumName? (g : Graph) (type : Option FieldType) (id : Int32) : Option String :=
  match type with
  | some (.enumeration e) => g.enumName? e id
  | _ => none

/-- An atom where anything will do. -/
def ofAtom (g : Graph) (type : Option FieldType) : Atom → Reading
  | .enumeration id =>
    match enumName? g type id with
    | some s => atom (.string s)
    | none => atom (.i32 id)
  | a => atom a

/-- An atom as one of several names. -/
def choiceOf (g : Graph) (type : Option FieldType) : Atom → Except DataError Reading
  | .enumeration id =>
    match enumName? g type id with
    | some s => .ok (choice s)
    | none => .ok (choiceNumber id.toUInt32)
  | .string s => .ok (choice s)
  | a => refuse "enum" a.kind

/-- An atom as a sequence; only bytes are one. -/
def sequenceOf : Atom → Except DataError Reading
  | .bytes content => .ok (sequence (content.map byte))
  | a => refuse "list" a.kind

/-- An atom under a request that asks for nothing around it. -/
def atomUnder (g : Graph) (type : Option FieldType) (a : Atom) : Request → Except DataError Reading
  | .nothing => .ok nothing
  | .choice => choiceOf g type a
  | .sequence _ => sequenceOf a
  | .map _ _ => refuse "map" a.kind
  | .record _ => refuse "message" a.kind
  | _ => .ok (ofAtom g type a)

/-- A list under a request that asks for nothing around it. An empty list is a map as well. -/
def listUnder (items : Except DataError (List Reading)) (isEmpty : Bool) :
    Request → Except DataError Reading
  | .nothing => .ok nothing
  | .choice => refuse "enum" "list"
  | .map _ _ => if isEmpty then .ok (map []) else refuse "map" "list"
  | .record _ => refuse "message" "list"
  | _ => items.map sequence

/-- A map under a request that asks for nothing around it. -/
def mapUnder (entries : Except DataError (List (Reading × Reading))) :
    Request → Except DataError Reading
  | .nothing => .ok nothing
  | .choice => refuse "enum" "map"
  | .sequence _ => refuse "list" "map"
  | .record _ => refuse "message" "map"
  | _ => entries.map map

/-- A message under a request that asks for nothing around it. -/
def messageUnder (entries : Except DataError (List (Reading × Reading))) :
    Request → Except DataError Reading
  | .nothing => .ok nothing
  | .choice => refuse "enum" "message"
  | .sequence _ => refuse "list" "message"
  | _ => entries.map map

/-- A list or a map that is absent, under a request. -/
def absent (r : Request) : Except DataError Reading :=
  (listUnder (.ok []) true r.core).map r.surround

/-- The fields of a message in order of declaration. `parts` has the readings of the fields that
are present. Of the absent ones only lists and maps show up. -/
def arrange (t : MessageType) (r : Request) (parts : List (NodeId × Except DataError Reading)) :
    Except DataError (List (Reading × Reading)) :=
  let part (field : NodeId) : Option (Except DataError Reading) :=
    match Keyed.find? Prod.fst field parts with
    | some (_, x) => some x
    | none =>
      if (t.graph.field? field).any fun f => f.rule = .repeated || f.rule = .map then
        some (absent (r.field (t.graph.name field)))
      else none
  (t.graph.ownFields t.node).foldlM (fun done field =>
    match part field with
    | some x => x.map fun x => done ++ [(name (t.graph.name field) r.key, x)]
    | none => .ok done) []

end Reading

mutual

/-- The reading of a value of a type, if the type is known, under a request. -/
def Value.read (g : Graph) (type : Option FieldType) (r : Request) :
    Value → Except DataError Reading
  | .atom a => (Reading.atomUnder g type a r.core).map r.surround
  | .list items =>
    let shown := Value.readItems g type r.core.item items
    (Reading.listUnder shown items.isEmpty r.core).map r.surround
  | .map ⟨keyType, valueType, _, entries⟩ =>
    let shown := Value.readEntries g keyType valueType r.core.key r.core.value entries
    (Reading.mapUnder shown r.core).map r.surround
  | .message ⟨t, entries⟩ =>
    let shown := Reading.arrange t r.core (Value.readFields t.graph r.core entries)
    (Reading.messageUnder shown r.core).map r.surround

/-- The readings of the elements of a list. -/
def Value.readItems (g : Graph) (type : Option FieldType) (r : Request) :
    List Value → Except DataError (List Reading)
  | [] => .ok []
  | v :: more => do
    let x ← v.read g type r
    let rest ← Value.readItems g type r more
    return x :: rest

/-- The readings of the entries of a map. -/
def Value.readEntries (g : Graph) (keyType : Scalar) (valueType : FieldType) (k r : Request) :
    List (Atom × Value) → Except DataError (List (Reading × Reading))
  | [] => .ok []
  | (key, v) :: more => do
    let y ← (Reading.atomUnder g (some (.scalar keyType)) key k.core).map k.surround
    let x ← v.read g (some valueType) r
    let rest ← Value.readEntries g keyType valueType k r more
    return (y, x) :: rest

/-- The readings of the fields of a message, field by field. -/
def Value.readFields (g : Graph) (r : Request) :
    List (NodeId × Value) → List (NodeId × Except DataError Reading)
  | [] => []
  | (field, v) :: more =>
    let type := (g.field? field).bind FieldNode.type?
    (field, v.read g type (r.field (g.name field))) :: Value.readFields g r more

end

namespace Message

/-- The reading of a whole message: whatever is asked for, it is handed over as a map. -/
def read (m : Message) (r : Request) : Except DataError Reading :=
  (Reading.arrange m.type r (Value.readFields m.graph r m.entries)).map .map

/-- The reading of the message of a type that bytes hold. -/
def decodeReading (t : MessageType) (bytes : List UInt8) (r : Request) :
    Except DataError Reading := do
  let m ← (decode t bytes).mapError .decode
  m.read r

end Message

end Protobuf

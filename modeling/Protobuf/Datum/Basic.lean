import Protobuf.Message.Decoding
import Protobuf.Message.Encoding

/-!
# Plain data

Programs keep their data in types of their own. To move it into a message, a program hands it over
piece by piece as a `Source`, saying of each piece how it is meant. What remains when the ways of
saying the same thing are taken together is a `Datum`, a tree without a schema.

## Main definitions

* `Source` — data as it is handed over.
* `Datum` — a tree without a schema; `Source.datum` is the one that a source stands for.
* `DataError` — why data cannot be moved into a message or out of it.
-/

namespace Protobuf

/-- The kinds of variants that carry data. None of them can be moved into a message. -/
inductive VariantKind where
  /-- One value. -/
  | newtype
  /-- Several values without names. -/
  | tuple
  /-- Several values with names. -/
  | record
  deriving DecidableEq, Repr

/-- Data as a program hands it over. -/
inductive Source where
  | bool (v : Bool)
  | int (v : Int64)
  | uint (v : UInt64)
  | single (bits : UInt32)
  | double (bits : UInt64)
  | text (s : String)
  | bytes (content : List UInt8)
  /-- A value that could have been there, but is not. -/
  | absent
  /-- A value with something around it that says no more than that it is there. -/
  | wrapped (inner : Source)
  | unit
  /-- A variant that is nothing but its name. -/
  | variant (name : String)
  | dataVariant (kind : VariantKind)
  | sequence (items : List Source)
  /-- Keys and values. A value may come without a key before it, which is a mistake. -/
  | map (entries : List (Option Source × Source))
  | record (fields : List (String × Source))

/-- A tree without a schema. -/
inductive Datum where
  | bool (v : Bool)
  | int (v : Int64)
  | uint (v : UInt64)
  | float (bits : UInt64)
  | text (s : String)
  | bytes (content : List UInt8)
  | sequence (items : List Datum)
  | map (entries : List (Datum × Datum))
  | record (fields : List (String × Datum))
  | absent

/-- The name of the kind of a datum. -/
def Datum.kind : Datum → String
  | bool _ => "bool"
  | int _ => "integer"
  | uint _ => "integer"
  | float _ => "float"
  | text _ => "string"
  | bytes _ => "bytes"
  | sequence _ => "sequence"
  | map _ => "map"
  | record _ => "struct"
  | absent => "none"

/-- The datum is that of a value that is not there. -/
def Datum.isAbsent : Datum → Bool
  | absent => true
  | _ => false

/-- Why data cannot be moved into a message or out of it. -/
inductive DataError where
  /-- The field needs data of another kind. -/
  | mismatch (field expected actual : String)
  | dataVariant (kind : VariantKind)
  /-- The key of an entry that should be a field is no text. -/
  | fieldName (actual : String)
  /-- A map has a value without a key before it. -/
  | valueWithoutKey
  /-- What the type of the field refers to has not been looked up. -/
  | unresolvedField (field : String)
  /-- The message does not take the value. -/
  | value (error : ValueError)
  | encode (error : EncodeError)
  | decode (error : DecodeError)

/-- The variants of a kind, in messages. -/
def VariantKind.name : VariantKind → String
  | newtype => "enum variants with data"
  | tuple => "enum tuple variants"
  | record => "enum struct variants"

/-- The wording of an error. -/
def DataError.message : DataError → String
  | mismatch field expected actual => s!"field '{field}' expects {expected}, got {actual}"
  | dataVariant kind =>
    s!"{kind.name} have no protobuf counterpart cannot be represented in a message"
  | fieldName actual =>
    s!"message field names must be strings, got {actual} cannot be represented in a message"
  | valueWithoutKey => "serialize_value called before serialize_key"
  | unresolvedField field => s!"field '{field}' has no resolved type"
  | value error => error.message
  | encode error => s!"encoding failed: {error.message}"
  | decode error => s!"decoding failed: {error.message}"

mutual

/-- The datum that a source stands for. Numbers of 32 bits are widened, and a variant without data
is the text of its name. -/
def Source.datum : Source → Except DataError Datum
  | .bool v => .ok (.bool v)
  | .int v => .ok (.int v)
  | .uint v => .ok (.uint v)
  | .single bits => .ok (.float (widen bits))
  | .double bits => .ok (.float bits)
  | .text s => .ok (.text s)
  | .bytes content => .ok (.bytes content)
  | .absent => .ok .absent
  | .wrapped inner => inner.datum
  | .unit => .ok (.record [])
  | .variant name => .ok (.text name)
  | .dataVariant kind => .error (.dataVariant kind)
  | .sequence items => (Source.datumOfItems items).map .sequence
  | .map entries => (Source.datumOfEntries entries).map .map
  | .record fields => (Source.datumOfFields fields).map .record

/-- The data of a sequence. -/
def Source.datumOfItems : List Source → Except DataError (List Datum)
  | [] => .ok []
  | s :: more => do
    let d ← s.datum
    let rest ← Source.datumOfItems more
    return d :: rest

/-- The data of the entries of a map. -/
def Source.datumOfEntries : List (Option Source × Source) → Except DataError (List (Datum × Datum))
  | [] => .ok []
  | (none, _) :: _ => .error .valueWithoutKey
  | (some key, s) :: more => do
    let k ← key.datum
    let d ← s.datum
    let rest ← Source.datumOfEntries more
    return (k, d) :: rest

/-- The data of the fields of a record, those left out that are not there. -/
def Source.datumOfFields : List (String × Source) → Except DataError (List (String × Datum))
  | [] => .ok []
  | (name, s) :: more => do
    let d ← s.datum
    let rest ← Source.datumOfFields more
    return if d.isAbsent then rest else (name, d) :: rest

end

end Protobuf

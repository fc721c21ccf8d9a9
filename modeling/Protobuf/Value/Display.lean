import Protobuf.Value.Basic

/-!
# Showing values

Values are shown in two ways: as a reader would write them, and for inspection, with their kinds.
Messages show the fields that are present, with their labels and in the order of the fields.

## Main definitions

* `Value.display` — a value as a reader would write it.
* `Value.inspect`, `MapValue.inspect`, `Message.inspect` — a value with its kind.
-/

namespace Protobuf

/-- Shown items between braces. -/
def braced (items : List String) : String :=
  "\x7b" ++ ", ".intercalate items ++ "\x7d"

/-- Shown fields between braces, with blanks inside. -/
def bracedFields (fields : List (String × String)) : String :=
  ", ".intercalate (fields.map fun (label, shown) => label ++ ": " ++ shown)

/-- A message with its shown fields. -/
def displayMessage (type : MessageType) (shown : List (NodeId × String)) : String :=
  let fields := bracedFields (type.arrange shown)
  type.name ++ " \x7b" ++ (if fields = "" then "" else " " ++ fields) ++ " \x7d"

mutual

/-- A value as a reader would write it. -/
def Value.display : Value → String
  | .atom a => a.display
  | .list items => Text.bracketed (Value.displayItems items)
  | .map ⟨_, _, _, entries⟩ => braced (Value.displayEntries entries)
  | .message ⟨type, entries⟩ => displayMessage type (Value.displayFields entries)

/-- The elements of a list as a reader would write them. -/
def Value.displayItems : List Value → List String
  | [] => []
  | x :: more => x.display :: Value.displayItems more

/-- The entries of a map as a reader would write them. -/
def Value.displayEntries : List (Atom × Value) → List String
  | [] => []
  | (key, x) :: more => (key.display ++ ": " ++ x.display) :: Value.displayEntries more

/-- The fields of a message as a reader would write them. -/
def Value.displayFields : List (NodeId × Value) → List (NodeId × String)
  | [] => []
  | (field, x) :: more => (field, x.display) :: Value.displayFields more

end

/-- A message with its inspected fields. -/
def inspectMessage (type : MessageType) (shown : List (NodeId × String)) : String :=
  let fields := bracedFields (type.arrange shown)
  if fields = "" then type.name else type.name ++ " \x7b " ++ fields ++ " \x7d"

/-- A map with its inspected entries. -/
def inspectMap (keyType : Scalar) (valueType : FieldType) (shown : List String) : String :=
  "ProtoMap \x7b key_type: " ++ keyType.inspect ++ ", value_type: " ++ valueType.inspect ++
    ", entries: " ++ braced shown ++ ", .. \x7d"

mutual

/-- A value with its kind, for inspection. -/
def Value.inspect : Value → String
  | .atom a => a.inspect
  | .list items => "List(" ++ Text.bracketed (Value.inspectItems items) ++ ")"
  | .map ⟨keyType, valueType, _, entries⟩ =>
    "Map(" ++ inspectMap keyType valueType (Value.inspectEntries entries) ++ ")"
  | .message ⟨type, entries⟩ =>
    "Message(" ++ inspectMessage type (Value.inspectFields entries) ++ ")"

/-- The elements of a list with their kinds. -/
def Value.inspectItems : List Value → List String
  | [] => []
  | x :: more => x.inspect :: Value.inspectItems more

/-- The entries of a map with their kinds, each after the text of its key. -/
def Value.inspectEntries : List (Atom × Value) → List String
  | [] => []
  | (key, x) :: more =>
    (Text.quoted key.keyText ++ ": (" ++ key.inspect ++ ", " ++ x.inspect ++ ")") ::
      Value.inspectEntries more

/-- The fields of a message with the kinds of their values. -/
def Value.inspectFields : List (NodeId × Value) → List (NodeId × String)
  | [] => []
  | (field, x) :: more => (field, x.inspect) :: Value.inspectFields more

end

/-- A message as a reader would write it. -/
def Message.display (m : Message) : String :=
  (Value.message m).display

/-- A message for inspection. -/
def Message.inspect (m : Message) : String :=
  inspectMessage m.type (Value.inspectFields m.entries)

/-- A map for inspection. -/
def MapValue.inspect (m : MapValue) : String :=
  inspectMap m.keyType m.valueType (Value.inspectEntries m.entries)

end Protobuf

import Protobuf.Schema.Parser.Option

/-!
# Reading messages

Messages, groups and extension blocks contain each other. A group declares a field and a message
at once, so the fields that can be groups are read together with the body of the group.

## Main definitions

* `Parser.field` — a field, with the body of its group if it is one.
* `Parser.oneof`, `Parser.extendBlock`, `Parser.enumeration` — blocks of fields and of values.
* `Parser.messageBody` — the body of a message.

The argument `levels` is how many more levels of message bodies and aggregates are allowed. The
functions that come before `messageBody` take it as an argument, so that only `messageBody` itself
is recursive.

## Implementation notes

What is read last stands first while a block is being read, so that a block of any length takes
time in proportion. The lists are turned when the block ends.
-/

namespace Protobuf.Schema.Parser

/-- How to read the body of a message, given what is known of the message before it. -/
abbrev BodyReader := MessageDecl → Parser MessageDecl

/-- The rule that a label names. -/
def ruleOfLabel? : String → Option Rule
  | "required" => some .required
  | "optional" => some .optional
  | "repeated" => some .repeated
  | _ => none

/-- The rule of a field. Members of a oneof have no label, and in `proto3` a field without one is
present implicitly. -/
def fieldRule (label : Option Rule) (oneof : Option String) (line : Nat) : Parser Rule := do
  match label, oneof, ← dialect with
  | some .required, _, .proto3 => fail line .requiredNotAllowed
  | some rule, _, _ => return rule
  | none, some _, _ => return .optional
  | none, none, .proto3 => return .implicit
  | none, none, .proto2 => fail line .missingRule

/-- A group, from behind the word that begins it: a field and the message that is its type. -/
def group (levels : Nat) (body : BodyReader) (rule : Rule) (oneof : Option String) (line : Nat) :
    Parser (FieldDecl × MessageDecl) := do
  if (← dialect) = .proto3 then fail line .groupsNotAllowed
  let name ← Parser.name
  unless startsWith Char.isUpper name.toList do fail line (.groupNameNotCapital name)
  expectSymbol '='
  let id ← fieldId
  let options ← fieldOptions levels
  let message ← body { name, isGroup := true, line }
  let decl : FieldDecl :=
    { rule, typeName := name, keyType := none, name := name.toLower, id, options, oneof, line }
  return (decl, message)

/-- A field from behind its type, with the message of its group if it is one. -/
def typedField (levels : Nat) (body : BodyReader) (rule : Rule) (typeName : String)
    (oneof : Option String) (line : Nat) : Parser (FieldDecl × Option MessageDecl) := do
  if typeName = "group" then
    let (decl, message) ← group levels body rule oneof line
    return (decl, some message)
  let name ← Parser.name
  expectSymbol '='
  let id ← fieldId
  let options ← fieldOptions levels
  expectSymbol ';'
  return ({ rule, typeName, keyType := none, name, id, options, oneof, line }, none)

/-- A field from behind its label, with the message of its group if it is one. -/
def field (levels : Nat) (body : BodyReader) (label : Option Rule) (oneof : Option String)
    (line : Nat) : Parser (FieldDecl × Option MessageDecl) := do
  let rule ← fieldRule label oneof line
  typedField levels body rule (← path) oneof line

/-- A field that begins with the word `word`, which is its label or a part of its type. -/
def labelledField (levels : Nat) (body : BodyReader) (word : String) (t : Located) :
    Parser (FieldDecl × Option MessageDecl) := do
  match ruleOfLabel? word with
  | some rule => field levels body (some rule) none t.line
  | none =>
    pushBack t
    field levels body none none t.line

/-- A map field, from behind the word that begins it. -/
def mapField (levels : Nat) (line : Nat) : Parser FieldDecl := do
  expectSymbol '<'
  let keyType ← path
  expectSymbol ','
  let typeName ← path
  expectSymbol '>'
  let name ← Parser.name
  expectSymbol '='
  let id ← fieldId
  let options ← fieldOptions levels
  expectSymbol ';'
  return { rule := .map, typeName, keyType := some keyType, name, id, options, oneof := none, line }

/-- A message that is being read with one field more, and the message of its group. -/
def addField (m : MessageDecl) (parsed : FieldDecl × Option MessageDecl) : MessageDecl :=
  { m with fields := parsed.1 :: m.fields, messages := parsed.2.toList ++ m.messages }

/-- The member of the oneof `name` that begins with the word `word`, given the message and the
options of the oneof so far. -/
def oneofMember (levels : Nat) (body : BodyReader) (name : String) (s : MessageDecl × Options)
    (word : String) (t : Located) : Parser (MessageDecl × Options) := do
  if word = "option" then
    return (s.1, ← optionStatement levels s.2)
  else if (ruleOfLabel? word).isSome then
    fail t.line (.labelInOneof name)
  else
    pushBack t
    return (addField s.1 (← field levels body none (some name) t.line), s.2)

/-- A oneof, from behind the word that begins it. Its members become fields of the message. -/
def oneof (levels : Nat) (body : BodyReader) (m : MessageDecl) : Parser MessageDecl := do
  let name ← Parser.name
  expectSymbol '\x7b'
  let (m, options) ← Parser.body (.oneof name) (oneofMember levels body name) (m, {})
  return { m with oneofs := { name, options } :: m.oneofs }

/-- A range of numbers, and the comma behind it if there are more. -/
def rangeStep (found : List (UInt32 × UInt32)) :
    Parser (List (UInt32 × UInt32) ⊕ List (UInt32 × UInt32)) := do
  let lo ← fieldId
  let hi ←
    if ← acceptKeyword "to" then
      if ← acceptKeyword "max" then pure maxFieldId else fieldId
    else pure lo
  let found := (lo, hi) :: found
  return if ← acceptSymbol ',' then .inl found else .inr found

/-- Ranges of numbers up to a semicolon. Options may follow them, which have no effect. -/
def ranges (levels : Nat) : Parser (List (UInt32 × UInt32)) := do
  let found ← iterate rangeStep []
  let _ ← fieldOptions levels
  expectSymbol ';'
  return found.reverse

/-- A reserved name, and the comma behind it if there are more. -/
def reservedNameStep (names : List Reserved) : Parser (List Reserved ⊕ List Reserved) := do
  let names := Reserved.name (← stringLiteral) :: names
  return if ← acceptSymbol ',' then .inl names else .inr names

/-- Reserved names, or reserved ranges of numbers, up to a semicolon. -/
def reserved (levels : Nat) : Parser (List Reserved) := do
  match (← peek).token with
  | .str _ =>
    let names ← iterate reservedNameStep []
    expectSymbol ';'
    return names.reverse
  | _ => return (← ranges levels).map fun (lo, hi) => .range lo hi

/-- The member of an enum that begins with the word `word`. -/
def enumMember (levels : Nat) (e : EnumDecl) (word : String) (t : Located) : Parser EnumDecl := do
  if word = "option" then
    return { e with options := ← optionStatement levels e.options }
  else if word = "reserved" then
    skipStatement
    return e
  else if word.contains '.' then
    fail t.line (.illegalEnumValueName word)
  else
    expectSymbol '='
    let id ← enumNumber
    let options ← fieldOptions levels
    expectSymbol ';'
    return { e with values := { name := word, id, options } :: e.values }

/-- An enum, from behind the word that begins it. -/
def enumeration (levels : Nat) (line : Nat) : Parser EnumDecl := do
  let name ← Parser.name
  expectSymbol '\x7b'
  let e ← Parser.body (.enumeration name) (enumMember levels)
    { name, values := [], options := {}, line }
  return { e with values := e.values.reverse }

/-- The field of an extension block that begins with the word `word`. -/
def extendMember (levels : Nat) (body : BodyReader) (e : ExtendDecl) (word : String) (t : Located) :
    Parser ExtendDecl := do
  let (decl, message) ← labelledField levels body word t
  return { e with fields := decl :: e.fields, messages := message.toList ++ e.messages }

/-- An extension block, from behind the word that begins it. -/
def extendBlock (levels : Nat) (body : BodyReader) (line : Nat) : Parser ExtendDecl := do
  let extendee ← path
  expectSymbol '\x7b'
  let e ← Parser.body (.extension extendee) (extendMember levels body)
    { extendee, fields := [], messages := [], line }
  return { e with fields := e.fields.reverse, messages := e.messages.reverse }

/-- A message, from behind the word that begins it. -/
def message (body : BodyReader) (line : Nat) : Parser MessageDecl := do
  body { name := ← name, line }

/-- The member of a message that begins with the word `word`. -/
def messageMember (levels : Nat) (body : BodyReader) (m : MessageDecl) (word : String)
    (t : Located) : Parser MessageDecl := do
  match word with
  | "message" => return { m with messages := (← message body t.line) :: m.messages }
  | "enum" => return { m with enums := (← enumeration levels t.line) :: m.enums }
  | "oneof" => oneof levels body m
  | "extensions" =>
    return { m with extensionRanges := (← ranges levels).reverse ++ m.extensionRanges }
  | "reserved" => return { m with reserved := (← reserved levels).reverse ++ m.reserved }
  | "option" => return { m with options := ← optionStatement levels m.options }
  | "extend" =>
    return { m with extendBlocks := (← extendBlock levels body t.line) :: m.extendBlocks }
  | "map" =>
    if (← peek).token = .symbol '<' then
      return addField m (← mapField levels t.line, none)
    return addField m (← labelledField levels body word t)
  | _ => return addField m (← labelledField levels body word t)

/-- A message that has been read, with everything in it in the order in which it was read. -/
def turnMessage (m : MessageDecl) : MessageDecl :=
  { m with
    fields := m.fields.reverse
    oneofs := m.oneofs.reverse
    enums := m.enums.reverse
    messages := m.messages.reverse
    extendBlocks := m.extendBlocks.reverse
    extensionRanges := m.extensionRanges.reverse
    reserved := m.reserved.reverse }

/-- The body of a message, its braces included. -/
def messageBody : (levels : Nat) → BodyReader
  | 0, _ => do
    expectSymbol '\x7b'
    fail (← currentLine) .nestingTooDeep
  | levels + 1, m => do
    expectSymbol '\x7b'
    turnMessage <$> Parser.body (.message m.name) (messageMember levels (messageBody levels)) m

end Protobuf.Schema.Parser

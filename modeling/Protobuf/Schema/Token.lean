import Protobuf.Number.Notation

/-!
# Tokens of the schema language

Schema text is a sequence of names, numbers, string literals and punctuation. A dotted path such
as `foo.Bar` or `.pkg.Msg` is one token, so that a type reference never has to be put together by
the grammar.

## Main definitions

* `Token`, `Token.display` — the tokens, and their text in messages.
* `Located` — a token with the line it stands on.
* `SyntaxFault`, `ParseError` — what can be wrong with schema text, with its wording.
-/

namespace Protobuf.Schema

/-- A token of the schema language. -/
inductive Token where
  /-- A name, a keyword or a dotted path. -/
  | ident (text : String)
  /-- An unsigned integer below `2 ^ 64`. -/
  | int (value : Nat)
  /-- A floating-point number, as its 64-bit word. -/
  | float (bits : UInt64)
  /-- A string literal, its escapes already replaced. -/
  | str (text : String)
  /-- A punctuation character. -/
  | symbol (c : Char)
  /-- The end of the text. -/
  | eof
  deriving DecidableEq, Repr, Inhabited

/-- The text of a token in messages. A string literal is shown without escapes. -/
def Token.display : Token → String
  | ident text => s!"'{text}'"
  | int value => s!"'{value}'"
  | float bits => "'" ++ FloatFormat.double.plain bits.toNat ++ "'"
  | str text => "\"" ++ text ++ "\""
  | symbol c => s!"'{c}'"
  | eof => "end of input"

/-- A token and the line it stands on. -/
structure Located where
  token : Token
  line : Nat
  deriving DecidableEq, Repr, Inhabited

/-- How deep message bodies and aggregate values may nest. -/
def maxNesting : Nat := 100

/-- What the grammar would have accepted in the place of a token. -/
inductive Expected where
  | topLevelStatement
  | importPath
  | enumValue
  | methodBody (method : String)
  | optionName
  | optionSeparator
  | numberAfter (sign : Char)
  | constant
  | aggregateField
  | symbol (c : Char)
  | keyword (text : String)
  | identifier
  | stringLiteral
  | fieldId
  deriving DecidableEq, Repr

/-- The wording of an expectation. -/
def Expected.describe : Expected → String
  | topLevelStatement => "a top-level statement"
  | importPath => "import path"
  | enumValue => "enum value"
  | methodBody method => s!"';' or '\x7b' after rpc '{method}'"
  | optionName => "option name"
  | optionSeparator => "',' or ']'"
  | numberAfter sign => s!"a number after '{sign}'"
  | constant => "a constant"
  | aggregateField => "a field name in aggregate value"
  | symbol c => s!"'{c}'"
  | keyword text => s!"'{text}'"
  | identifier => "identifier"
  | stringLiteral => "string literal"
  | fieldId => "field id"

/-- Where a token that fits nowhere was found. -/
inductive Place where
  | topLevel
  | message (name : String)
  | oneof (name : String)
  | enumeration (name : String)
  | service (name : String)
  | method (name : String)
  | extension (extendee : String)
  deriving DecidableEq, Repr

/-- The wording of a place. -/
def Place.describe : Place → String
  | topLevel => "at top level"
  | message name => s!"in message '{name}'"
  | oneof name => s!"in oneof '{name}'"
  | enumeration name => s!"in enum '{name}'"
  | service name => s!"in service '{name}'"
  | method name => s!"in rpc '{name}'"
  | extension extendee => s!"in extend '{extendee}'"

/-- What is wrong with schema text that is no sequence of tokens, or no schema. -/
inductive SyntaxFault where
  | unterminatedComment
  | illegalHexNumber (text : String)
  | illegalNumber (text : String)
  | emptyHexEscape
  | octalEscapeTooLarge (value : Nat)
  | expected (what : Expected) (found : Token)
  | unexpected (found : Token) (place : Place)
  | duplicatePackage
  | illegalPackageName (name : String)
  | unknownDialect (text : String)
  | nestingTooDeep
  | requiredNotAllowed
  | missingRule
  | groupsNotAllowed
  | groupNameNotCapital (name : String)
  | labelInOneof (oneof : String)
  | illegalEnumValueName (name : String)
  | enumValueOutOfRange (value : Int)
  | illegalName (name : String)
  | fieldIdOutOfRange (value : Nat)
  | integerOutOfRange (value : Int)
  | aggregateFieldWithoutValue (key : String)
  deriving DecidableEq, Repr

/-- The wording of a fault. -/
def SyntaxFault.describe : SyntaxFault → String
  | unterminatedComment => "unterminated block comment"
  | illegalHexNumber text => s!"illegal hexadecimal number '{text}'"
  | illegalNumber text => s!"illegal number '{text}'"
  | emptyHexEscape => "\\x escape without hex digits"
  | octalEscapeTooLarge value =>
    "octal escape \\" ++ String.ofList (Nat.toDigits 8 value) ++ " is out of range"
  | expected what found => s!"expected {what.describe}, found {found.display}"
  | unexpected found place => s!"unexpected {found.display} {place.describe}"
  | duplicatePackage => "duplicate package statement"
  | illegalPackageName name => s!"illegal package name '{name}'"
  | unknownDialect text => "unsupported syntax \"" ++ text ++ "\""
  | nestingTooDeep => s!"nesting deeper than {maxNesting} levels"
  | requiredNotAllowed => "required fields are not allowed in proto3"
  | missingRule => "missing field rule (required, optional or repeated)"
  | groupsNotAllowed => "groups are not allowed in proto3"
  | groupNameNotCapital name => s!"group name '{name}' must start with a capital letter"
  | labelInOneof oneof => s!"fields in oneof '{oneof}' must not have a label"
  | illegalEnumValueName name => s!"illegal enum value name '{name}'"
  | enumValueOutOfRange value => s!"enum value {value} out of range"
  | illegalName name => s!"illegal name '{name}'"
  | fieldIdOutOfRange value => s!"field id {value} out of range"
  | integerOutOfRange value => s!"integer {value} out of range"
  | aggregateFieldWithoutValue key => s!"expected ':' or '\x7b' after '{key}'"

/-- Why schema text cannot be read, and the line where that shows. -/
inductive ParseError where
  /-- The text breaks a rule of the grammar. -/
  | malformed (line : Nat) (fault : SyntaxFault)
  /-- A string literal is not closed on its line. -/
  | unterminatedString (line : Nat)
  /-- A character begins no token. -/
  | illegalCharacter (line : Nat) (c : Char)
  deriving DecidableEq, Repr

/-- The line of an error. -/
def ParseError.line : ParseError → Nat
  | malformed line _ => line
  | unterminatedString line => line
  | illegalCharacter line _ => line

/-- The wording of an error. -/
def ParseError.message : ParseError → String
  | malformed line fault => s!"syntax error at line {line}: {fault.describe}"
  | unterminatedString line => s!"unterminated string literal at line {line}"
  | illegalCharacter line c => s!"illegal character '{c}' at line {line}"

end Protobuf.Schema

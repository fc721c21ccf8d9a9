import Protobuf.Schema.Parser.Basic

/-!
# Reading options

An option is set by a name, an equals sign and a constant. Options stand as statements of their
own, or in brackets behind a field or a value.

## Main definitions

* `Parser.constant` — a constant, aggregates included.
* `Parser.optionSetting` — a name and a constant.
* `Parser.fieldOptions` — settings in brackets, if there are any.

Aggregates nest. The argument `levels` is how many more levels of nesting are allowed.
-/

namespace Protobuf.Schema.Parser

/-- A further part of the name of an option, if one is next. -/
def optionNameStep (text : String) : Parser (String ⊕ String) := do
  match (← peek).token with
  | .ident part =>
    if part.startsWith "." then
      let _ ← next
      return .inl (text ++ part)
    return .inr text
  | _ => return .inr text

/-- The name of an option: a path, or a path in parentheses, with further parts behind it. -/
def optionName : Parser String := do
  let t ← next
  let first ← match t.token with
    | .ident text => pure text
    | .symbol '(' => do
      let inner ← path
      expectSymbol ')'
      pure s!"({inner})"
    | found => fail t.line (.expected .optionName found)
  iterate optionNameStep first

/-- The constant of an integer literal behind its sign, which must fit 64 bits. -/
def integerConstant (magnitude : Nat) (negative : Bool) (line : Nat) : Parser Constant :=
  let value : Int := if negative then -magnitude else magnitude
  if value ∈ IntRange.int64 then pure (.int value)
  else if negative then fail line (.integerOutOfRange value)
  else pure (.uint magnitude)

/-- The word of the opposite value. -/
def negateWord (bits : UInt64) : UInt64 :=
  bits ^^^ 0x8000000000000000

/-- The word of positive infinity. -/
def infinityWord : UInt64 :=
  FloatFormat.double.infinity.toUInt64

/-- The word that stands for no number, without a sign. -/
def nanWord : UInt64 :=
  0x7ff8000000000000

/-- A string literal behind another one, if one is next. -/
def literalStep (text : String) : Parser (String ⊕ String) := do
  match (← peek).token with
  | .str more =>
    let _ ← next
    return .inl (text ++ more)
  | _ => return .inr text

/-- A constant, given how to read an aggregate from behind its opening brace. Neighbouring string
literals make one. -/
def constantWith (aggregate : Parser Constant) : Parser Constant := do
  let t ← next
  match t.token with
  | .ident "true" => return .bool true
  | .ident "false" => return .bool false
  | .ident "inf" => return .float infinityWord
  | .ident "nan" => return .float nanWord
  | .ident text => return .ident text
  | .int magnitude => integerConstant magnitude false t.line
  | .float bits => return .float bits
  | .str text => Constant.str <$> iterate literalStep text
  | .symbol '\x7b' => aggregate
  | .symbol sign =>
    if sign = '-' ∨ sign = '+' then
      let negative := sign = '-'
      let n ← next
      match n.token with
      | .ident "inf" =>
        return .float (if negative then negateWord infinityWord else infinityWord)
      | .ident "nan" => return .float nanWord
      | .int magnitude => integerConstant magnitude negative n.line
      | .float bits => return .float (if negative then negateWord bits else bits)
      | found => fail n.line (.expected (.numberAfter sign) found)
    else fail t.line (.expected .constant t.token)
  | found => fail t.line (.expected .constant found)

/-- A value of a bracketed list under the name `key`, or the bracket that ends the list. -/
def listStep (constant : Parser Constant) (key : String) (fields : List (String × Constant)) :
    Parser (List (String × Constant) ⊕ List (String × Constant)) := do
  if ← acceptSymbol ']' then return .inr fields
  let value ← constant
  let _ ← acceptSymbol ','
  return .inl ((key, value) :: fields)

/-- The values of a bracketed list, each under the name `key`, from behind the opening bracket.
They are put in front of the fields before them, the last one first. -/
def aggregateList (constant : Parser Constant) (key : String)
    (fields : List (String × Constant)) : Parser (List (String × Constant)) :=
  iterate (listStep constant key) fields

/-- A field of an aggregate, a mark between fields, or the brace that ends the aggregate. -/
def aggregateStep (aggregate : Parser Constant) (fields : List (String × Constant)) :
    Parser (List (String × Constant) ⊕ Constant) := do
  let t ← next
  let key? ← match t.token with
    | .symbol '\x7d' => return .inr (.aggregate fields.reverse)
    | .symbol ',' => pure none
    | .symbol ';' => pure none
    | .ident text => pure (some text)
    | .symbol '[' => do
      let inner ← path
      expectSymbol ']'
      pure (some s!"[{inner}]")
    | found => fail t.line (.expected .aggregateField found)
  let some key := key? | return .inl fields
  let colon ← acceptSymbol ':'
  if ← acceptSymbol '\x7b' then
    return .inl ((key, ← aggregate) :: fields)
  if colon then
    if ← acceptSymbol '[' then
      return .inl (← aggregateList (constantWith aggregate) key fields)
    return .inl ((key, ← constantWith aggregate) :: fields)
  fail t.line (.aggregateFieldWithoutValue key)

/-- The fields of an aggregate up to its closing brace, given how to read an aggregate within. Until
then the last field read comes first. -/
def aggregateFields (aggregate : Parser Constant) : Parser Constant :=
  iterate (aggregateStep aggregate) []

/-- An aggregate from behind its opening brace. -/
def aggregate : (levels : Nat) → Parser Constant
  | 0 => do fail (← currentLine) .nestingTooDeep
  | levels + 1 => aggregateFields (aggregate levels)

/-- A constant. -/
def constant (levels : Nat) : Parser Constant :=
  constantWith (aggregate levels)

/-- The setting of an option. -/
def optionSetting (levels : Nat) : Parser (String × Constant) := do
  let name ← optionName
  expectSymbol '='
  return (name, ← constant levels)

/-- The setting of an option as a statement, from behind the word that begins it. -/
def optionStatement (levels : Nat) (options : Options) : Parser Options := do
  let (name, value) ← optionSetting levels
  expectSymbol ';'
  return options.insert name value

/-- A setting in brackets and the comma or the bracket behind it. -/
def settingStep (levels : Nat) (options : Options) : Parser (Options ⊕ Options) := do
  let (name, value) ← optionSetting levels
  let options := options.insert name value
  let t ← next
  match t.token with
  | .symbol ',' => return .inl options
  | .symbol ']' => return .inr options
  | found => fail t.line (.expected .optionSeparator found)

/-- The settings in brackets behind a field or a value, if there are any. -/
def fieldOptions (levels : Nat) : Parser Options := do
  if !(← acceptSymbol '[') then return {}
  iterate (settingStep levels) {}

end Protobuf.Schema.Parser

import Protobuf.Number.Range
import Protobuf.Schema.Decl
import Protobuf.Schema.Scanner

/-!
# Reading tokens

The grammar works on the whole token sequence of a text, which ends with the end of the text or
with the failure that stopped the scanner. A failure of the scanner comes to light only when the
grammar gets there, so that an earlier fault of the grammar is the one reported.

## Main definitions

* `Parser` — an action on the tokens that are left and on the dialect in force.
* `Parser.next`, `Parser.peek`, `Parser.pushBack` — take a token, look at it, give it back.
* `Parser.iterate` — repeats a step that takes a token or more each time.
* `Parser.expectSymbol`, `Parser.path`, `Parser.name` and so on — tokens of one kind.

## Implementation notes

A message that concerns a name carries the line of the token before it, unless the name has been
looked at already. So the state remembers both the line of the last token taken and how many of
the tokens ahead have been seen.
-/

namespace Protobuf.Schema

/-- What the grammar knows at a place in the token sequence. -/
structure ParserState where
  /-- The tokens that are left. -/
  ahead : List Located
  /-- What follows them: the end of the text, or the failure of the scanner. -/
  ending : Except ParseError Located
  /-- How many of the tokens ahead, the end included, have been looked at. -/
  seen : Nat := 0
  /-- The line of the last token taken. -/
  line : Nat := 1
  /-- The dialect in force. -/
  dialect : Dialect := .proto2

/-- An action of the grammar. -/
abbrev Parser (α : Type) := StateT ParserState (Except ParseError) α

namespace Parser

/-- Gives up with a fault on a line. -/
def fail {α : Type} (line : Nat) (fault : SyntaxFault) : Parser α :=
  throw (.malformed line fault)

/-- Takes the next token. The end of the text is there to be taken for ever. -/
def next : Parser Located := do
  let s ← get
  match s.ahead, s.ending with
  | t :: rest, _ => set { s with ahead := rest, seen := s.seen - 1, line := t.line }; pure t
  | [], .ok t => set { s with seen := s.seen - 1, line := t.line }; pure t
  | [], .error e => throw e

/-- Looks at the next token. -/
def peek : Parser Located := do
  let s ← get
  match s.ahead, s.ending with
  | t :: _, _ => set { s with seen := max s.seen 1 }; pure t
  | [], .ok t => set { s with seen := max s.seen 1 }; pure t
  | [], .error e => throw e

/-- Gives a token back, so that it is the next one. -/
def pushBack (t : Located) : Parser Unit :=
  modify fun s => { s with ahead := t :: s.ahead, seen := s.seen + 1 }

/-- The line of the next token if it has been looked at, else that of the last token taken. -/
def currentLine : Parser Nat := do
  let s ← get
  if s.seen = 0 then return s.line
  match s.ahead, s.ending with
  | t :: _, _ => return t.line
  | [], .ok t => return t.line
  | [], .error _ => return s.line

/-- The dialect in force. -/
def dialect : Parser Dialect :=
  ParserState.dialect <$> get

/-- Repeats a step until it gives a result, once for each of the tokens and once more at most. -/
def iterateOver {σ α : Type} (step : σ → Parser (σ ⊕ α)) : (tokens : List Located) → σ → Parser α
  | [], s => do
    match ← step s with
    | .inl _ => fail (← currentLine) (.expected .identifier .eof)
    | .inr a => pure a
  | _ :: tokens, s => do
    match ← step s with
    | .inl s => iterateOver step tokens s
    | .inr a => pure a

/-- Repeats a step until it gives a result. The step takes a token or more whenever it goes on,
and does not go on at the end of the text, so there are enough tokens left to count by. -/
def iterate {σ α : Type} (step : σ → Parser (σ ⊕ α)) (s : σ) : Parser α := do
  iterateOver step (← get).ahead s

/-! ### Tokens of one kind -/

/-- Takes the punctuation character `c`. -/
def expectSymbol (c : Char) : Parser Unit := do
  let t ← next
  unless t.token = .symbol c do fail t.line (.expected (.symbol c) t.token)

/-- Takes the word `keyword`. -/
def expectKeyword (keyword : String) : Parser Unit := do
  let t ← next
  unless t.token = .ident keyword do fail t.line (.expected (.keyword keyword) t.token)

/-- Takes a name or a dotted path, such as a type reference. -/
def path : Parser String := do
  let t ← next
  match t.token with
  | .ident text => pure text
  | found => fail t.line (.expected .identifier found)

/-- Takes a name without dots, such as one that is being declared. -/
def name : Parser String := do
  let line ← currentLine
  let text ← path
  if text.contains '.' then fail line (.illegalName text) else pure text

/-- Takes a string literal. -/
def stringLiteral : Parser String := do
  let t ← next
  match t.token with
  | .str text => pure text
  | found => fail t.line (.expected .stringLiteral found)

/-- Takes a field number, or any other number that fits its 32 bits. -/
def fieldId : Parser UInt32 := do
  let t ← next
  match t.token with
  | .int value =>
    if value < UInt32.size then pure value.toUInt32
    else fail t.line (.fieldIdOutOfRange value)
  | found => fail t.line (.expected .fieldId found)

/-- Takes the number of an enum value, with its sign. -/
def enumNumber : Parser Int32 := do
  let first ← next
  let negative := first.token = .symbol '-'
  let t ← if negative then next else pure first
  match t.token with
  | .int magnitude =>
    let value : Int := if negative then -magnitude else magnitude
    if value ∈ IntRange.int32 then pure value.toInt32
    else fail t.line (.enumValueOutOfRange value)
  | found => fail t.line (.expected .enumValue found)

/-- Takes the punctuation character `c` if it is next, and says whether it was. -/
def acceptSymbol (c : Char) : Parser Bool := do
  if (← peek).token = .symbol c then
    let _ ← next
    return true
  return false

/-- Takes the word `keyword` if it is next, and says whether it was. -/
def acceptKeyword (keyword : String) : Parser Bool := do
  if (← peek).token = .ident keyword then
    let _ ← next
    return true
  return false

/-- A token of a statement that is left out, or the semicolon that ends it. -/
def skipStep (_ : Unit) : Parser (Unit ⊕ Unit) := do
  let t ← next
  match t.token with
  | .symbol ';' => return .inr ()
  | .eof => fail t.line (.expected (.symbol ';') .eof)
  | _ => return .inl ()

/-- Takes everything up to the next semicolon. -/
def skipStatement : Parser Unit :=
  iterate skipStep ()

/-- A member of a body, a semicolon between members, or the brace that ends the body. -/
def bodyStep {σ : Type} (place : Place) (member : σ → String → Located → Parser σ) (s : σ) :
    Parser (σ ⊕ σ) := do
  let t ← next
  match t.token with
  | .symbol '\x7d' => return .inr s
  | .symbol ';' => return .inl s
  | .ident word => return .inl (← member s word t)
  | found => fail t.line (.unexpected found place)

/-- Reads the members of a body up to its closing brace, semicolons between them left aside.
`member` reads the member that begins with a given word, and any other token is refused in
`place`. -/
def body {σ : Type} (place : Place) (member : σ → String → Located → Parser σ) (s : σ) :
    Parser σ :=
  iterate (bodyStep place member) s

end Parser

end Protobuf.Schema

import Protobuf.Schema.Token
import Protobuf.Text.Utf8

/-!
# Scanning schema text

The scanner cuts schema text into tokens. Each kind of token has a function that takes the text
from its first character on and gives the token with the text that follows it. A failure keeps
the place that had been reached, so that scanning can go on behind it.

Lines are counted in the blank space between tokens only: a token never spans a line, except for
an escaped line break in a string literal, which does not count as one.

## Main definitions

* `Scanner` — a place in schema text and the line it is on.
* `Scanner.next` — the next token.
* `Scanner.tokens` — all tokens up to the end of the text or the first failure.

## Implementation notes

A string literal may spell a byte at a time, so it is collected as bytes and only then read as
text, with replacement characters where the bytes are no text.
-/

namespace Protobuf.Schema

/-! ### Blank space -/

/-- Where the scanner is between two tokens. -/
inductive Blank where
  /-- In white space. -/
  | space
  /-- In a comment that ends with its line. -/
  | lineComment
  /-- In a comment that has its own end mark, opened on line `opened`. -/
  | blockComment (opened : Nat)
  deriving DecidableEq, Repr

/-- The characters of white space other than the line break. -/
def isBlank (c : Char) : Bool :=
  c = ' ' || c = '\t' || c = '\r' || c = '\x0b' || c = '\x0c'

/-- Skips white space and comments from a place on line `line`. The result is the line of the
place after them and the text from there, and the line on which a comment was opened that is
never closed. -/
def skipBlank : Blank → Nat → List Char → Option Nat × Nat × List Char
  | .space, line, '\n' :: rest => skipBlank .space (line + 1) rest
  | .space, line, '/' :: '/' :: rest => skipBlank .lineComment line rest
  | .space, line, '/' :: '*' :: rest => skipBlank (.blockComment line) line rest
  | .space, line, c :: rest =>
    if isBlank c then skipBlank .space line rest else (none, line, c :: rest)
  | .lineComment, line, '\n' :: rest => skipBlank .space (line + 1) rest
  | .lineComment, line, _ :: rest => skipBlank .lineComment line rest
  | .blockComment _, line, '*' :: '/' :: rest => skipBlank .space line rest
  | .blockComment opened, line, '\n' :: rest => skipBlank (.blockComment opened) (line + 1) rest
  | .blockComment opened, line, _ :: rest => skipBlank (.blockComment opened) line rest
  | .blockComment opened, line, [] => (some opened, line, [])
  | _, line, [] => (none, line, [])

/-! ### Names -/

/-- A character that may begin a name. -/
def isNameStart (c : Char) : Bool :=
  c.isAlpha || c = '_'

/-- A character that may continue a name. -/
def isNameChar (c : Char) : Bool :=
  c.isAlphanum || c = '_'

/-- The text begins with a character that `p` accepts. -/
def startsWith (p : Char → Bool) : List Char → Bool
  | [] => false
  | c :: _ => p c

/-- The rest of a dotted path and the text after it. A dot belongs to the path when a name begins
right behind it. -/
def scanPath : List Char → List Char × List Char
  | [] => ([], [])
  | c :: rest =>
    if isNameChar c || (c = '.' && startsWith isNameStart rest) then
      let (path, rest) := scanPath rest
      (c :: path, rest)
    else ([], c :: rest)

/-! ### Numbers -/

/-- The value of a digit, up to sixteen of them. -/
def digitValue? (c : Char) : Option Nat :=
  if c.isDigit then some (c.toNat - '0'.toNat)
  else if 'a' ≤ c ∧ c ≤ 'f' then some (c.toNat - 'a'.toNat + 10)
  else if 'A' ≤ c ∧ c ≤ 'F' then some (c.toNat - 'A'.toNat + 10)
  else none

/-- The character is a digit to base `base`. -/
def isDigitTo (base : Nat) (c : Char) : Bool :=
  (digitValue? c).any (· < base)

/-- The number that digits to base `base` write. -/
def numeral (base : Nat) (digits : List Char) : Nat :=
  digits.foldl (fun n c => n * base + (digitValue? c).getD 0) 0

/-- The digits write an integer below `2 ^ 64` to base `base`; nothing does so without digits. -/
def word64? (base : Nat) (digits : List Char) : Option Nat :=
  let value := numeral base digits
  if digits ≠ [] ∧ digits.all (isDigitTo base) ∧ value < UInt64.size then some value else none

/-- Accepts the number `text` unless name characters follow it directly. -/
def endNumber (text : List Char) (token : Except SyntaxFault Token) (rest : List Char) :
    Except SyntaxFault Token × List Char :=
  if startsWith isNameChar rest then
    (.error (.illegalNumber (String.ofList (text ++ rest.takeWhile isNameChar))), rest)
  else (token, rest)

/-- A number to base sixteen, from behind the mark `0x` on. -/
def scanHex (mark rest : List Char) : Except SyntaxFault Token × List Char :=
  let digits := rest.takeWhile (isDigitTo 16)
  let rest := rest.dropWhile (isDigitTo 16)
  match word64? 16 digits with
  | none => (.error (.illegalHexNumber (String.ofList (mark ++ digits))), rest)
  | some value => endNumber (mark ++ digits) (.ok (.int value)) rest

/-- An integer without a mark: octal when a zero is followed by more digits. -/
def integerToken (digits : List Char) : Except SyntaxFault Token :=
  let value := match digits with
    | '0' :: d :: more => word64? 8 (d :: more)
    | digits => word64? 10 digits
  match value with
  | some value => .ok (.int value)
  | none => .error (.illegalNumber (String.ofList digits))

/-- The part of a number from its decimal point on, if it has one: the fraction digits, the text
of the part, and what follows. -/
def scanFraction : List Char → List Char × List Char × List Char
  | '.' :: rest =>
    let digits := rest.takeWhile Char.isDigit
    (digits, '.' :: digits, rest.dropWhile Char.isDigit)
  | rest => ([], [], rest)

/-- The sign at the front of the text, if there is one, and what follows. -/
def scanSign : List Char → List Char × List Char
  | '+' :: rest => (['+'], rest)
  | '-' :: rest => (['-'], rest)
  | rest => ([], rest)

/-- The exponent part of a number, if it has one: its digits with their sign, the text of the
part, and what follows. -/
def scanExponent : List Char → Option (List Char × Bool) × List Char × List Char
  | e :: rest =>
    if e = 'e' ∨ e = 'E' then
      let (sign, rest) := scanSign rest
      let digits := rest.takeWhile Char.isDigit
      (some (digits, sign == ['-']), e :: sign ++ digits, rest.dropWhile Char.isDigit)
    else (none, [], e :: rest)
  | [] => (none, [], [])

/-- The word of the number with the given integer and fraction digits and exponent. -/
def floatToken (whole fraction exponent : List Char) (negative : Bool) : Token :=
  let e : Int := numeral 10 exponent
  let shift : Int := (if negative then -e else e) - fraction.length
  .float (FloatFormat.double.ofDecimal (numeral 10 (whole ++ fraction)) shift).toUInt64

/-- A number that has no base mark. -/
def scanDecimal (text : List Char) : Except SyntaxFault Token × List Char :=
  let whole := text.takeWhile Char.isDigit
  let (fraction, pointText, rest) := scanFraction (text.dropWhile Char.isDigit)
  let (exponent, exponentText, rest) := scanExponent rest
  let spelled := whole ++ pointText ++ exponentText
  match exponent with
  | some ([], _) => (.error (.illegalNumber (String.ofList spelled)), rest)
  | some (digits, negative) =>
    endNumber spelled (.ok (floatToken whole fraction digits negative)) rest
  | none =>
    if pointText = [] then endNumber spelled (integerToken whole) rest
    else endNumber spelled (.ok (floatToken whole fraction [] false)) rest

/-- A number, from its first character on. -/
def scanNumber : List Char → Except SyntaxFault Token × List Char
  | '0' :: 'x' :: rest => scanHex ['0', 'x'] rest
  | '0' :: 'X' :: rest => scanHex ['0', 'X'] rest
  | text => scanDecimal text

/-! ### String literals -/

/-- What is wrong with a string literal. -/
inductive LiteralFault where
  /-- The line or the text ends inside it. -/
  | unterminated
  /-- It has an escape that stands for no byte. -/
  | escape (fault : SyntaxFault)
  deriving DecidableEq, Repr

/-- The bytes that the escape of character `c` stands for, and how many of the characters behind
`c` belong to it. A character without a meaning of its own stands for itself. -/
def escape (c : Char) (rest : List Char) : Except SyntaxFault (List UInt8) × Nat :=
  if c = 'x' ∨ c = 'X' then
    let digits := (rest.take 2).takeWhile (isDigitTo 16)
    if digits = [] then (.error .emptyHexEscape, 0)
    else (.ok [(numeral 16 digits).toUInt8], digits.length)
  else if isDigitTo 8 c then
    let digits := (rest.take 2).takeWhile (isDigitTo 8)
    let value := numeral 8 (c :: digits)
    if 255 < value then (.error (.octalEscapeTooLarge value), digits.length)
    else (.ok [value.toUInt8], digits.length)
  else
    match c with
    | 'a' => (.ok [7], 0)
    | 'b' => (.ok [8], 0)
    | 'f' => (.ok [12], 0)
    | 'n' => (.ok [10], 0)
    | 'r' => (.ok [13], 0)
    | 't' => (.ok [9], 0)
    | 'v' => (.ok [11], 0)
    | c => (.ok (String.utf8EncodeChar c), 0)

/-- The bytes of a string literal up to the closing `quote`, and the text behind it. The first
`skip` characters belong to an escape that has been read already. -/
def scanLiteral (quote : Char) (skip : Nat) :
    List Char → Except LiteralFault (List UInt8) × List Char
  | [] => (.error .unterminated, [])
  | c :: rest =>
    match skip with
    | skip + 1 => scanLiteral quote skip rest
    | 0 =>
      if c = '\n' then (.error .unterminated, c :: rest)
      else if c = quote then (.ok [], rest)
      else if c = '\\' then
        match rest with
        | [] => (.error .unterminated, [])
        | e :: rest =>
          match escape e rest with
          | (.error fault, taken) => (.error (.escape fault), rest.drop taken)
          | (.ok bytes, taken) =>
            let (more, rest) := scanLiteral quote taken rest
            ((bytes ++ ·) <$> more, rest)
      else
        let (more, rest) := scanLiteral quote 0 rest
        ((String.utf8EncodeChar c ++ ·) <$> more, rest)

/-! ### Tokens -/

/-- The punctuation characters. -/
def punctuation : List Char :=
  ['\x7b', '\x7d', '[', ']', '(', ')', '<', '>', '=', ';', ',', ':', '-', '+', '.']

/-- A place in schema text. -/
structure Scanner where
  /-- The text from the place on. -/
  rest : List Char
  /-- The line of the place. -/
  line : Nat
  deriving DecidableEq, Repr

/-- A number begins with the character `c` when `rest` stands behind it. -/
def beginsNumber (c : Char) (rest : List Char) : Bool :=
  c.isDigit || (c = '.' && startsWith Char.isDigit rest)

/-- A name or a dotted path begins with the character `c` when `rest` stands behind it. -/
def beginsPath (c : Char) (rest : List Char) : Bool :=
  isNameStart c || (c = '.' && startsWith isNameStart rest)

namespace Scanner

/-- The place before the first character of `source`. -/
def ofString (source : String) : Scanner :=
  ⟨source.toList, 1⟩

/-- The token that begins with the first character of the text, which stands on line `line`. -/
def tokenAt (line : Nat) : List Char → Except ParseError Token × List Char
  | [] => (.ok .eof, [])
  | c :: rest =>
    if c = '"' ∨ c = '\'' then
      match scanLiteral c 0 rest with
      | (.ok bytes, rest) => (.ok (.str (Utf8.repair bytes)), rest)
      | (.error .unterminated, rest) => (.error (.unterminatedString line), rest)
      | (.error (.escape fault), rest) => (.error (.malformed line fault), rest)
    else if beginsNumber c rest then
      let (token, rest) := scanNumber (c :: rest)
      (token.mapError (.malformed line), rest)
    else if beginsPath c rest then
      let (path, rest) := scanPath rest
      (.ok (.ident (String.ofList (c :: path))), rest)
    else if c ∈ punctuation then (.ok (.symbol c), rest)
    else (.error (.illegalCharacter line c), c :: rest)

/-- The next token and the place behind it. -/
def next (s : Scanner) : Except ParseError Located × Scanner :=
  match skipBlank .space s.line s.rest with
  | (some opened, line, rest) => (.error (.malformed opened .unterminatedComment), ⟨rest, line⟩)
  | (none, line, rest) =>
    let (token, rest) := tokenAt line rest
    ((⟨·, line⟩) <$> token, ⟨rest, line⟩)

/-- The tokens before the end of the text, at most `fuel` of them, and how they end: with the
end of the text, which is a token too, or with a failure. -/
def tokensWithin : Nat → Scanner → List Located × Except ParseError Located
  | 0, s => ([], .ok ⟨.eof, s.line⟩)
  | fuel + 1, s =>
    match s.next with
    | (.error e, _) => ([], .error e)
    | (.ok ⟨.eof, line⟩, _) => ([], .ok ⟨.eof, line⟩)
    | (.ok t, s) =>
      let (ts, ending) := tokensWithin fuel s
      (t :: ts, ending)

/-- All tokens from a place on. Each takes a character or more, so there are no more of them than
characters. -/
def tokens (s : Scanner) : List Located × Except ParseError Located :=
  tokensWithin (s.rest.length + 1) s

end Scanner

end Protobuf.Schema

import Protobuf.Schema.Scanner

/-!
# Tokens with lookahead

A lexer gives the tokens of schema text one by one and takes tokens back. Tokens that were given
back are kept in front of the scanner, so looking ahead is taking a token and giving it back.

## Main definitions

* `Lexer.next`, `Lexer.peek`, `Lexer.pushBack` — take a token, look at it, give it back.
* `Lexer.currentLine` — the line that a message about the next token would name.
-/

namespace Protobuf.Schema

/-- The tokens of schema text from a place on. -/
structure Lexer where
  /-- The place up to which the text has been cut into tokens. -/
  scanner : Scanner
  /-- The tokens that were given back, the next one first. -/
  pushed : List Located
  deriving DecidableEq, Repr

namespace Lexer

/-- The tokens of a text. -/
def ofString (source : String) : Lexer :=
  ⟨.ofString source, []⟩

/-- The line of the token that was given back last; without one, the line that scanning has
reached, which is that of the last token scanned. -/
def currentLine (l : Lexer) : Nat :=
  match l.pushed with
  | t :: _ => t.line
  | [] => l.scanner.line

/-- Takes the next token. -/
def next (l : Lexer) : Except ParseError Located × Lexer :=
  match l.pushed with
  | t :: more => (.ok t, ⟨l.scanner, more⟩)
  | [] =>
    let (t, scanner) := l.scanner.next
    (t, ⟨scanner, []⟩)

/-- Gives a token back, so that it is the next one. -/
def pushBack (l : Lexer) (t : Located) : Lexer :=
  ⟨l.scanner, t :: l.pushed⟩

/-- Looks at the next token. -/
def peek (l : Lexer) : Except ParseError Located × Lexer :=
  match l.next with
  | (.ok t, l) => (.ok t, l.pushBack t)
  | (.error e, l) => (.error e, l)

end Lexer

end Protobuf.Schema

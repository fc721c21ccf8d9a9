import Protobuf.Text.Visible

/-!
# Quoted text

Text is shown between double quotes when the reader must see where it begins and ends. Quotes,
backslashes and the common control characters are escaped, and every character that would not be
seen by itself is written as its code point.

## Main definitions

* `Text.quoted` — a text between quotes.
* `Text.bracketed` — shown items between brackets, separated by commas.
-/

namespace Protobuf.Text

/-- The code point of a character, between braces. -/
def codePointEscape (c : Char) : List Char :=
  "\\u\x7b".toList ++ Nat.toDigits 16 c.toNat ++ ['\x7d']

/-- A character as it stands between double quotes. -/
def quotedChar (c : Char) : List Char :=
  match c with
  | '\x00' => ['\\', '0']
  | '\t' => ['\\', 't']
  | '\r' => ['\\', 'r']
  | '\n' => ['\\', 'n']
  | '"' => ['\\', '"']
  | '\\' => ['\\', '\\']
  | c => if isVisible c then [c] else codePointEscape c

/-- A text between double quotes. -/
def quoted (s : String) : String :=
  String.ofList ('"' :: s.toList.flatMap quotedChar ++ ['"'])

/-- Shown items between brackets. -/
def bracketed (items : List String) : String :=
  "[" ++ ", ".intercalate items ++ "]"

end Protobuf.Text

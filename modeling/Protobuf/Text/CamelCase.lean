import Protobuf.Text.UpperCase

/-!
# Camel case

Field names may be given with their words joined: an underscore disappears and the character
after it turns to upper case. Only an underscore at the very front stays.

## Main definitions

* `Text.camelCase` — `foo_bar_baz` becomes `fooBarBaz`.
-/

namespace Protobuf.Text

/-- Joins words. `begun` tells that a character has been written already, and `raise` that an
underscore has just gone. -/
def joinWords (begun raise : Bool) : List Char → List Char
  | [] => []
  | c :: rest =>
    if c = '_' && begun then joinWords true true rest
    else (if raise then upperCase c else [c]) ++ joinWords true false rest

/-- A name with its words joined. -/
def camelCase (name : String) : String :=
  String.ofList (joinWords false false name.toList)

end Protobuf.Text

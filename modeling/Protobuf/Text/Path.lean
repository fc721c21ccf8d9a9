/-!
# Dotted paths

Nested definitions are addressed by dotted paths. A path that begins with a dot starts at the
outermost level.

## Main definitions

* `Path.parts` — the names between the dots.
* `Path.join` — a path of names.
* `Path.anchored?` — what follows a leading dot.
-/

namespace Protobuf.Path

/-- The stretches between the occurrences of `sep`; there is always one more of them. -/
def stretches (sep : Char) : List Char → List (List Char)
  | [] => [[]]
  | c :: rest =>
    if c = sep then [] :: stretches sep rest
    else match stretches sep rest with
      | [] => [[c]]
      | first :: more => (c :: first) :: more

/-- The names between the dots of a path. -/
def parts (path : String) : List String :=
  (stretches '.' path.toList).map String.ofList

/-- The path of a list of names. -/
def join (names : List String) : String :=
  ".".intercalate names

/-- What follows the leading dot of a path that has one. -/
def anchored? (path : String) : Option String :=
  match path.toList with
  | '.' :: rest => some (String.ofList rest)
  | _ => none

/-- A path without its leading dot, if it has one. -/
def unanchored (path : String) : String :=
  (anchored? path).getD path

end Protobuf.Path

import Protobuf.Schema.Parser.Message

/-!
# Reading schema files

## Main definitions

* `Schema.parse` — the declarations of a schema text, or the first fault in it.

The dialect of a file is that of the last statement that sets it, while each field is judged by
the dialect in force where it stands. What is read last stands first while a file is being read.
-/

namespace Protobuf.Schema

namespace Parser

/-- The dialect that a statement sets, from behind the word that begins it on line `line`. -/
def dialectStatement (line : Nat) : Parser Unit := do
  expectSymbol '='
  let text ← stringLiteral
  match text with
  | "proto2" => modify ({ · with dialect := .proto2 })
  | "proto3" => modify ({ · with dialect := .proto3 })
  | _ => fail line (.unknownDialect text)
  expectSymbol ';'

/-- The name of a package, from behind the word that begins the statement on line `line`. -/
def packageStatement (file : FileDecl) (line : Nat) : Parser FileDecl := do
  if file.package.isSome then fail line .duplicatePackage
  let package ← path
  if package.startsWith "." then fail line (.illegalPackageName package)
  expectSymbol ';'
  return { file with package := some package }

/-- The path of an import, from behind the word that begins the statement. -/
def importStatement : Parser String := do
  let t ← next
  let path ← match t.token with
    | .ident "public" => stringLiteral
    | .ident "weak" => stringLiteral
    | .str path => pure path
    | found => fail t.line (.expected .importPath found)
  expectSymbol ';'
  return path

/-- A method of a service whose type comes with the mark of a stream or without. A message that is
called `stream` is still a message. -/
def methodType : Parser (Bool × String) := do
  let first ← path
  if first = "stream" then
    if let .ident _ := (← peek).token then
      return (true, ← path)
  return (false, first)

/-- An option of the method `method`, the only thing that its braces may contain. -/
def methodMember (levels : Nat) (method : String) (options : Options) (word : String) (t : Located) :
    Parser Options := do
  if word = "option" then optionStatement levels options
  else fail t.line (.unexpected t.token (.method method))

/-- The options of a method, in braces, or the semicolon in their place. -/
def methodBody (levels : Nat) (method : String) : Parser Options := do
  let t ← next
  match t.token with
  | .symbol ';' => return {}
  | .symbol '\x7b' => Parser.body (.method method) (methodMember levels method) {}
  | found => fail t.line (.expected (.methodBody method) found)

/-- A method of a service, from behind the word that begins it. -/
def method (levels : Nat) : Parser MethodDecl := do
  let name ← Parser.name
  expectSymbol '('
  let (requestStream, request) ← methodType
  expectSymbol ')'
  expectKeyword "returns"
  expectSymbol '('
  let (responseStream, response) ← methodType
  expectSymbol ')'
  let options ← methodBody levels name
  return { name, request, response, requestStream, responseStream, options }

/-- The member of the service `name` that begins with the word `word`. -/
def serviceMember (levels : Nat) (name : String) (s : ServiceDecl) (word : String) (t : Located) :
    Parser ServiceDecl := do
  if word = "option" then
    return { s with options := ← optionStatement levels s.options }
  else if word = "rpc" then
    return { s with methods := (← method levels) :: s.methods }
  else fail t.line (.unexpected t.token (.service name))

/-- A service, from behind the word that begins it. -/
def service (levels : Nat) (line : Nat) : Parser ServiceDecl := do
  let name ← Parser.name
  expectSymbol '\x7b'
  let s ← Parser.body (.service name) (serviceMember levels name)
    { name, methods := [], options := {}, line }
  return { s with methods := s.methods.reverse }

/-- A file with the statement that begins with the word `word`. -/
def statement (file : FileDecl) (word : String) (t : Located) : Parser FileDecl := do
  let line := t.line
  match word with
  | "syntax" =>
    dialectStatement line
    return file
  | "package" => packageStatement file line
  | "import" => return { file with imports := (← importStatement) :: file.imports }
  | "option" => return { file with options := ← optionStatement maxNesting file.options }
  | "message" =>
    return { file with messages := (← message (messageBody maxNesting) line) :: file.messages }
  | "enum" => return { file with enums := (← enumeration maxNesting line) :: file.enums }
  | "service" => return { file with services := (← service maxNesting line) :: file.services }
  | "extend" =>
    let block ← extendBlock maxNesting (messageBody maxNesting) line
    return { file with extendBlocks := block :: file.extendBlocks }
  | _ => fail line (.unexpected t.token .topLevel)

/-- A file that has been read, with everything in it in the order in which it was read. -/
def turnFile (file : FileDecl) : FileDecl :=
  { file with
    imports := file.imports.reverse
    messages := file.messages.reverse
    enums := file.enums.reverse
    services := file.services.reverse
    extendBlocks := file.extendBlocks.reverse }

/-- A statement of a file, a semicolon between statements, or the end of the text. -/
def fileStep (file : FileDecl) : Parser (FileDecl ⊕ FileDecl) := do
  let t ← next
  match t.token with
  | .eof => return .inr file
  | .symbol ';' => return .inl file
  | .ident word => return .inl (← statement file word t)
  | found => fail t.line (.expected .topLevelStatement found)

/-- The statements of a file, up to the end of the text. -/
def file : Parser FileDecl := do
  let decl ← iterate fileStep {}
  return { turnFile decl with dialect := ← dialect }

end Parser

/-- The declarations of a schema text, or the first fault in it. -/
def parse (source : String) : Except ParseError FileDecl :=
  let (ahead, ending) := (Scanner.ofString source).tokens
  Parser.file.run' { ahead, ending }

end Protobuf.Schema

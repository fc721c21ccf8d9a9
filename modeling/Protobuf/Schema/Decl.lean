import Protobuf.Keyed
import Protobuf.Number.Notation
import Protobuf.Text.Quoted

/-!
# Schema declarations

The content of a schema file as plain data: what is declared, with the names and numbers as
written. Nothing is checked here that takes more than the grammar; declarations may just as well
come from elsewhere than from text.

## Main definitions

* `Dialect`, `Rule` — the two dialects of the language, and how often a field occurs.
* `Constant`, `Options` — the values of options, and a set of options.
* `MessageDecl`, `EnumDecl`, `ServiceDecl`, `ExtendDecl` and their parts.
* `FileDecl` — a whole file; `FileDecl.definitions` is what it defines, in order of creation.
-/

namespace Protobuf

/-- A dialect of the schema language. -/
inductive Dialect where
  | proto2
  | proto3
  deriving DecidableEq, Repr, Inhabited

/-- The name of a dialect. -/
def Dialect.name : Dialect → String
  | proto2 => "proto2"
  | proto3 => "proto3"

/-- How often a field occurs in a message. -/
inductive Rule where
  /-- Exactly once. -/
  | required
  /-- Once or not at all. -/
  | optional
  /-- Any number of times. -/
  | repeated
  /-- As the entries of a map. -/
  | map
  /-- Once, where leaving the zero value out makes no difference. -/
  | implicit
  deriving DecidableEq, Repr, Inhabited

/-- The name of a rule. -/
def Rule.name : Rule → String
  | required => "required"
  | optional => "optional"
  | repeated => "repeated"
  | map => "map"
  | implicit => "implicit"

/-- The value of an option. -/
inductive Constant where
  /-- A bare name, such as that of an enum value. -/
  | ident (name : String)
  /-- An integer of 64 bits with sign. -/
  | int (value : Int)
  /-- An integer above those. -/
  | uint (value : Nat)
  /-- A floating-point number, as its 64-bit word. -/
  | float (bits : UInt64)
  | str (text : String)
  | bool (value : Bool)
  /-- Named values between braces. -/
  | aggregate (fields : List (String × Constant))
  deriving Repr, Inhabited

mutual

/-- A constant as it is shown in messages: its kind, and its value in parentheses. -/
def Constant.inspect : Constant → String
  | .ident name => "Ident(" ++ Text.quoted name ++ ")"
  | .int value => s!"Int({value})"
  | .uint value => s!"Uint({value})"
  | .float bits => "Float(" ++ FloatFormat.double.marked bits.toNat ++ ")"
  | .str text => "Str(" ++ Text.quoted text ++ ")"
  | .bool value => s!"Bool({value})"
  | .aggregate fields => "Aggregate(" ++ Text.bracketed (Constant.inspectFields fields) ++ ")"

/-- The fields of an aggregate as they are shown in messages. -/
def Constant.inspectFields : List (String × Constant) → List String
  | [] => []
  | (name, value) :: more =>
    ("(" ++ Text.quoted name ++ ", " ++ value.inspect ++ ")") :: Constant.inspectFields more

end

/-- Options and their values, by ascending name, each name once. -/
structure Options where
  entries : List (String × Constant) := []
  deriving Repr, Inhabited

namespace Options

/-- Sets an option; the last value set for a name holds. -/
def insert (o : Options) (name : String) (value : Constant) : Options :=
  ⟨Keyed.insert Prod.fst (name, value) o.entries⟩

/-- The value of an option. -/
def get? (o : Options) (name : String) : Option Constant :=
  o.entries.lookup name

/-- The options of a list of settings, made one after the other. -/
def ofList (settings : List (String × Constant)) : Options :=
  settings.foldl (fun o (name, value) => o.insert name value) {}

end Options

/-- The greatest field number. -/
def maxFieldId : UInt32 := 536870911

/-- A field of a message or of an extension. -/
structure FieldDecl where
  rule : Rule
  typeName : String
  /-- The key type of a map. -/
  keyType : Option String
  name : String
  id : UInt32
  options : Options
  /-- The oneof that the field is a member of. -/
  oneof : Option String
  line : Nat
  deriving Repr, Inhabited

/-- A group of fields of which at most one is set. -/
structure OneofDecl where
  name : String
  options : Options
  deriving Repr, Inhabited

/-- A named value of an enum. -/
structure EnumValueDecl where
  name : String
  id : Int32
  options : Options
  deriving Repr, Inhabited

/-- An enum. -/
structure EnumDecl where
  name : String
  values : List EnumValueDecl
  options : Options
  line : Nat
  deriving Repr, Inhabited

/-- A method of a service. -/
structure MethodDecl where
  name : String
  request : String
  response : String
  requestStream : Bool
  responseStream : Bool
  options : Options
  deriving Repr, Inhabited

/-- A service. -/
structure ServiceDecl where
  name : String
  methods : List MethodDecl
  options : Options
  line : Nat
  deriving Repr, Inhabited

/-- A field number or name that a message keeps unused. -/
inductive Reserved where
  /-- All numbers from `lo` to `hi`. -/
  | range (lo hi : UInt32)
  | name (name : String)
  deriving DecidableEq, Repr, Inhabited

/-- Fields that are added to the message `extendee` from outside of it. The bodies of groups among
them are declared along with them; `M` is the type of such bodies. -/
structure ExtendDeclOf (M : Type) where
  extendee : String
  fields : List FieldDecl
  messages : List M
  line : Nat
  deriving Repr, Inhabited

/-- A message. -/
structure MessageDecl where
  name : String
  /-- The message is the body of a group field. -/
  isGroup : Bool := false
  fields : List FieldDecl := []
  oneofs : List OneofDecl := []
  enums : List EnumDecl := []
  messages : List MessageDecl := []
  extendBlocks : List (ExtendDeclOf MessageDecl) := []
  options : Options := {}
  /-- The numbers that are open for extensions, as ranges with both ends included. -/
  extensionRanges : List (UInt32 × UInt32) := []
  reserved : List Reserved := []
  line : Nat := 0
  deriving Repr, Inhabited

/-- Fields that are added to a message from outside of it. -/
abbrev ExtendDecl := ExtendDeclOf MessageDecl

/-- What a file or a caller defines as a whole. -/
inductive Definition where
  | message (decl : MessageDecl)
  | enumeration (decl : EnumDecl)
  | service (decl : ServiceDecl)
  | extension (decl : ExtendDecl)
  deriving Repr, Inhabited

/-- A schema file. -/
structure FileDecl where
  dialect : Dialect := .proto2
  package : Option String := none
  imports : List String := []
  options : Options := {}
  messages : List MessageDecl := []
  enums : List EnumDecl := []
  services : List ServiceDecl := []
  extendBlocks : List ExtendDecl := []
  deriving Repr, Inhabited

/-- What a file defines, in the order in which it is created: messages, enums, services, and
extensions last, because they refer to messages. -/
def FileDecl.definitions (f : FileDecl) : List Definition :=
  f.messages.map .message ++ f.enums.map .enumeration ++ f.services.map .service
    ++ f.extendBlocks.map .extension

end Protobuf

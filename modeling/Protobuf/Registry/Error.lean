import Protobuf.Atom
import Protobuf.Schema.Decl
import Protobuf.Schema.Token

/-!
# Errors of schemas

## Main definitions

* `DefaultFault` — why a constant is no default for a field.
* `DefinitionError` — a definition that breaks a rule.
* `ReferenceError` — a reference that leads nowhere, or to the wrong kind of node.
* `SchemaError` — everything that can go wrong until all definitions are linked.
* `AccessError` — why a type cannot be handed out.

Each has its wording in a function `message`.
-/

namespace Protobuf

/-- Why a constant is no default for a field. -/
inductive DefaultFault where
  /-- The dialect has no defaults. -/
  | notAllowed
  /-- The field may occur many times. -/
  | repeated
  /-- The field is a message. -/
  | message
  /-- The constant names no value of the enum. -/
  | noEnumValue (constant : Constant) (enumeration : String)
  /-- The constant is of a kind that no scalar type takes. -/
  | noScalar (constant : Constant) (expected : Scalar)
  /-- The value does not fit the type. -/
  | unfit (fault : CoercionFault)

/-- The wording of a fault. -/
def DefaultFault.describe : DefaultFault → String
  | notAllowed => "explicit defaults are not allowed in proto3"
  | repeated => "repeated fields cannot have a default"
  | message => "message fields cannot have a default"
  | noEnumValue constant enumeration => s!"{constant.inspect} is not a value of '{enumeration}'"
  | noScalar constant expected => s!"{constant.inspect} is not a {expected.name} constant"
  | unfit fault => fault.message

/-- A definition that breaks a rule. Fields are given by their paths, except where the message is
given beside them. -/
inductive DefinitionError where
  | duplicateName (scope name : String)
  | duplicateFieldId (message : String) (id : UInt32)
  | idOutOfRange (field : String) (id : UInt32)
  | reservedId (field : String) (id : UInt32)
  | idInExtensionRange (message field : String) (id : UInt32)
  | extensionOutOfRange (message field : String) (id : UInt32)
  | repeatedInOneof (oneof field : String)
  | requiredInProto3 (message field : String)
  | enumConflict (name : String)
  | invalidDefault (field : String) (fault : DefaultFault)
  | packedNotBool (field : String) (found : Constant)
  | invalidMapKey (field keyType : String)
  | notExtendable (name : String)
  | unknownOneof (oneof field : String)
  | notAPackage (package name : String)

/-- The wording of an error. -/
def DefinitionError.message : DefinitionError → String
  | duplicateName scope name => s!"duplicate name '{name}' in '{scope}'"
  | duplicateFieldId message id => s!"duplicate field id {id} in message '{message}'"
  | idOutOfRange field id => s!"field '{field}' has id {id}, which is outside 1..={maxFieldId}"
  | reservedId field id =>
    s!"field '{field}' has id {id}, which lies in the reserved range 19000..=19999"
  | idInExtensionRange message field id =>
    s!"field '{field}' id {id} overlaps an extension range of '{message}'"
  | extensionOutOfRange message field id =>
    s!"extension '{field}' id {id} is outside the extension ranges of '{message}'"
  | repeatedInOneof oneof field => s!"oneof '{oneof}' contains repeated field '{field}'"
  | requiredInProto3 message field =>
    s!"proto3 message '{message}' declares required field '{field}'"
  | enumConflict name => s!"enum '{name}' conflicts with an existing definition"
  | invalidDefault field fault => s!"invalid default value for field '{field}': {fault.describe}"
  | packedNotBool field found =>
    s!"invalid value for option 'packed' on '{field}': expected a bool, got {found.inspect}"
  | invalidMapKey field keyType => s!"invalid map key type '{keyType}' for field '{field}'"
  | notExtendable name => s!"'{name}' is not a message and cannot be extended"
  | unknownOneof oneof field => s!"unknown oneof '{oneof}' referenced by field '{field}'"
  | notAPackage package name => s!"cannot define package '{package}': '{name}' is not a namespace"

/-- A reference that leads nowhere, or to the wrong kind of node. -/
inductive ReferenceError where
  | unresolved (typeName referencedBy : String)
  | wrongKind (typeName referencedBy expected : String)
  deriving DecidableEq, Repr

/-- The wording of an error. -/
def ReferenceError.message : ReferenceError → String
  | unresolved typeName referencedBy =>
    s!"unresolvable type reference '{typeName}' in '{referencedBy}'"
  | wrongKind typeName referencedBy expected =>
    s!"'{typeName}' referenced by '{referencedBy}' is not a {expected}"

/-- Everything that can go wrong until all definitions are linked. -/
inductive SchemaError where
  | parse (e : Schema.ParseError)
  | definition (e : DefinitionError)
  | reference (e : ReferenceError)
  /-- The text of an imported file is not available. -/
  | importMissing (path importer : String)

/-- The wording of an error. -/
def SchemaError.message : SchemaError → String
  | parse e => e.message
  | definition e => e.message
  | reference e => e.message
  | importMissing path importer => s!"cannot load import '{path}' requested by '{importer}'"

/-- Why a type cannot be handed out. -/
inductive AccessError where
  /-- The definitions have not been linked. -/
  | unresolved
  | notFound (path : String)
  | wrongKind (path expected : String)
  deriving DecidableEq, Repr

/-- The wording of an error. -/
def AccessError.message : AccessError → String
  | unresolved => "cannot build an unresolved type graph"
  | notFound path => s!"no such type or namespace '{path}'"
  | wrongKind path expected => s!"'{path}' is not a {expected}"

end Protobuf

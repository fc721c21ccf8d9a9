import Protobuf.Atom

/-!
# Refused values

## Main definitions

* `ValueFault` — why a value does not fit where it is to be put.
* `ValueError` — why an access to a message or a map is refused.
-/

namespace Protobuf

/-- Why a value does not fit where it is to be put. Actual values are named by their kinds. -/
inductive ValueFault where
  /-- The value does not fit a scalar type. -/
  | coercion (fault : CoercionFault)
  | notAList (actual : String)
  | notAMap (actual : String)
  | notAnEnum (actual : String)
  /-- The integer is beyond the range of enum numbers. -/
  | enumRange (value : Int)
  | enumName (name enumeration : String)
  /-- The enum is closed and has no value of this number. -/
  | enumNumber (id : Int32) (enumeration : String)
  /-- The message is of another type. -/
  | wrongMessage (expected actual : String)
  /-- The value is no message; what message it should be is known unless a map is detached. -/
  | notAMessage (expected : Option String) (actual : String)
  /-- The map has keys or values of other types than the field. -/
  | wrongEntryTypes
  /-- What the type of the field refers to has not been looked up. -/
  | unlinked
  deriving DecidableEq, Repr

/-- The wording of a fault. -/
def ValueFault.message : ValueFault → String
  | coercion fault => fault.message
  | notAList actual => s!"expected list, got {actual}"
  | notAMap actual => s!"expected map, got {actual}"
  | notAnEnum actual => s!"expected enum, got {actual}"
  | enumRange value => s!"{value} is out of range for an enum"
  | enumName name enumeration => s!"'{name}' is not a value of enum '{enumeration}'"
  | enumNumber id enumeration => s!"{id.toInt} is not a value of enum '{enumeration}'"
  | wrongMessage expected actual => s!"expected message '{expected}', got '{actual}'"
  | notAMessage (some expected) actual => s!"expected message '{expected}', got {actual}"
  | notAMessage none actual => s!"expected message, got {actual}"
  | wrongEntryTypes => "map key or value type does not match the field"
  | unlinked => "field type is unresolved"

/-- Why an access to a message or a map is refused. -/
inductive ValueError where
  | noSuchField (message field : String)
  | illegalValue (field : String) (fault : ValueFault)
  | illegalKey (fault : ValueFault)
  | illegalEntry (fault : ValueFault)
  | notRepeated (field : String)
  | notAMap (field : String)
  deriving DecidableEq, Repr

/-- The wording of an error. -/
def ValueError.message : ValueError → String
  | noSuchField message field => s!"message '{message}' has no field '{field}'"
  | illegalValue field fault => s!"illegal value for field '{field}': {fault.message}"
  | illegalKey fault => s!"illegal value for field '<map key>': {fault.message}"
  | illegalEntry fault => s!"illegal value for field '<map value>': {fault.message}"
  | notRepeated field => s!"field '{field}' is not repeated"
  | notAMap field => s!"field '{field}' is not a map"

end Protobuf

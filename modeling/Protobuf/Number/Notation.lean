import Protobuf.Number.Shortest

/-!
# Writing floating-point numbers

Numbers are written in two ways: plainly, for text that a reader of the schema language would
write, and with a mark that shows a floating-point number as one, for inspection.

## Main definitions

* `FloatFormat.plain` — always positional, no point in an integral value.
* `FloatFormat.marked` — with `.0` in an integral value, and with an exponent when the value is
  below `10 ^ -4` or from `10 ^ 16` on.
-/

namespace Protobuf

namespace Decimal

/-- The digits as text. -/
def digitText (d : Decimal) : List Char :=
  Nat.toDigits 10 d.digits

/-- The power of ten of the leading digit. -/
def leadingExponent (d : Decimal) : Int :=
  d.exponent + (d.digitText.length - 1 : Nat)

/-- Positional notation, without a point when there is nothing behind it. -/
def positional (d : Decimal) : List Char :=
  let ds := d.digitText
  if 0 ≤ d.exponent then ds ++ List.replicate d.exponent.toNat '0'
  else
    let behind := (-d.exponent).toNat
    if behind < ds.length then
      ds.take (ds.length - behind) ++ '.' :: ds.drop (ds.length - behind)
    else '0' :: '.' :: (List.replicate (behind - ds.length) '0' ++ ds)

/-- One digit before the point and the power of ten behind an `e`; no point when there is only one
digit. -/
def scientific (d : Decimal) : List Char :=
  let mantissa := match d.digitText with
    | first :: second :: more => first :: '.' :: second :: more
    | ds => ds
  mantissa ++ 'e' :: (toString d.leadingExponent).toList

end Decimal

namespace FloatFormat

variable (f : FloatFormat)

/-- Writes a word, given how to write the decimal of a finite one. NaN has no sign in print. -/
def writeWith (finite : Decimal → List Char) (bits : Nat) : String :=
  if f.isNaN bits then "NaN"
  else
    let body := if f.isInfinite bits then "inf".toList else finite (f.shortest bits)
    String.ofList (if f.isNegative bits then '-' :: body else body)

/-- Positional notation with the fewest digits that identify the value. -/
def plain (bits : Nat) : String :=
  f.writeWith Decimal.positional bits

/-- Notation that shows a floating-point number as one: a point or an exponent is always there. -/
def marked (bits : Nat) : String :=
  f.writeWith (fun d =>
    if d.digits ≠ 0 ∧ (d.leadingExponent < -4 ∨ 16 ≤ d.leadingExponent) then d.scientific
    else if 0 ≤ d.exponent then d.positional ++ ['.', '0']
    else d.positional) bits

end FloatFormat

end Protobuf

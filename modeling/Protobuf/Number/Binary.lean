/-!
# Binary floating-point numbers

Floating-point fields are kept as the words that travel on the wire, so that every bit of them,
those of a NaN included, survives a round trip. This file reads such words as numbers and rounds
numbers to such words, in exact arithmetic on naturals.

Both formats that occur, of 32 and of 64 bits, are values of one type; each function takes the
format as an argument.

## Main definitions

* `FloatFormat`, `FloatFormat.single`, `FloatFormat.double` — the two layouts.
* `FloatFormat.magnitude` — a finite word as `mantissa * 2 ^ exponent`.
* `FloatFormat.nearest` — the word of the value closest to a quotient of naturals.
* `widen`, `narrow` — between the two formats.

## Implementation notes

Words are handled as `Nat` here and get their width back at the edge. `nearest` exploits that the
words of nonnegative values are ordered like the values: a mantissa that rounds up to the next
power of two carries into the exponent field by itself.
-/

namespace Protobuf

/-- A binary layout: a sign bit, then the exponent field, then the fraction field. -/
structure FloatFormat where
  /-- Bits of the fraction field. -/
  fractionBits : Nat
  /-- Bits of the exponent field. -/
  exponentBits : Nat
  deriving DecidableEq, Repr

namespace FloatFormat

/-- The format of 32 bits. -/
def single : FloatFormat := ⟨23, 8⟩

/-- The format of 64 bits. -/
def double : FloatFormat := ⟨52, 11⟩

variable (f : FloatFormat)

/-- The number whose bit is the sign. -/
def signBit : Nat := 1 <<< (f.fractionBits + f.exponentBits)

/-- The word of positive infinity: all exponent bits set, no fraction bit. -/
def infinity : Nat := (1 <<< f.exponentBits - 1) <<< f.fractionBits

/-- The lowest fraction bit's exponent in the smallest values. -/
def minExponent : Int := 2 - (1 <<< (f.exponentBits - 1) : Nat) - f.fractionBits

/-- The sign bit is set. -/
def isNegative (bits : Nat) : Bool := f.signBit ≤ bits

/-- The word without its sign. -/
def unsigned (bits : Nat) : Nat := bits % f.signBit

/-- The word stands for no number. -/
def isNaN (bits : Nat) : Bool := f.infinity < f.unsigned bits

/-- The word stands for one of the infinities. -/
def isInfinite (bits : Nat) : Bool := f.unsigned bits = f.infinity

/-- The absolute value of a finite word, as a mantissa and the power of two it counts. -/
def magnitude (bits : Nat) : Nat × Int :=
  let field := f.unsigned bits >>> f.fractionBits
  let fraction := bits % 1 <<< f.fractionBits
  if field = 0 then (fraction, f.minExponent)
  else (1 <<< f.fractionBits + fraction, f.minExponent + (field - 1 : Nat))

/-- The quotient of `num` and `den` as an integer, rounded to nearest, ties to even. -/
def roundQuotient (num den : Nat) : Nat :=
  let q := num / den
  let r := num % den
  if 2 * r < den ∨ (2 * r = den ∧ q % 2 = 0) then q else q + 1

/-- The exponent of the largest power of two that does not exceed `num / den`. -/
def log2Quotient (num den : Nat) : Int :=
  let guess : Int := (num.log2 : Int) - den.log2
  if den <<< guess.toNat ≤ num <<< (-guess).toNat then guess else guess - 1

/-- The word of the nonnegative value closest to `num / den`, ties to the even mantissa. Beyond
the largest finite value it is infinity. -/
def nearest (num den : Nat) : Nat :=
  if num = 0 then 0
  else
    let unit := max (log2Quotient num den - f.fractionBits) f.minExponent
    let mantissa := roundQuotient (num <<< (-unit).toNat) (den <<< unit.toNat)
    min ((unit - f.minExponent).toNat <<< f.fractionBits + mantissa) f.infinity

/-- The word of the value closest to an integer. -/
def ofInt (n : Int) : Nat :=
  (if n < 0 then f.signBit else 0) + f.nearest n.natAbs 1

/-- The word of the value closest to `digits * 10 ^ exponent`. Exponents far outside the format
are settled without computing the power. -/
def ofDecimal (digits : Nat) (exponent : Int) : Nat :=
  let leading : Int := exponent + (Nat.toDigits 10 digits).length
  if digits = 0 ∨ leading < -400 then 0
  else if 400 < leading then f.infinity
  else f.nearest (digits * Nat.pow 10 exponent.toNat) (Nat.pow 10 (-exponent).toNat)

end FloatFormat

/-- The 64-bit word of a 32-bit one. Every 32-bit value has one; a NaN keeps its sign and its
payload and becomes quiet. -/
def widen (bits : UInt32) : UInt64 :=
  let n := bits.toNat
  let sign := if FloatFormat.single.isNegative n then FloatFormat.double.signBit else 0
  let magnitude :=
    if FloatFormat.single.isNaN n then
      FloatFormat.double.infinity ||| 1 <<< 51 ||| (n % 1 <<< 23) <<< 29
    else if FloatFormat.single.isInfinite n then FloatFormat.double.infinity
    else
      let (mantissa, exponent) := FloatFormat.single.magnitude n
      FloatFormat.double.nearest (mantissa <<< exponent.toNat) (1 <<< (-exponent).toNat)
  (sign + magnitude).toUInt64

/-- The 32-bit word closest to a 64-bit one. A NaN keeps its sign and the upper part of its payload
and becomes quiet. -/
def narrow (bits : UInt64) : UInt32 :=
  let n := bits.toNat
  let sign := if FloatFormat.double.isNegative n then FloatFormat.single.signBit else 0
  let magnitude :=
    if FloatFormat.double.isNaN n then
      FloatFormat.single.infinity ||| 1 <<< 22 ||| (n % 1 <<< 52) >>> 29
    else if FloatFormat.double.isInfinite n then FloatFormat.single.infinity
    else
      let (mantissa, exponent) := FloatFormat.double.magnitude n
      FloatFormat.single.nearest (mantissa <<< exponent.toNat) (1 <<< (-exponent).toNat)
  (sign + magnitude).toUInt32

end Protobuf

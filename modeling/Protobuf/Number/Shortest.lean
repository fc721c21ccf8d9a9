import Protobuf.Number.Binary

/-!
# Shortest decimals

A floating-point value is printed with the fewest decimal digits that still identify it, that is,
that lie closer to it than to any other value of its format. Among equally short decimals the one
closest to the value is taken, and an exact tie goes away from zero.

The values that read back to a given one form an interval, from halfway to the neighbour below to
halfway to the neighbour above; the ends belong to it exactly when the mantissa is even, because
ties are rounded to even. Right above a power of two the lower neighbour is only half as far away.

## Main definitions

* `Decimal` — digits and a power of ten.
* `FloatFormat.identifies` — a decimal lies in the interval of a word.
* `FloatFormat.shortest` — the decimal that is printed.

## Implementation notes

For a given number of digits only the two decimals around the value can be the closest, so the
search tries both for one digit, two digits and so on. Seventeen digits are always enough; if they
were not, the exact value would be the answer.
-/

namespace Protobuf

/-- The number `digits * 10 ^ exponent`. -/
structure Decimal where
  /-- The digits, read as one natural number. -/
  digits : Nat
  /-- The power of ten that the last digit counts. -/
  exponent : Int
  deriving DecidableEq, Repr

namespace Decimal

/-- Compares a decimal with `m * 2 ^ q`, exactly. -/
def compareBinary (d : Decimal) (m : Nat) (q : Int) : Ordering :=
  compare ((d.digits * Nat.pow 10 d.exponent.toNat) <<< (-q).toNat)
    (m <<< q.toNat * Nat.pow 10 (-d.exponent).toNat)

/-- The same number with trailing zeros moved into the exponent, at most `fuel` of them. -/
def stripZeros (d : Decimal) : Nat → Decimal
  | 0 => d
  | fuel + 1 =>
    if d.digits ≠ 0 ∧ d.digits % 10 = 0 then stripZeros ⟨d.digits / 10, d.exponent + 1⟩ fuel
    else d

end Decimal

namespace FloatFormat

variable (f : FloatFormat)

/-- The decimal lies in the interval of the finite word `bits`. The ends are quarters of the unit
of the mantissa: two below it, one below it at a power of two, and two above it. -/
def identifies (bits : Nat) (d : Decimal) : Bool :=
  let (m, q) := f.magnitude bits
  let atPower := m = 1 <<< f.fractionBits ∧ f.minExponent < q
  let below := d.compareBinary (4 * m - (if atPower then 1 else 2)) (q - 2)
  let above := d.compareBinary (4 * m + 2) (q - 2)
  let closed := m % 2 = 0
  (below == .gt || (closed && below == .eq)) && (above == .lt || (closed && above == .eq))

/-- The least `k` with `m * 2 ^ q < 10 ^ k`, for positive `m`. The binary logarithm gives it up
to a step or two. -/
def decimalScale (m : Nat) (q : Int) : Int :=
  let guess := (((m.log2 : Int) + q) * 30103).fdiv 100000
  let fits (k : Int) : Bool := (Decimal.mk 1 k).compareBinary m q == .gt
  ([guess - 1, guess, guess + 1].find? fits).getD (guess + 2)

/-- The better of the two decimals around the value that have the power of ten `exponent`, if one
of them identifies it. -/
def neighbour? (bits : Nat) (exponent : Int) : Option Decimal :=
  let (m, q) := f.magnitude bits
  let num := m <<< q.toNat * Nat.pow 10 (-exponent).toNat
  let den := 1 <<< (-q).toNat * Nat.pow 10 exponent.toNat
  let lower : Decimal := ⟨num / den, exponent⟩
  let upper : Decimal := ⟨num / den + 1, exponent⟩
  match f.identifies bits lower, f.identifies bits upper with
  | true, true => some (if 2 * (num % den) < den then lower else upper)
  | true, false => some lower
  | false, true => some upper
  | false, false => none

/-- The shortest decimal of a finite word, its sign left aside. -/
def shortest (bits : Nat) : Decimal :=
  let (m, q) := f.magnitude bits
  if m = 0 then ⟨0, 0⟩
  else
    let scale := decimalScale m q
    let exact : Decimal := ⟨m <<< q.toNat * Nat.pow 5 (-q).toNat, min q 0⟩
    let found := (List.range 17).findSome? fun i => f.neighbour? bits (scale - (i + 1 : Nat))
    (found.getD exact).stripZeros 400

end FloatFormat

end Protobuf

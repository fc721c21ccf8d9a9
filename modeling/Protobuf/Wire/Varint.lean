/-!
# Varints

A varint writes a 64-bit number in base 128, least significant digit first, one digit a byte;
every byte but the last has its high bit set. Ten bytes are enough, and in the tenth only the
lowest bit is left to use.

Digits are treated as natural numbers, so that the value read is a plain sum of digits times
powers of 128 and no step can wrap around.

## Main definitions

* `Varint.encode` — the shortest varint of a number.
* `Varint.length` — how many bytes that is, computed without writing them.
* `Wire.lengthDelimited` — bytes with their count in front.
* `Varint.scan` — the varint at the front of a byte sequence.

## Main results

* `Varint.size_pos` — a varint takes at least one byte.
* `Varint.size_add_length_rest` — nothing is lost between a varint and what follows it.
-/

namespace Protobuf

namespace Varint

/-- The most bytes a varint may take. -/
def maxLength : Nat := 10

/-- The base-128 digits of `n`, least significant first, the high bit marking that more follow. -/
def digits (n : Nat) : List UInt8 :=
  if n < 128 then [n.toUInt8] else (n % 128 + 128).toUInt8 :: digits (n / 128)
termination_by n
decreasing_by omega

/-- The shortest varint of `v`. -/
def encode (v : UInt64) : List UInt8 :=
  digits v.toNat

/-- The number of bytes of the shortest varint of `v`: one for each seven significant bits begun,
and one for zero. -/
def length (v : UInt64) : Nat :=
  (v.toNat.log2 + 7) / 7

end Varint

/-- A byte count and the bytes themselves. -/
def Wire.lengthDelimited (bytes : List UInt8) : List UInt8 :=
  Varint.encode bytes.length.toUInt64 ++ bytes

namespace Varint

/-- Why no varint could be read. -/
inductive Failure where
  /-- The input ended after `read` bytes, each of which announced another. -/
  | ended (read : Nat)
  /-- The tenth byte holds more than the one bit that is left. -/
  | overflow
  deriving DecidableEq, Repr

/-- A varint at the front of a byte sequence. -/
structure Scanned where
  value : Nat
  /-- How many bytes it takes. -/
  size : Nat
  /-- The bytes after it. -/
  rest : List UInt8
  deriving DecidableEq, Repr

/-- Reads a varint whose first `read` bytes are gone already. The value is that of the digits read
here. -/
def scanFrom (read : Nat) : List UInt8 → Except Failure Scanned
  | [] => .error (.ended read)
  | b :: rest =>
    if read + 1 = maxLength ∧ 1 < b then .error .overflow
    else if b < 128 then .ok ⟨b.toNat, 1, rest⟩
    else match scanFrom (read + 1) rest with
      | .ok s => .ok ⟨b.toNat - 128 + 128 * s.value, s.size + 1, s.rest⟩
      | .error e => .error e

/-- Reads the varint at the front of `bytes`. -/
def scan (bytes : List UInt8) : Except Failure Scanned :=
  scanFrom 0 bytes

theorem size_of_scanFrom {read : Nat} {bytes : List UInt8} {s : Scanned}
    (h : scanFrom read bytes = .ok s) : 0 < s.size ∧ s.size + s.rest.length = bytes.length := by
  induction bytes generalizing read s with
  | nil => simp [scanFrom] at h
  | cons b bytes ih =>
    simp only [scanFrom] at h
    split at h
    · contradiction
    split at h
    · simp only [Except.ok.injEq] at h
      subst h
      simp [Nat.add_comm]
    split at h
    · rename_i t hscan
      have := ih hscan
      simp only [Except.ok.injEq] at h
      subst h
      simp only [List.length_cons]
      omega
    · contradiction

/-- A varint takes at least one byte. -/
theorem size_pos {bytes : List UInt8} {s : Scanned} (h : scan bytes = .ok s) : 0 < s.size :=
  (size_of_scanFrom h).1

/-- Nothing is lost between a varint and what follows it. -/
theorem size_add_length_rest {bytes : List UInt8} {s : Scanned} (h : scan bytes = .ok s) :
    s.size + s.rest.length = bytes.length :=
  (size_of_scanFrom h).2

end Varint

end Protobuf

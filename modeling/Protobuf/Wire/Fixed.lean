/-!
# Words of fixed width

Fixed-width fields and floating-point numbers travel as whole words, least significant byte
first.

## Main definitions

* `Wire.littleEndian` — the low bytes of a number, least significant first.
* `Wire.ofLittleEndian` — the number that a sequence of bytes writes.

## Main results

* `Wire.ofLittleEndian_fixed32`, `Wire.ofLittleEndian_fixed64` — a word is read back.
-/

namespace Protobuf.Wire

/-- The `width` low bytes of `n`, least significant first. -/
def littleEndian : Nat → Nat → List UInt8
  | 0, _ => []
  | width + 1, n => n.toUInt8 :: littleEndian width (n / 256)

/-- The number that `bytes` write, least significant first. -/
def ofLittleEndian (bytes : List UInt8) : Nat :=
  bytes.foldr (fun b high => b.toNat + 256 * high) 0

@[simp] theorem length_littleEndian (width n : Nat) : (littleEndian width n).length = width := by
  induction width generalizing n with
  | zero => rfl
  | succ width ih => simp [littleEndian, ih]

/-- Four bytes of a 32-bit word. -/
def fixed32 (v : UInt32) : List UInt8 :=
  littleEndian 4 v.toNat

/-- Eight bytes of a 64-bit word. -/
def fixed64 (v : UInt64) : List UInt8 :=
  littleEndian 8 v.toNat

/-- A word of 32 bits is read back. -/
theorem ofLittleEndian_fixed32 (v : UInt32) : ofLittleEndian (fixed32 v) = v.toNat := by
  have := v.toNat_lt
  simp only [fixed32, littleEndian, ofLittleEndian, List.foldr, UInt8.toNat_ofNat', Nat.toUInt8_eq]
  omega

/-- A word of 64 bits is read back. -/
theorem ofLittleEndian_fixed64 (v : UInt64) : ofLittleEndian (fixed64 v) = v.toNat := by
  have := v.toNat_lt
  simp only [fixed64, littleEndian, ofLittleEndian, List.foldr, UInt8.toNat_ofNat', Nat.toUInt8_eq]
  omega

end Protobuf.Wire

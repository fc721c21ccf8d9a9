/-!
# Ranges of integers

A number that is written down can be as large as it likes; one that is kept in a word has to lie in
the range of the word.

## Main definitions

* `IntRange` — the integers from one to another; `v ∈ r` says that `v` is one of them.
* `IntRange.int32`, `IntRange.int64`, `IntRange.uint32`, `IntRange.uint64` — the ranges of words.
-/

namespace Protobuf

/-- The integers from `lo` to `hi`, both included. -/
structure IntRange where
  lo : Int
  hi : Int
  deriving DecidableEq, Repr

namespace IntRange

instance : Membership Int IntRange :=
  ⟨fun r v => r.lo ≤ v ∧ v ≤ r.hi⟩

instance (v : Int) (r : IntRange) : Decidable (v ∈ r) :=
  inferInstanceAs (Decidable (r.lo ≤ v ∧ v ≤ r.hi))

/-- The integers of 32 bits with sign. -/
def int32 : IntRange := ⟨-0x80000000, 0x7fffffff⟩

/-- The integers of 64 bits with sign. -/
def int64 : IntRange := ⟨-0x8000000000000000, 0x7fffffffffffffff⟩

/-- The integers of 32 bits without sign. -/
def uint32 : IntRange := ⟨0, 0xffffffff⟩

/-- The integers of 64 bits without sign. -/
def uint64 : IntRange := ⟨0, 0xffffffffffffffff⟩

end IntRange

end Protobuf

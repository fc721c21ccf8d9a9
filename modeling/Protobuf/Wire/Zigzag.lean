/-!
# Zigzag numbers

A varint is short only for a number close to zero *from above*, so signed fields that expect
small negative numbers interleave the two signs first: `0, -1, 1, -2, 2, …` become
`0, 1, 2, 3, 4, …`. Both directions are a shift and an exclusive or with the spread-out sign.

## Main definitions

* `Zigzag.encode32`, `Zigzag.decode32` — between `Int32` and `UInt32`.
* `Zigzag.encode64`, `Zigzag.decode64` — between `Int64` and `UInt64`.
-/

namespace Protobuf.Zigzag

/-- The zigzag number of a 32-bit integer. The arithmetic shift by 31 spreads the sign over the
whole word, so a negative number has its doubled bits inverted. -/
def encode32 (n : Int32) : UInt32 :=
  ((n <<< 1) ^^^ (n >>> 31)).toUInt32

/-- The 32-bit integer of a zigzag number: half of it, inverted when the lowest bit is set. -/
def decode32 (u : UInt32) : Int32 :=
  (u >>> 1).toInt32 ^^^ -(u &&& 1).toInt32

/-- The zigzag number of a 64-bit integer. -/
def encode64 (n : Int64) : UInt64 :=
  ((n <<< 1) ^^^ (n >>> 63)).toUInt64

/-- The 64-bit integer of a zigzag number. -/
def decode64 (u : UInt64) : Int64 :=
  (u >>> 1).toInt64 ^^^ -(u &&& 1).toInt64

end Protobuf.Zigzag

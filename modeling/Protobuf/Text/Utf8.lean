/-!
# UTF-8

Text travels as UTF-8. Decoding walks over the bytes once and cuts them into items: characters,
and stretches of bytes that no character begins with. Two readings of the items are needed: a
strict one, which reports where and how the bytes go wrong, and a repairing one, which puts a
replacement character in the place of each bad stretch.

A bad stretch is as long as possible: it is the longest beginning of some character, or a single
byte that begins none. So after a bad stretch decoding resumes at the byte that ended it.

## Main definitions

* `Utf8.encode` — the bytes of a text.
* `Utf8.items` — bytes cut into characters and bad stretches.
* `Utf8.decode` — strict reading, with `Utf8.Fault` for bad bytes.
* `Utf8.repair` — repairing reading.
-/

namespace Protobuf.Utf8

/-- The bytes of a text. -/
def encode (s : String) : List UInt8 :=
  s.toList.flatMap String.utf8EncodeChar

/-- A character whose bytes have been read in part. -/
structure Pending where
  /-- How many bytes are still to come, at least one. -/
  need : Nat
  /-- The least byte that may come next. -/
  lo : UInt8
  /-- The greatest byte that may come next. -/
  hi : UInt8
  /-- The bits of the code point read so far. -/
  code : Nat
  /-- How many bytes have been read. -/
  taken : Nat
  deriving DecidableEq, Repr

/-- A piece of a byte sequence. -/
inductive Item where
  /-- A character. -/
  | char (c : Char)
  /-- So many bytes that begin no character. -/
  | stray (count : Nat)
  /-- The beginning of a character that the end of the input cuts off. -/
  | cut
  deriving DecidableEq, Repr

/-- What a byte begins: a character of its own, a longer character, or nothing. The bounds of the
second byte leave out spellings that are too long, surrogates, and numbers beyond the last code
point. -/
def start (b : UInt8) : Item ⊕ Pending :=
  if b < 0x80 then .inl (.char (Char.ofNat b.toNat))
  else if b < 0xC2 then .inl (.stray 1)
  else if b < 0xE0 then .inr ⟨1, 0x80, 0xBF, b.toNat % 32, 1⟩
  else if b < 0xF0 then
    .inr ⟨2, if b = 0xE0 then 0xA0 else 0x80, if b = 0xED then 0x9F else 0xBF, b.toNat % 16, 1⟩
  else if b < 0xF5 then
    .inr ⟨3, if b = 0xF0 then 0x90 else 0x80, if b = 0xF4 then 0x8F else 0xBF, b.toNat % 8, 1⟩
  else .inl (.stray 1)

/-- The item or the pending character after a byte that is a first one. -/
def begin (b : UInt8) : List Item × Option Pending :=
  match start b with
  | .inl item => ([item], none)
  | .inr p => ([], some p)

/-- One byte further: the items that it completes, and what is pending after it. -/
def step : Option Pending → UInt8 → List Item × Option Pending
  | none, b => begin b
  | some p, b =>
    if p.lo ≤ b ∧ b ≤ p.hi then
      let code := p.code * 64 + b.toNat % 64
      if p.need = 1 then ([.char (Char.ofNat code)], none)
      else ([], some ⟨p.need - 1, 0x80, 0xBF, code, p.taken + 1⟩)
    else
      let (more, pending) := begin b
      (.stray p.taken :: more, pending)

/-- The items of a byte sequence, after the bytes of a pending character. -/
def itemsFrom : Option Pending → List UInt8 → List Item
  | none, [] => []
  | some _, [] => [.cut]
  | pending, b :: rest =>
    let (done, pending) := step pending b
    done ++ itemsFrom pending rest

/-- The items of a byte sequence. -/
def items (bytes : List UInt8) : List Item :=
  itemsFrom none bytes

/-- Where and how bytes are no UTF-8. -/
inductive Fault where
  /-- So many bytes from an index on begin no character. -/
  | invalid (count index : Nat)
  /-- The character that begins at an index is cut off. -/
  | incomplete (index : Nat)
  deriving DecidableEq, Repr

/-- The wording of a fault. -/
def Fault.message : Fault → String
  | invalid count index => s!"invalid utf-8 sequence of {count} bytes from index {index}"
  | incomplete index => s!"incomplete utf-8 byte sequence from index {index}"

/-- The characters of items that begin at byte `index`, if none of them is bad. -/
def collect (index : Nat) : List Item → Except Fault (List Char)
  | [] => .ok []
  | .char c :: rest => (c :: ·) <$> collect (index + c.utf8Size) rest
  | .stray count :: _ => .error (.invalid count index)
  | .cut :: _ => .error (.incomplete index)

/-- The text of a byte sequence that is UTF-8. -/
def decode (bytes : List UInt8) : Except Fault String :=
  String.ofList <$> collect 0 (items bytes)

/-- The character that stands for bad bytes. -/
def replacement : Char := '\ufffd'

/-- The character of an item, the replacement character for a bad one. -/
def Item.repaired : Item → Char
  | char c => c
  | stray _ => replacement
  | cut => replacement

/-- The text of any byte sequence, each bad stretch replaced. -/
def repair (bytes : List UInt8) : String :=
  String.ofList ((items bytes).map Item.repaired)

end Protobuf.Utf8

import Protobuf.Wire.Fixed
import Protobuf.Wire.Key
import Protobuf.Wire.Varint

/-!
# Reading the wire format

A `Cursor` is a place in a buffer: how many bytes lie before it, and the bytes that follow. A
`Reader` moves a cursor and gives a value or says why there is none. The cursor survives a
failure, at the place where the failed read left it, so that a caller may report the place or
read on from there: a read of one item moves nothing when it fails, and a read of two items
stays behind the first when the second fails.

## Main definitions

* `Wire.Fault` — why a read fails, with its wording in `Wire.Fault.message`.
* `Cursor`, `Reader` — a place in a buffer, and an action that moves it.
* `Reader.varint`, `Reader.bytes`, `Reader.fixed32`, `Reader.fixed64`, `Reader.lengthDelimited`,
  `Reader.key` — the items of the format.

## Main results

* `Reader.key_shorter` — reading a key consumes at least one byte.
* `Reader.varint_le`, `Reader.bytes_le`, `Reader.lengthDelimited_le` — no read puts bytes back.
* `Reader.varint_consumes`, `Reader.bytes_consumes`, `Reader.lengthDelimited_consumes` — a read
  that gives a value consumes at least one byte.
-/

namespace Protobuf

/-- How deep messages and groups may nest below the outermost message. -/
def recursionLimit : Nat := 100

namespace Wire

/-- Why bytes are no well-formed item of the wire format. -/
inductive Fault where
  /-- An item needs `need` bytes, of which only `left` are there. -/
  | truncated (need left : Nat)
  /-- A varint stands for a number of more than 64 bits. -/
  | varintOverflow
  /-- A key has a wire type code that names none. -/
  | illegalWireType (code : Nat)
  /-- A key has a field number that is zero or needs more than 32 bits. -/
  | illegalFieldId (id : Nat)
  /-- Groups or messages nest too deep. -/
  | tooDeep
  /-- A group is closed by the end tag of another one. -/
  | groupMismatch (closed opened : UInt32)
  /-- A group is closed where none is open. -/
  | unexpectedEndGroup (id : UInt32)
  deriving DecidableEq, Repr

/-- The wording of a fault. -/
def Fault.message : Fault → String
  | truncated need left => s!"truncated data: need {need} bytes, have {left}"
  | varintOverflow => "invalid data: varint overflows 64 bits"
  | illegalWireType code => s!"invalid data: illegal wire type {code}"
  | illegalFieldId id => s!"invalid data: illegal field id {id}"
  | tooDeep => "invalid data: recursion limit exceeded"
  | groupMismatch closed opened =>
    s!"invalid data: end group tag {closed} does not match start group {opened}"
  | unexpectedEndGroup id => s!"invalid data: unexpected end group tag for field {id}"

end Wire

/-- A place in a buffer. -/
structure Cursor where
  /-- How many bytes lie before the place. -/
  position : Nat
  /-- The bytes from the place on. -/
  rest : List UInt8
  deriving DecidableEq, Repr

/-- The place before the first byte of `bytes`. -/
def Cursor.ofBytes (bytes : List UInt8) : Cursor :=
  ⟨0, bytes⟩

/-- How many bytes follow the place. -/
def Cursor.remaining (c : Cursor) : Nat :=
  c.rest.length

/-- Nothing follows the place. -/
def Cursor.atEnd (c : Cursor) : Bool :=
  c.rest.isEmpty

/-- An action that moves a cursor and gives a value, or a fault; either way it leaves the cursor
somewhere. -/
abbrev Reader (α : Type) := ExceptT Wire.Fault (StateM Cursor) α

namespace Reader

/-- Runs an action from a place. -/
def runAt {α : Type} (r : Reader α) (c : Cursor) : Except Wire.Fault α × Cursor :=
  (ExceptT.run r).run c

/-! ### Items

Each is given by what it does to a cursor, so that its effect can be read off. -/

/-- Reads a varint. -/
def varint : Reader UInt64 :=
  ExceptT.mk fun c =>
    match Varint.scan c.rest with
    | .ok s => (.ok s.value.toUInt64, ⟨c.position + s.size, s.rest⟩)
    | .error (.ended read) => (.error (.truncated (read + 1) read), c)
    | .error .overflow => (.error .varintOverflow, c)

/-- Reads `count` bytes. -/
def bytes (count : Nat) : Reader (List UInt8) :=
  ExceptT.mk fun c =>
    let taken := c.rest.take count
    if taken.length < count then (.error (.truncated count taken.length), c)
    else (.ok taken, ⟨c.position + count, c.rest.drop count⟩)

/-- Reads a 32-bit word. -/
def fixed32 : Reader UInt32 :=
  (fun word => (Wire.ofLittleEndian word).toUInt32) <$> bytes 4

/-- Reads a 64-bit word. -/
def fixed64 : Reader UInt64 :=
  (fun word => (Wire.ofLittleEndian word).toUInt64) <$> bytes 8

/-- Reads a byte count and that many bytes. -/
def lengthDelimited : Reader (List UInt8) := do
  let count ← varint
  bytes count.toNat

/-- The field number and the wire type that a key announces. The wire type is judged first. -/
def splitKey (key : UInt64) : Except Wire.Fault (UInt32 × WireType) :=
  match WireType.ofCode? (key &&& 7).toUInt8 with
  | none => .error (.illegalWireType (key &&& 7).toNat)
  | some w =>
    let id := key >>> 3
    if id = 0 ∨ 0xffffffff < id then .error (.illegalFieldId id.toNat)
    else .ok (id.toUInt32, w)

/-- Reads the key of a field. -/
def key : Reader (UInt32 × WireType) := do
  let k ← varint
  match splitKey k with
  | .ok field => pure field
  | .error fault => throw fault

/-! ### Reads consume -/

theorem varint_shorter {c c' : Cursor} {v : UInt64} (h : varint.runAt c = (.ok v, c')) :
    c'.rest.length < c.rest.length := by
  simp only [runAt, varint, ExceptT.run, ExceptT.mk, StateT.run] at h
  split at h
  · rename_i hscan
    rw [Prod.mk.injEq] at h
    rw [← h.2]
    have := Varint.size_pos hscan
    have := Varint.size_add_length_rest hscan
    simp only
    omega
  · simp at h
  · simp at h

theorem varint_le (c : Cursor) : (varint.runAt c).2.rest.length ≤ c.rest.length := by
  simp only [runAt, varint, ExceptT.run, ExceptT.mk, StateT.run]
  split
  · rename_i hscan
    have := Varint.size_add_length_rest hscan
    simp only
    omega
  · simp
  · simp

theorem bytes_le (count : Nat) (c : Cursor) :
    ((bytes count).runAt c).2.rest.length ≤ c.rest.length := by
  simp only [runAt, bytes, ExceptT.run, ExceptT.mk, StateT.run]
  split <;> simp

theorem runAt_bind {α β : Type} (r : Reader α) (f : α → Reader β) (c : Cursor) :
    (r >>= f).runAt c =
      match r.runAt c with
      | (.ok a, c') => (f a).runAt c'
      | (.error e, c') => (.error e, c') := by
  simp only [runAt, bind, ExceptT.bind, ExceptT.run, ExceptT.mk, StateT.bind, StateT.run,
    ExceptT.bindCont]
  rcases r c with ⟨a | e, c'⟩ <;> rfl

@[simp] theorem runAt_pure {α : Type} (a : α) (c : Cursor) :
    (pure a : Reader α).runAt c = (.ok a, c) :=
  rfl

@[simp] theorem runAt_throw {α : Type} (e : Wire.Fault) (c : Cursor) :
    (throw e : Reader α).runAt c = (.error e, c) :=
  rfl

theorem runAt_map {α β : Type} (f : α → β) (r : Reader α) (c : Cursor) :
    (f <$> r).runAt c =
      match r.runAt c with
      | (.ok a, c') => (.ok (f a), c')
      | (.error e, c') => (.error e, c') := by
  rw [← bind_pure_comp, runAt_bind]
  rcases r.runAt c with ⟨a | e, c'⟩ <;> rfl

/-- An action that consumes something whenever it gives a value. -/
def Consumes {α : Type} (r : Reader α) : Prop :=
  ∀ c a c', r.runAt c = (.ok a, c') → c'.rest.length < c.rest.length

theorem Consumes.map {α β : Type} {r : Reader α} (h : r.Consumes) (f : α → β) :
    (f <$> r).Consumes := by
  intro c b c' heq
  rw [runAt_map] at heq
  split at heq
  · rename_i a c'' hr
    rw [Prod.mk.injEq] at heq
    rw [← heq.2]
    exact h c a c'' hr
  · simp at heq

theorem varint_consumes : varint.Consumes :=
  fun _ _ _ h => varint_shorter h

theorem bytes_consumes {count : Nat} (hcount : 0 < count) : (bytes count).Consumes := by
  intro c b c' h
  simp only [runAt, bytes, ExceptT.run, ExceptT.mk, StateT.run] at h
  split at h
  · simp at h
  · rename_i hlen
    rw [Prod.mk.injEq] at h
    rw [← h.2]
    simp only [List.length_take, List.length_drop] at hlen ⊢
    omega

theorem lengthDelimited_le (c : Cursor) :
    (lengthDelimited.runAt c).2.rest.length ≤ c.rest.length := by
  rw [lengthDelimited, runAt_bind]
  have hv := varint_le c
  split
  · rename_i heq
    rw [heq] at hv
    exact Nat.le_trans (bytes_le _ _) hv
  · rename_i heq
    rw [heq] at hv
    exact hv

theorem lengthDelimited_consumes : lengthDelimited.Consumes := by
  intro c b c' h
  rw [lengthDelimited, runAt_bind] at h
  split at h
  · rename_i count c'' hv
    have hb := bytes_le count.toNat c''
    rw [h] at hb
    exact Nat.lt_of_le_of_lt hb (varint_shorter hv)
  · simp at h

/-- Reading a key consumes at least one byte. -/
theorem key_shorter {c c' : Cursor} {field : UInt32 × WireType}
    (h : key.runAt c = (.ok field, c')) : c'.rest.length < c.rest.length := by
  rw [key, runAt_bind] at h
  split at h
  · rename_i hv
    split at h
    · rw [runAt_pure, Prod.mk.injEq] at h
      rw [← h.2]
      exact varint_shorter hv
    · simp at h
  · simp at h

end Reader

end Protobuf

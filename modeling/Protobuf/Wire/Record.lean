import Protobuf.Wire.Cursor

/-!
# Records

A message on the wire is a sequence of records, each the number of a field and a payload. What a
payload means depends on the type of the field, but where it ends does not: bytes can be cut into
records without knowing what they are about, and records can be written without asking. Reading
and writing messages is therefore split in two, with records in between.

Bytes that are no sequence of records still begin with one. How the sequence stops is kept beside
it, because whoever knows the fields may have something to say about an earlier record first.

## Main definitions

* `Wire.Payload`, `Wire.Record` — what is known of a field without its type.
* `Wire.write` — the bytes of a sequence of records.
* `Wire.Stream`, `Wire.Ending` — records that were read, and how they stop.
* `Wire.readPayload` — the payload that follows a key.
* `Wire.Stream.ofBytes` — the records of a byte sequence.
* `Wire.readPacked` — the payloads that stand under one key.
* `Wire.Payload.nesting` — how deep groups nest in a payload.
* `Wire.Ending.skipFault` — what is wrong with a group that has no end, where its field is unknown.

## Implementation notes

Groups that are open while bytes are read are kept in a list, innermost first, as in skipping. So
reading is a loop, and there is no limit to the nesting here; the limit is a matter for those who
step into a group or over it.
-/

namespace Protobuf.Wire

/-- What stands after a key. -/
inductive Payload where
  | varint (v : UInt64)
  | fixed64 (v : UInt64)
  | fixed32 (v : UInt32)
  | bytes (content : List UInt8)
  /-- The records between the tags of a group. -/
  | group (records : List (UInt32 × Payload))
  deriving Inhabited

/-- The number of a field and a payload. -/
abbrev Record := UInt32 × Payload

namespace Payload

/-- The layout of a payload. -/
def wireType : Payload → WireType
  | varint _ => .varint
  | fixed64 _ => .fixed64
  | fixed32 _ => .fixed32
  | bytes _ => .lengthDelimited
  | group _ => .startGroup

end Payload

/-! ## Writing -/

/-- The bytes of a key. -/
def keyBytes (id : UInt32) (w : WireType) : List UInt8 :=
  Varint.encode (key id w)

/-- The end tag of a group; other payloads have none. -/
def closing (id : UInt32) : Payload → List UInt8
  | .group _ => keyBytes id .endGroup
  | _ => []

mutual

/-- The bytes between the key of a record and its end, or its end tag. -/
def Payload.content : Payload → List UInt8
  | .varint v => Varint.encode v
  | .fixed64 v => Wire.fixed64 v
  | .fixed32 v => Wire.fixed32 v
  | .bytes content => lengthDelimited content
  | .group records => write records

/-- The bytes of a sequence of records. -/
def write : List (UInt32 × Payload) → List UInt8
  | [] => []
  | (id, p) :: more => keyBytes id p.wireType ++ p.content ++ closing id p ++ write more

end

/-! ## Reading -/

/-- How a sequence of records stops. -/
inductive Ending where
  /-- There are no more bytes. -/
  | atEnd
  /-- An end tag that closes no group of the sequence. -/
  | closed (id : UInt32)
  | badKey (fault : Fault)
  /-- The payload of a record cannot be read. -/
  | badPayload (id : UInt32) (w : WireType) (fault : Fault)
  /-- A group has no end. Its records are there, and how they stop. -/
  | openGroup (id : UInt32) (records : List Record) (ending : Ending)

/-- Records and how they stop. -/
structure Stream where
  records : List Record
  ending : Ending

/-- Reads a payload that says by itself where it ends. The tag of a group announces none. -/
def readPlain : WireType → Reader Payload
  | .varint => .varint <$> Reader.varint
  | .fixed64 => .fixed64 <$> Reader.fixed64
  | .fixed32 => .fixed32 <$> Reader.fixed32
  | .lengthDelimited => .bytes <$> Reader.lengthDelimited
  | .startGroup => throw (.illegalWireType 3)
  | .endGroup => throw (.illegalWireType 4)

theorem readPlain_consumes (w : WireType) : (readPlain w).Consumes := by
  cases w
  · exact Reader.varint_consumes.map _
  · exact ((Reader.bytes_consumes (by decide)).map _).map _
  · exact Reader.lengthDelimited_consumes.map _
  · intro c p c' h
    simp [readPlain] at h
  · intro c p c' h
    simp [readPlain] at h
  · exact ((Reader.bytes_consumes (by decide)).map _).map _

/-- A group that is open: its number, and the records that stand before it in the group around it,
last first. -/
structure OpenGroup where
  id : UInt32
  before : List Record

/-- How records stop inside of the group `g`, and that inside of the groups `outer`, from the inside
out. The innermost group has the records `done`, last first. -/
def Ending.within (ending : Ending) (g : OpenGroup) (done : List Record) :
    (outer : List OpenGroup) → Ending
  | [] => .openGroup g.id done.reverse ending
  | g' :: outer => (Ending.openGroup g.id done.reverse ending).within g' g.before outer

/-- Reads records until the group `g` and the groups `outer` around it are closed. The innermost
group has the records `done` already, last first. The result is the outermost group. -/
def readGroups (g : OpenGroup) (outer : List OpenGroup) (done : List Record) (c : Cursor) :
    Except Ending Payload × Cursor :=
  if c.atEnd then (.error (Ending.atEnd.within g done outer), c)
  else
    match _hkey : Reader.key.runAt c with
    | (.error fault, c') => (.error ((Ending.badKey fault).within g done outer), c')
    | (.ok (id, .endGroup), c') =>
      if g.id = id then
        match outer with
        | [] => (.ok (.group done.reverse), c')
        | g' :: outer => readGroups g' outer ((g.id, .group done.reverse) :: g.before) c'
      else (.error ((Ending.closed id).within g done outer), c')
    | (.ok (id, .startGroup), c') => readGroups ⟨id, done⟩ (g :: outer) [] c'
    | (.ok (id, w), c') =>
      match _hplain : (readPlain w).runAt c' with
      | (.error fault, c'') => (.error ((Ending.badPayload id w fault).within g done outer), c'')
      | (.ok p, c'') => readGroups g outer ((id, p) :: done) c''
termination_by c.rest.length
decreasing_by
  · exact Reader.key_shorter _hkey
  · exact Reader.key_shorter _hkey
  · exact Nat.lt_trans (readPlain_consumes w _ _ _ _hplain) (Reader.key_shorter _hkey)

/-- Reads the payload of field `id`, or says how the records stop in it. -/
def readPayload (id : UInt32) (w : WireType) (c : Cursor) : Except Ending Payload × Cursor :=
  match w with
  | .startGroup => readGroups ⟨id, []⟩ [] [] c
  | w =>
    match (readPlain w).runAt c with
    | (.ok p, c') => (.ok p, c')
    | (.error fault, c') => (.error (.badPayload id w fault), c')

theorem readGroups_le {g : OpenGroup} {outer : List OpenGroup} {done : List Record} {c c' : Cursor}
    {p : Payload} (h : readGroups g outer done c = (.ok p, c')) :
    c'.rest.length ≤ c.rest.length := by
  fun_induction readGroups g outer done c with
  | case1 | case2 | case5 | case7 => simp at h
  | case3 =>
    rename_i hkey
    rw [Prod.mk.injEq] at h
    rw [← h.2]
    exact Nat.le_of_lt (Reader.key_shorter hkey)
  | case4 =>
    rename_i hkey ih
    exact Nat.le_trans (ih (by simpa using h)) (Nat.le_of_lt (Reader.key_shorter hkey))
  | case6 =>
    rename_i hkey ih
    exact Nat.le_trans (ih h) (Nat.le_of_lt (Reader.key_shorter hkey))
  | case8 =>
    rename_i hkey _ _ hplain ih
    exact Nat.le_of_lt (Nat.lt_of_le_of_lt (ih h)
      (Nat.lt_trans (readPlain_consumes _ _ _ _ hplain) (Reader.key_shorter hkey)))

theorem readPayload_le {id : UInt32} {w : WireType} {c c' : Cursor} {p : Payload}
    (h : readPayload id w c = (.ok p, c')) : c'.rest.length ≤ c.rest.length := by
  unfold readPayload at h
  split at h
  · exact readGroups_le h
  · split at h
    · rename_i hplain
      rw [Prod.mk.injEq] at h
      rw [← h.2]
      exact Nat.le_of_lt (readPlain_consumes _ _ _ _ hplain)
    · simp at h

/-- Reads records until something stops them. The records `done` have been read already, last
first. -/
def Stream.scan (done : List Record) (c : Cursor) : Stream :=
  if c.atEnd then ⟨done.reverse, .atEnd⟩
  else
    match _hkey : Reader.key.runAt c with
    | (.error fault, _) => ⟨done.reverse, .badKey fault⟩
    | (.ok (id, .endGroup), _) => ⟨done.reverse, .closed id⟩
    | (.ok (id, w), c') =>
      match _hpayload : readPayload id w c' with
      | (.error ending, _) => ⟨done.reverse, ending⟩
      | (.ok p, c'') => scan ((id, p) :: done) c''
termination_by c.rest.length
decreasing_by exact Nat.lt_of_le_of_lt (readPayload_le _hpayload) (Reader.key_shorter _hkey)

/-- The records of a byte sequence. -/
def Stream.ofBytes (bytes : List UInt8) : Stream :=
  scan [] (.ofBytes bytes)

/-- Reads the payloads of one layout that follow each other to the end of the bytes. -/
def readPacked (w : WireType) (c : Cursor) : Except Fault (List Payload) :=
  if c.atEnd then .ok []
  else
    match _hplain : (readPlain w).runAt c with
    | (.error fault, _) => .error fault
    | (.ok p, c') => (readPacked w c').map (p :: ·)
termination_by c.rest.length
decreasing_by exact readPlain_consumes w _ _ _ _hplain

/-! ## Stepping over records -/

mutual

/-- How deep groups nest in a payload. -/
def Payload.nesting : Payload → Nat
  | .group records => nestingOf records + 1
  | _ => 0

/-- How deep groups nest in records. -/
def nestingOf : List (UInt32 × Payload) → Nat
  | [] => 0
  | (_, p) :: more => max p.nesting (nestingOf more)

end

/-- What is wrong with a group that has no end, where so many levels of groups may still be begun.
Its records and how they stop are given. -/
def Ending.skipFault (levels : Nat) (opened : UInt32) (records : List Record) : Ending → Fault
  | ending =>
    if levels ≤ nestingOf records then .tooDeep
    else match ending with
      | .atEnd => .truncated 1 0
      | .closed id => .groupMismatch id opened
      | .badKey fault => fault
      | .badPayload _ _ fault => fault
      | .openGroup id records ending => ending.skipFault (levels - 1) id records

end Protobuf.Wire

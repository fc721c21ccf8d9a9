import Protobuf.Wire.Cursor

/-!
# Skipping fields

A reader that does not know a field steps over its payload. Most payloads say where they end; a
group ends at its end tag, with whole fields in between, further groups among them. The groups
that are open are kept in a list, innermost first, and the walk ends when the list is empty.

## Main definitions

* `Reader.skipAt` — steps over the payload of a field some levels below the outermost message.
* `Reader.skip` — the same at the outermost level.
-/

namespace Protobuf.Reader

/-- Steps over a payload that says by itself where it ends. A group tag has no payload. -/
def skipPlain : WireType → Reader Unit
  | .varint => discard varint
  | .fixed64 => discard (bytes 8)
  | .fixed32 => discard (bytes 4)
  | .lengthDelimited => discard lengthDelimited
  | .startGroup | .endGroup => pure ()

theorem runAt_discard {α : Type} (r : Reader α) (c : Cursor) :
    ((discard r : Reader Unit).runAt c).2 = (r.runAt c).2 := by
  simp only [discard, Functor.discard, Functor.mapConst, runAt, ExceptT.run, ExceptT.map,
    ExceptT.mk, Function.comp, StateT.run, bind, StateT.bind]
  rcases r c with ⟨a | e, c'⟩ <;> rfl

theorem skipPlain_le (w : WireType) (c : Cursor) :
    ((skipPlain w).runAt c).2.rest.length ≤ c.rest.length := by
  cases w <;> simp only [skipPlain, runAt_discard]
  · exact varint_le c
  · exact bytes_le _ c
  · exact lengthDelimited_le c
  · exact Nat.le_refl _
  · exact Nat.le_refl _
  · exact bytes_le _ c

/-- Steps over fields until every group of `opened` is closed. The outermost of them began
`depth` levels below the outermost message, so a group that begins inside all of them does so
`opened.length` levels further down. -/
def skipGroups (depth : Nat) (opened : List UInt32) (c : Cursor) :
    Except Wire.Fault Unit × Cursor :=
  match opened with
  | [] => (.ok (), c)
  | id :: outer =>
    match _hkey : key.runAt c with
    | (.error e, c') => (.error e, c')
    | (.ok (inner, .endGroup), c') =>
      if inner = id then skipGroups depth outer c'
      else (.error (.groupMismatch inner id), c')
    | (.ok (inner, .startGroup), c') =>
      if recursionLimit ≤ depth + opened.length then (.error .tooDeep, c')
      else skipGroups depth (inner :: id :: outer) c'
    | (.ok (_, w), c') =>
      match _hskip : (skipPlain w).runAt c' with
      | (.error e, c'') => (.error e, c'')
      | (.ok (), c'') => skipGroups depth (id :: outer) c''
termination_by c.rest.length
decreasing_by
  · exact key_shorter _hkey
  · exact key_shorter _hkey
  · have hle := skipPlain_le w c'
    rw [_hskip] at hle
    exact Nat.lt_of_le_of_lt hle (key_shorter _hkey)

/-- Steps over the payload of field `id`, found `depth` levels below the outermost message. -/
def skipAt (id : UInt32) (w : WireType) (depth : Nat) : Reader Unit :=
  match w with
  | .startGroup =>
    if recursionLimit ≤ depth then throw .tooDeep
    else ExceptT.mk (skipGroups depth [id])
  | .endGroup => throw (.unexpectedEndGroup id)
  | w => skipPlain w

/-- Steps over the payload of a field of the outermost message. -/
def skip (id : UInt32) (w : WireType) : Reader Unit :=
  skipAt id w 0

end Protobuf.Reader

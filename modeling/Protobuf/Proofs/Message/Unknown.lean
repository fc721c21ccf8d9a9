import Protobuf.Proofs.Message.Change
import Protobuf.Proofs.Registry.Loaded
import Protobuf.Proofs.Wire.Skip

/-!
# Unknown fields

A record of a field that the type of a message does not know can be put between other records, and
nothing that is decoded changes. This is so whatever stands behind the record: bytes that are no
message at all are refused for the same reason, with the same byte counts and the same notes.

## Main results

* `Decoding.messageWith_keep` — a record that changes nothing can be left out
* `Message.decode_append_unknown` — nor do unknown fields change what is decoded
-/

namespace Protobuf

namespace Decoding

variable {inner : Inner} {levels : Nat} {t : MessageType}

theorem change_of_unknown {id : UInt32} {p : Wire.Payload} (hid : t.fieldById? id = none)
    (hp : p.nesting ≤ levels) : change inner levels t (id, p) = pure .keep := by
  rw [change, hid, pass, if_pos hp]
  rfl

/-- A record that changes nothing can be left out. -/
theorem messageWith_keep {r : Wire.Record} (hr : change inner levels t r = pure .keep)
    (before after : List Wire.Record) (ending : Wire.Ending) :
    messageWith inner levels t ⟨before ++ r :: after, ending⟩ =
      messageWith inner levels t ⟨before ++ after, ending⟩ := by
  have hfold : ∀ (cs cs' : List Change) (m : Message),
      (cs ++ Change.keep :: cs').foldl Change.apply m = (cs ++ cs').foldl Change.apply m := by
    intro cs cs' m
    rw [List.foldl_append, List.foldl_append, List.foldl_cons]
    rfl
  simp only [messageWith_eq, List.mapM_append, List.mapM_cons, hr, pure_bind, bind_assoc, hfold]

end Decoding

namespace Message

variable {t : MessageType}

/-- The records of bytes that are read as a message end where the bytes end. -/
theorem IsReadFrom.ending {m : Message} {bytes : List UInt8} (h : m.IsReadFrom t bytes) :
    (Wire.Stream.ofBytes bytes).ending = .atEnd := by
  obtain ⟨noted, hrun⟩ := isReadFrom_iff.mp h
  exact (Decoding.message_eq_ok.mp hrun).1

/-- Bytes that are a key and what is skipped behind it are a record. -/
theorem exists_spells_of_skip {u : List UInt8} {id : UInt32} {w : WireType} {cu c' : Cursor}
    (hkey : Reader.key.runAt (.ofBytes u) = (.ok (id, w), cu))
    (hskip : (Reader.skip id w).runAt cu = (.ok (), c')) (hend : c'.rest = []) :
    ∃ p, Wire.Spells u (id, p) ∧ p.nesting ≤ recursionLimit := by
  obtain ⟨k, hu, hk⟩ := Reader.local_key.takes hkey
  obtain ⟨p, hpayload, hnesting⟩ := Wire.readPayload_of_skipAt hskip
  obtain ⟨body, hbody, hp⟩ := (Wire.local_readPayload id w).takes hpayload
  have hopens : w ≠ .endGroup := by
    rintro rfl
    cases hskip
  have hspells := Wire.Spells.intro hk hopens hp
  rw [hend, List.append_nil] at hbody
  rw [← hbody, ← hu] at hspells
  exact ⟨p, hspells, hnesting⟩

/-- A field that the type does not know, between bytes that are read as a message and any others,
makes no difference to what is decoded. -/
theorem decode_append_unknown {m : Message} {a u : List UInt8} {id : UInt32} {w : WireType}
    {cu c' : Cursor} (ha : m.IsReadFrom t a)
    (hkey : Reader.key.runAt (.ofBytes u) = (.ok (id, w), cu)) (hid : t.fieldById? id = none)
    (hskip : (Reader.skip id w).runAt cu = (.ok (), c')) (hend : c'.rest = [])
    (c : List UInt8) : decode t (a ++ u ++ c) = decode t (a ++ c) := by
  obtain ⟨p, hspells, hnesting⟩ := exists_spells_of_skip hkey hskip hend
  have hchange : Decoding.change (Decoding.below recursionLimit) recursionLimit t (id, p) =
      pure .keep := Decoding.change_of_unknown hid hnesting
  have hmessage : Decoding.message recursionLimit t (.ofBytes (a ++ u ++ c)) =
      Decoding.message recursionLimit t (.ofBytes (a ++ c)) := by
    rw [List.append_assoc, Wire.Stream.ofBytes_append ha.ending,
      Wire.Stream.ofBytes_append ha.ending, Wire.Stream.ofBytes_spells hspells,
      Decoding.message_eq, Decoding.messageWith_keep hchange]
  rw [decode, decode, hmessage]

/-- A group with another one in it is stepped over, and the bytes behind it are refused as if it
was not there. -/
theorem decode_append_unknown_group :
    decode ⟨⟨.tree false, 1⟩⟩ [8, 5] = .ok ⟨⟨⟨.tree false, 1⟩⟩, [(2, .atom (.i32 5))]⟩ ∧
      decode ⟨⟨.tree false, 1⟩⟩ ([8, 5] ++ [27, 35, 40, 1, 36, 28] ++ [8]) =
        decode ⟨⟨.tree false, 1⟩⟩ ([8, 5] ++ [8]) := by
  have ha : decode ⟨⟨.tree false, 1⟩⟩ [8, 5] =
      .ok ⟨⟨⟨.tree false, 1⟩⟩, [(2, .atom (.i32 5))]⟩ := by
    cbv
  have hkey : Reader.key.runAt (.ofBytes [27, 35, 40, 1, 36, 28]) =
      (.ok (3, .startGroup), ⟨1, [35, 40, 1, 36, 28]⟩) := by
    rfl
  have hskip : (Reader.skip 3 .startGroup).runAt ⟨1, [35, 40, 1, 36, 28]⟩ =
      (.ok (), ⟨6, []⟩) := by
    cbv
  exact ⟨ha, decode_append_unknown (.inl ha) hkey rfl hskip rfl [8]⟩

end Message

end Protobuf

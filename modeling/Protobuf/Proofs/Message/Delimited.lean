import Protobuf.Proofs.Message.RoundTrip
import Protobuf.Proofs.Wire.Extent

/-!
# Frames

A frame is a message with the count of its bytes in front. Frames are read from bytes that arrive
little by little, so there are three ways out: the bytes begin with a frame, they begin with
something that no more bytes can make one, or more bytes are needed. The first of them is decided by
the bytes of the frame alone, and with fewer bytes than that it is always the third.

## Main definitions

* `Message.BeginsWithFrame` — a frame of so many bytes stands at the front.
* `Message.Delivered` — the frame of a message that can be read back.

## Main results

* `Message.BeginsWithFrame.exists_body` — a frame is a count, however it is written, and a body
* `Message.decodeFrames_append` — the first frame is read, and then the others
* `Message.decodeDelimited_stream` — frames are cut out of a stream where they were put together
-/

namespace Protobuf

/-! ### Counts that are not whole -/

/-- With the last digit still to come, a varint has not ended. -/
theorem Varint.scanFrom_take {read : Nat} {bytes : List UInt8} {s : Scanned}
    (h : scanFrom read bytes = .ok s) {k : Nat} (hk : k < s.size) :
    ∃ read', scanFrom read (bytes.take k) = .error (.ended read') := by
  induction bytes generalizing read s k with
  | nil => cases h
  | cons b more ih =>
    cases k with
    | zero => exact ⟨read, rfl⟩
    | succ k =>
      rw [scanFrom] at h
      rw [List.take_succ_cons, scanFrom]
      split at h
      · cases h
      rename_i hroom
      rw [if_neg hroom]
      split at h
      · cases h
        exact absurd hk (Nat.not_lt.mpr (Nat.le_add_left 1 k))
      · rename_i hmore
        rw [if_neg hmore]
        split at h
        · rename_i s' hscan
          cases h
          obtain ⟨read', hread⟩ := ih hscan (Nat.lt_of_succ_lt_succ hk)
          exact ⟨read', by rw [hread]⟩
        · cases h

theorem Reader.varint_take {v : List UInt8} {count : UInt64} (h : varint.Reads v count) {k : Nat}
    (hk : k < v.length) : ∃ need left, varint.runAt (.ofBytes (v.take k)) =
      (.error (.truncated need left), .ofBytes (v.take k)) := by
  have hrun := h 0 []
  simp only [runAt, varint, ExceptT.run, ExceptT.mk, StateT.run, List.append_nil,
    Nat.zero_add] at hrun ⊢
  split at hrun
  · rename_i s hscan
    have hsize : s.size = v.length := by
      simpa using congrArg (fun r => r.2.position) hrun
    obtain ⟨read, hread⟩ := Varint.scanFrom_take hscan (hsize ▸ hk)
    refine ⟨read + 1, read, ?_⟩
    rw [Cursor.ofBytes, Varint.scan, hread]
  · cases hrun
  · cases hrun

namespace Message

variable {t : MessageType} {bytes : List UInt8} {consumed : Nat}

/-! ### The frame at the front -/

/-- What has been decoded from the body of a frame of so many bytes. -/
def inFrame (consumed : Nat) :
    Except DecodeError Message → Except DecodeError (Option (Message × Nat))
  | .ok m => .ok (some (m, consumed))
  | .error (.missingRequired missing m _) => .error (.missingRequired missing m (some consumed))
  | .error e => .error e

/-- Behind the count, only the number of bytes is asked for. -/
theorem decodeDelimited_append {v : List UInt8} {count : UInt64}
    (h : Reader.varint.Reads v count) (t : MessageType) (rest : List UInt8) :
    decodeDelimited t (v ++ rest) =
      if rest.length < count.toNat then .ok none
      else inFrame (v.length + count.toNat) (decode t (rest.take count.toNat)) := by
  have hrun := h 0 rest
  rw [Nat.zero_add] at hrun
  rw [decodeDelimited, Cursor.ofBytes, hrun]
  refine if_congr Iff.rfl rfl ?_
  dsimp only
  rcases decode t (rest.take count.toNat) with e | m
  · cases e <;> rfl
  · rfl

/-- The bytes begin with a frame of so many bytes, though the message in it may lack required
fields. -/
def BeginsWithFrame (t : MessageType) (bytes : List UInt8) (consumed : Nat) : Prop :=
  (∃ m, decodeDelimited t bytes = .ok (some (m, consumed))) ∨
    ∃ missing m, decodeDelimited t bytes = .error (.missingRequired missing m (some consumed))

theorem eq_of_inFrame {size : Nat} {r : Except DecodeError Message}
    (h : (∃ m, inFrame size r = .ok (some (m, consumed))) ∨
      ∃ missing m, inFrame size r = .error (.missingRequired missing m (some consumed))) :
    consumed = size := by
  rcases r with e | m
  · cases e <;> simp [inFrame] at h ⊢
    exact h.symm
  · simpa [inFrame, eq_comm] using h

/-- A frame is a count and so many bytes. -/
theorem BeginsWithFrame.exists_body (h : BeginsWithFrame t bytes consumed) :
    ∃ v count body rest, Reader.varint.Reads v count ∧ body.length = count.toNat ∧
      bytes = v ++ body ++ rest ∧ consumed = (v ++ body).length := by
  have hcount : ∃ count c, Reader.varint.runAt (.ofBytes bytes) = (.ok count, c) := by
    rw [BeginsWithFrame, decodeDelimited] at h
    split at h
    · simp at h
    · simp at h
    · exact ⟨_, _, ‹_›⟩
  obtain ⟨count, c, hrun⟩ := hcount
  obtain ⟨v, hbytes, hreads⟩ := Reader.local_varint.takes hrun
  rw [Cursor.ofBytes] at hbytes
  dsimp only at hbytes
  subst hbytes
  rw [BeginsWithFrame, decodeDelimited_append hreads] at h
  split at h
  · simp at h
  · rename_i hwhole
    refine ⟨v, count, c.rest.take count.toNat, c.rest.drop count.toNat, hreads, ?_, ?_, ?_⟩
    · exact List.length_take_of_le (Nat.not_lt.mp hwhole)
    · rw [List.append_assoc, List.take_append_drop]
    · rw [List.length_append, List.length_take_of_le (Nat.not_lt.mp hwhole)]
      exact eq_of_inFrame h

/-- Frames are not empty. -/
theorem BeginsWithFrame.pos (h : BeginsWithFrame t bytes consumed) : 0 < consumed := by
  obtain ⟨v, count, body, rest, hv, -, -, rfl⟩ := h.exists_body
  have := List.length_pos_iff.mpr (hv.ne_nil Reader.varint_consumes)
  rw [List.length_append]
  omega

/-- What a frame gives is decided by its own bytes, and there is nothing without the last of them. -/
theorem BeginsWithFrame.decided (h : BeginsWithFrame t bytes consumed) :
    consumed ≤ bytes.length ∧
      (∀ more, decodeDelimited t (bytes.take consumed ++ more) = decodeDelimited t bytes) ∧
      ∀ k < consumed, decodeDelimited t (bytes.take k) = .ok none := by
  obtain ⟨v, count, body, rest, hv, hbody, rfl, rfl⟩ := h.exists_body
  have hframe : ∀ more, decodeDelimited t (v ++ body ++ more) =
      inFrame (v.length + count.toNat) (decode t body) := by
    intro more
    rw [List.append_assoc, decodeDelimited_append hv, ← hbody, List.take_left,
      if_neg (by rw [List.length_append]; omega)]
  refine ⟨by simp, fun more => ?_, fun k hk => ?_⟩
  · rw [List.take_left, hframe, hframe]
  · rw [List.take_append_of_le_length (Nat.le_of_lt hk)]
    by_cases hshort : k < v.length
    · obtain ⟨need, left, hrun⟩ := Reader.varint_take hv hshort
      rw [List.take_append_of_le_length (Nat.le_of_lt hshort), decodeDelimited, hrun]
    · rw [List.length_append] at hk
      rw [List.take_append, List.take_of_length_le (Nat.not_lt.mp hshort),
        decodeDelimited_append hv, if_pos]
      rw [List.length_take]
      omega

/-! ### Frames one after the other -/

/-- There is never a need for more frames than there are bytes. -/
theorem decodeFramesWithin_congr {fuel fuel' : Nat} (h : bytes.length ≤ fuel)
    (h' : bytes.length ≤ fuel') :
    decodeFramesWithin t fuel bytes = decodeFramesWithin t fuel' bytes := by
  have hempty : ∀ fuel, decodeFramesWithin t fuel [] = .ok ([], []) := by
    intro fuel
    cases fuel <;> rfl
  induction fuel generalizing fuel' bytes with
  | zero => rw [List.length_eq_zero_iff.mp (Nat.le_zero.mp h), hempty, hempty]
  | succ fuel ih =>
    cases fuel' with
    | zero => rw [List.length_eq_zero_iff.mp (Nat.le_zero.mp h'), hempty, hempty]
    | succ fuel' =>
      rw [decodeFramesWithin, decodeFramesWithin]
      rcases hfirst : decodeDelimited t bytes with e | _ | ⟨m, consumed⟩
      · rfl
      · rfl
      · have hpos : 0 < consumed := BeginsWithFrame.pos (.inl ⟨m, hfirst⟩)
        have hmore : decodeFramesWithin t fuel (bytes.drop consumed) =
            decodeFramesWithin t fuel' (bytes.drop consumed) := by
          apply ih <;> rw [List.length_drop] <;> omega
        show (decodeFramesWithin t fuel _ >>= _) = (decodeFramesWithin t fuel' _ >>= _)
        rw [hmore]

/-- The first frame is read, and then the others. -/
theorem decodeFrames_append {frame : List UInt8} {m : Message}
    (h : decodeDelimited t frame = .ok (some (m, frame.length))) (rest : List UInt8) :
    decodeFrames t (frame ++ rest) =
      (decodeFrames t rest).map fun more => (m :: more.1, more.2) := by
  have hframe : BeginsWithFrame t frame frame.length := .inl ⟨m, h⟩
  have hfirst : decodeDelimited t (frame ++ rest) = .ok (some (m, frame.length)) := by
    have hdecided := hframe.decided.2.1 rest
    rwa [List.take_length, h] at hdecided
  have hpos := hframe.pos
  obtain ⟨fuel, hfuel⟩ : ∃ fuel, (frame ++ rest).length = fuel + 1 :=
    Nat.exists_eq_succ_of_ne_zero (by rw [List.length_append]; omega)
  have hmore : decodeFramesWithin t fuel rest = decodeFrames t rest := by
    refine decodeFramesWithin_congr ?_ (Nat.le_refl _)
    rw [List.length_append] at hfuel
    omega
  rw [decodeFrames, hfuel, decodeFramesWithin, hfirst]
  show decodeFramesWithin t fuel ((frame ++ rest).drop frame.length) >>= _ = _
  rw [List.drop_left, hmore]
  rcases decodeFrames t rest with e | ⟨more, last⟩ <;> rfl

/-! ### Messages that are written in frames -/

variable {S : Snapshot} {m : Message} {e : Encoding}

/-- The frame is that of a message of a type that can be read back: the message has been made
without unchecked changes, it does not nest too deep, no required field is absent, and the frame
fits into memory. -/
structure Delivered (S : Snapshot) (t : MessageType) (m : Message) (frame : List UInt8) : Prop where
  type : m.type = t
  made : m.Made S
  depth : m.depth ≤ recursionLimit
  encode : m.encodeDelimited = .ok frame
  fits : Wire.Addressable frame

/-- A message is read from its frame. -/
theorem Delivered.decode {frame : List UInt8} (hS : S.Loaded) (h : Delivered S t m frame) :
    ∃ m', decodeDelimited t frame = .ok (some (m', frame.length)) ∧ m' == m.normal := by
  have hg := hS.linked
  have htyped := h.made.wellTyped hg
  obtain ⟨e, he⟩ := htyped.exists_sent hg
  have hencode := h.encode
  rw [encodeDelimited, he.encodeFramed_eq] at hencode
  split at hencode
  · rename_i hmissing
    cases hencode
    have hfits : e.bytes.length < 2 ^ 64 := by
      have hframe : (Wire.lengthDelimited e.bytes).length < 2 ^ 64 := h.fits
      rw [Wire.lengthDelimited, List.length_append] at hframe
      omega
    have hall := he.missing_eq_nil_iff.mp (List.isEmpty_iff.mp hmissing)
    have hbody : Message.decode t e.bytes = .ok m.canonical := by
      rw [← h.type]
      exact he.decode_eq_ok hfits h.depth fun n hn => (List.append_eq_nil_iff.mp (hall n hn)).1
    refine ⟨m.canonical, ?_, htyped.same_canonical_normal hg⟩
    have hcount : e.bytes.length.toUInt64.toNat = e.bytes.length := by
      rw [Nat.toUInt64_eq, UInt64.toNat_ofNat', Nat.mod_eq_of_lt hfits]
    rw [Wire.lengthDelimited, decodeDelimited_append (Reader.reads_varint _), hcount,
      if_neg (Nat.lt_irrefl _), List.take_length, hbody, List.length_append]
    rfl
  · cases hencode

/-- Messages are read from their frames, one after the other, and nothing is left. -/
theorem decodeFrames_flatten (hS : S.Loaded) {ms : List Message} {frames : List (List UInt8)}
    (h : List.Forall₂ (Delivered S t) ms frames) :
    ∃ ms', decodeFrames t frames.flatten = .ok (ms', []) ∧
      List.Forall₂ (fun m m' => m' == m.normal) ms ms' := by
  induction h with
  | nil => exact ⟨[], rfl, .nil⟩
  | @cons m frame ms frames hm _ ih =>
    obtain ⟨m', hfirst, hsame⟩ := hm.decode hS
    obtain ⟨ms', hmore, hall⟩ := ih
    refine ⟨m' :: ms', ?_, .cons hsame hall⟩
    rw [List.flatten_cons, decodeFrames_append hfirst, hmore]
    rfl

/-- A frame that has been read is decided by its own bytes, whatever stands behind it, and with
fewer bytes more are asked for. So a stream of frames is cut where the frames were put together. -/
theorem decodeDelimited_stream (t : MessageType) :
    (∀ bytes consumed, BeginsWithFrame t bytes consumed →
      consumed ≤ bytes.length ∧
        (∀ more, decodeDelimited t (bytes.take consumed ++ more) = decodeDelimited t bytes) ∧
        ∀ k < consumed, decodeDelimited t (bytes.take k) = .ok none) ∧
      ∀ S : Snapshot, S.Loaded → ∀ ms frames, List.Forall₂ (Delivered S t) ms frames →
        ∃ ms', decodeFrames t frames.flatten = .ok (ms', []) ∧
          List.Forall₂ (fun m m' => m' == m.normal) ms ms' :=
  ⟨fun _ _ h => h.decided, fun _ hS _ _ h => decodeFrames_flatten hS h⟩

/-- A frame whose count is written in two bytes, and two frames one after the other. -/
theorem decodeDelimited_stream_branch :
    BeginsWithFrame (branch false).type [130, 0, 8, 5, 7] 4 ∧
      decodeDelimited (branch false).type [130, 0, 8] = .ok none ∧
      ∃ ms', decodeFrames (branch false).type [4, 8, 5, 18, 0, 4, 8, 5, 18, 0] = .ok (ms', []) ∧
        List.Forall₂ (fun m m' => m' == m.normal) [branch false, branch false] ms' := by
  have hframe : BeginsWithFrame (branch false).type [130, 0, 8, 5, 7] 4 :=
    .inl ⟨⟨(branch false).type, [(2, .atom (.i32 5))]⟩, by cbv⟩
  have hdelivered : Delivered (.tree false) (branch false).type (branch false) [4, 8, 5, 18, 0] :=
    { type := rfl
      made := made_branch false
      depth := by decide_cbv
      encode := by decide +kernel
      fits := by rw [Wire.Addressable]; decide }
  have hstream := decodeDelimited_stream (branch false).type
  exact ⟨hframe, (hstream.1 _ _ hframe).2.2 3 (by decide),
    hstream.2 (.tree false) (Snapshot.loaded_tree false) _ _
      (.cons hdelivered (.cons hdelivered .nil))⟩

end Message

end Protobuf

import Protobuf.Proofs.Message.Change
import Protobuf.Proofs.Registry.Loaded
import Protobuf.Proofs.Wire.Skip

/-!
# Readers in lockstep

Records are cut out of the bytes before anything is known of their fields, so a reader for messages
can be told as a loop over places: it reads a key, takes the payload of that field into the message,
and goes on behind it. A field that is not known is skipped. Knowing a field is not the same as
skipping it, since the message in a group is read with a type of its own, and the limit to nesting
is met at its begin and not at the begin of the groups inside. Still both stop at the same place.
So readers that know different fields read their keys at the same places.

## Main definitions

* `Decoding.readField` — takes the payload at a place into a message.
* `Decoding.readFields` — does so with all fields up to the end of the bytes.
* `Decoding.Walks` — a reader that takes some fields and skips the others, with its places.

## Main results

* `Decoding.message_eq_readFields`, `Decoding.readFields_eq` — reading a message is that loop
* `Decoding.yields_message_nesting` — groups nest in what is read no deeper than is allowed
* `Decoding.lockstep` — a field that is read can be skipped, and readers go in lockstep
-/

namespace Protobuf

theorem Wire.Payload.nesting_eq_zero {p : Payload} (h : ∀ records, p ≠ .group records) :
    p.nesting = 0 := by
  cases p with
  | group records => exact absurd rfl (h records)
  | _ => rw [nesting]; simp

theorem FieldType.ofPayload_group (t : FieldType) (records : List Wire.Record) :
    t.ofPayload (.group records) = .error .layout := by
  cases t with
  | scalar s => cases s <;> rfl
  | _ => rfl

/-! ### Places between records -/

/-- Records that lie from a place to the end of the bytes, or to the end tag of the group `close`.
The `stops` are the places behind the records, and behind the end tag. -/
inductive Wire.Lies (close : Option UInt32) : Cursor → List Cursor → List Record → Prop
  | atEnd {c : Cursor} (open_ : close = none) (h : c.atEnd = true) : Lies close c [] []
  | closed {c c₁ : Cursor} {id : UInt32} (opened : close = some id)
      (key : Reader.key.runAt c = (.ok (id, .endGroup), c₁)) : Lies close c [c₁] []
  | record {c c₁ c₂ : Cursor} {id : UInt32} {w : WireType} {p : Payload} {stops : List Cursor}
      {records : List Record} (key : Reader.key.runAt c = (.ok (id, w), c₁))
      (payload : readPayload id w c₁ = (.ok p, c₂)) (more : Lies close c₂ stops records) :
      Lies close c (c₂ :: stops) ((id, p) :: records)

namespace Wire

/-- The records of a message lie one after the other. -/
theorem exists_lies_of_scan {done : List Record} {c : Cursor}
    (h : (Stream.scan done c).ending = .atEnd) :
    ∃ stops more, (Stream.scan done c).records = done.reverse ++ more ∧ Lies none c stops more := by
  fun_induction Stream.scan done c with
  | case1 done c hend => exact ⟨[], [], (List.append_nil _).symm, .atEnd rfl hend⟩
  | case2 | case3 => cases h
  | case4 done c _ id w c₁ _ hkey ending c₂ hpayload =>
    exact absurd h (ne_atEnd_of_readPayload hpayload)
  | case5 done c _ id w c₁ _ hkey p c₂ hpayload ih =>
    obtain ⟨stops, more, hrecords, hmore⟩ := ih h
    refine ⟨c₂ :: stops, (id, p) :: more, ?_, .record hkey hpayload hmore⟩
    rw [hrecords, List.reverse_cons, List.append_assoc, List.singleton_append]

/-- So do those of a group. -/
theorem exists_lies_of_readGroups {id : UInt32} {done : List Record} {c c' : Cursor} {p : Payload}
    (h : readGroups ⟨id, []⟩ [] done c = (.ok p, c')) :
    ∃ stops more, p = .group (done.reverse ++ more) ∧ stops.getLast? = some c' ∧
      Lies (some id) c stops more := by
  induction hn : c.rest.length using Nat.strongRecOn generalizing done c with
  | ind n ih =>
    subst hn
    have hread := h
    rw [readGroups_eq] at hread
    split at hread
    · cases hread
    · rw [Run.andThen] at hread
      split at hread
      · cases hread
      · rename_i field c₁ hkey
        obtain ⟨i, w⟩ := field
        by_cases hend : w = .endGroup
        · subst hend
          simp only [readInside] at hread
          split at hread
          · rename_i hid
            cases hread
            exact ⟨[c'], [], by rw [List.append_nil], rfl, .closed (congrArg some hid) hkey⟩
          · cases hread
        · -- whatever lies in a record, a group or not, it is one record of this group
          rw [readGroups_of_payload hkey hend, Run.andThen] at h
          split at h
          · cases h
          · rename_i q c₂ hpayload
            have hlt : c₂.rest.length < c.rest.length :=
              Nat.lt_of_le_of_lt (readPayload_le hpayload) (Reader.key_shorter hkey)
            obtain ⟨stops, more, rfl, hlast, hmore⟩ := ih _ hlt h rfl
            refine ⟨c₂ :: stops, (i, q) :: more, ?_, ?_, .record hkey hpayload hmore⟩
            · rw [List.reverse_cons, List.append_assoc, List.singleton_append]
            · cases stops with
              | nil => cases hlast
              | cons c₃ stops => rw [List.getLast?_cons_cons, hlast]

end Wire

namespace Decoding

variable {inner : Inner} {levels depth : Nat} {t : MessageType}

/-! ### How deep groups nest in what is read -/

/-- In what the reader accepts, groups nest less deep than so many levels. -/
def Bounded (levels : Nat) (inner : Inner) : Prop :=
  ∀ t stream, Yields (inner t stream) fun _ => Wire.nestingOf stream.records < levels

theorem yields_of_plain {α : Type} {p : Wire.Payload} (hp : ∀ records, p ≠ .group records)
    (q : Decoding α) : Yields q fun _ => p.nesting ≤ levels := by
  refine Yields.trivial.mono fun _ _ => ?_
  rw [Wire.Payload.nesting_eq_zero hp]
  exact Nat.zero_le _

theorem yields_value_nesting (hinner : Bounded levels inner) (s : Slot) (p : Wire.Payload) :
    Yields (value inner t s p) fun _ => p.nesting ≤ levels := by
  cases p with
  | group records =>
    have hatom : Yields (Value.atom <$> atom s (.group records)) fun _ =>
        (Wire.Payload.group records).nesting ≤ levels := by
      rw [atom, FieldType.ofPayload_group]
      exact (Yields.throw _).map
    unfold value
    cases s.type with
    | group node =>
      refine ((hinner _ _).mono fun _ h => ?_).map
      rw [Wire.Payload.nesting]
      exact h
    | _ => exact hatom
  | _ => exact yields_of_plain (by simp) _

theorem yields_fieldChange_nesting (hinner : Bounded levels inner) (f : NodeId) (s : Slot)
    (p : Wire.Payload) : Yields (fieldChange inner levels t f s p) fun _ => p.nesting ≤ levels := by
  rw [fieldChange]
  refine Yields.andThen fun _ => ?_
  cases p with
  | bytes content => exact yields_of_plain (by simp) _
  | _ =>
    cases s.shape with
    | map key => exact Yields.throw _
    | _ => exact (yields_value_nesting hinner s _).bind fun _ h => Yields.pure h

theorem yields_change_nesting (hinner : Bounded levels inner) (r : Wire.Record) :
    Yields (change inner levels t r) fun _ => r.2.nesting ≤ levels := by
  obtain ⟨id, p⟩ := r
  rw [change]
  split
  · exact Yields.andThen fun s => yields_fieldChange_nesting hinner _ s p
  · rw [pass]
    split
    · rename_i hp
      exact Yields.trivial.mono fun _ _ => hp
    · exact (Yields.throw _).bind (P := fun _ => False) fun _ h => h.elim

theorem yields_changes_nesting (hinner : Bounded levels inner) (records : List Wire.Record) :
    Yields (records.mapM (change inner levels t)) fun _ => Wire.nestingOf records ≤ levels := by
  induction records with
  | nil => exact Yields.trivial.mono fun _ _ => Nat.zero_le _
  | cons r more ih =>
    rw [List.mapM_cons, Wire.nestingOf_cons]
    refine (yields_change_nesting hinner r).bind fun _ hr => ih.bind fun _ hmore => ?_
    exact Yields.pure (max_le hr hmore)

theorem yields_messageWith_nesting (hinner : Bounded levels inner) (stream : Wire.Stream) :
    Yields (messageWith inner levels t stream) fun _ => Wire.nestingOf stream.records ≤ levels := by
  rw [messageWith_eq]
  exact (yields_changes_nesting hinner _).bind fun _ h => Yields.trivial.mono fun _ _ => h

/-- Groups nest in the records of a message no deeper than is allowed below it. -/
theorem yields_message_nesting (levels : Nat) (t : MessageType) (stream : Wire.Stream) :
    Yields (message levels t stream) fun _ => Wire.nestingOf stream.records ≤ levels := by
  induction levels generalizing t stream with
  | zero => exact yields_messageWith_nesting (fun _ _ => Yields.throw _) stream
  | succ levels ih =>
    refine yields_messageWith_nesting (fun t stream => ?_) stream
    exact (ih t stream).mono fun _ h => Nat.lt_succ_of_le h

theorem bounded_below (levels : Nat) : Bounded levels (below levels) := by
  cases levels with
  | zero => exact fun _ _ => Yields.throw _
  | succ levels =>
    exact fun t stream => (yields_message_nesting levels t stream).mono fun _ => Nat.lt_succ_of_le

/-! ### Fields at places -/

/-- Takes the payload at a place, that of the field `id`, into a message that lies `depth` levels
below the outermost one. The place behind the payload goes along with the message. -/
def readField (depth : Nat) (m : Message) (id : UInt32) (w : WireType) (c : Cursor) :
    Decoding (Message × Cursor) :=
  let levels := recursionLimit - depth
  match Wire.readPayload id w c with
  | (.ok p, c') => (·, c') <$> record (below levels) levels m (id, p)
  | (.error ending, c') =>
    (fun _ => (m, c')) <$> finish (below levels) levels m.type (known m.type)
      (fun id => throw (.unexpectedEndGroup id)) ending

section

variable {m m' : Message} {id : UInt32} {w : WireType} {c c' : Cursor} {noted noted' : List String}

theorem readField_eq_ok : (readField depth m id w c).run noted = .ok ((m', c'), noted') ↔
    ∃ p, Wire.readPayload id w c = (.ok p, c') ∧
      (record (below (recursionLimit - depth)) (recursionLimit - depth) m (id, p)).run noted =
        .ok (m', noted') := by
  rw [readField]
  rcases hpayload : Wire.readPayload id w c with ⟨ending | p, c₁⟩
  · simp only [Prod.mk.injEq, reduceCtorEq, false_and, exists_false, iff_false]
    intro h
    rw [StateT.run_map] at h
    obtain ⟨⟨_, noted₁⟩, hfinish, -⟩ := map_eq_ok.mp h
    exact Wire.ne_atEnd_of_readPayload hpayload
      (yields_finish _ (fun _ => Yields.throw _) ending _ _ _ hfinish)
  · dsimp only
    rw [StateT.run_map]
    constructor
    · intro h
      obtain ⟨⟨m₁, noted₁⟩, hrecord, heq⟩ := map_eq_ok.mp h
      cases heq
      exact ⟨p, rfl, hrecord⟩
    · rintro ⟨_, heq, hrecord⟩
      cases heq
      exact map_eq_ok.mpr ⟨_, hrecord, rfl⟩

/-- The payload of a field that is read can be skipped, and the reader stops at the same place. -/
theorem skipAt_of_readField (h : (readField depth m id w c).run noted = .ok ((m', c'), noted')) :
    (Reader.skipAt id w depth).runAt c = (.ok (), c') := by
  obtain ⟨p, hpayload, hrecord⟩ := readField_eq_ok.mp h
  have hnesting : Yields (record (below (recursionLimit - depth)) (recursionLimit - depth) m (id, p))
      fun _ => p.nesting ≤ recursionLimit - depth := by
    rw [record_eq]
    exact Yields.map (yields_change_nesting (bounded_below _) (id, p))
  exact Wire.skipAt_eq_ok_iff.mpr ⟨p, hpayload, hnesting _ _ _ hrecord⟩

/-- A field that the type of the message does not know is skipped. -/
theorem readField_unknown (hid : m.type.fieldById? id = none) :
    (readField depth m id w c).run noted = .ok ((m', c'), noted') ↔
      (Reader.skipAt id w depth).runAt c = (.ok (), c') ∧ m' = m ∧ noted' = noted := by
  have hpass : ∀ p : Wire.Payload,
      (record (below (recursionLimit - depth)) (recursionLimit - depth) m (id, p)).run noted =
        .ok (m', noted') ↔ p.nesting ≤ recursionLimit - depth ∧ m' = m ∧ noted' = noted := by
    intro p
    simp only [record, hid, pass]
    split
    · rename_i hp
      show Except.ok (m, noted) = Except.ok (m', noted') ↔ _
      simp [hp, eq_comm]
    · rename_i hp
      simp only [hp, false_and, iff_false]
      intro h
      cases h
  rw [readField_eq_ok, Wire.skipAt_eq_ok_iff]
  simp only [hpass, ← and_assoc, exists_and_right]

end

/-! ### Readers -/

/-- A reader `depth` levels below the outermost message, from a place to the end of the bytes or to
the end tag of the group `close`. It takes the fields whose numbers it `knows` into the message and
skips the others, and so it comes to the `stops`. -/
inductive Walks (knows : UInt32 → Prop) (depth : Nat) (close : Option UInt32) :
    Message → List String → Cursor → List Cursor → Prop
  | atEnd {m : Message} {noted : List String} {c : Cursor} (unclosed : close = none)
      (h : c.atEnd = true) : Walks knows depth close m noted c []
  | closed {m : Message} {noted : List String} {c c₁ : Cursor} {id : UInt32}
      (opened : close = some id) (key : Reader.key.runAt c = (.ok (id, .endGroup), c₁)) :
      Walks knows depth close m noted c [c₁]
  | read {m m' : Message} {noted noted' : List String} {c c₁ c₂ : Cursor} {id : UInt32}
      {w : WireType} {stops : List Cursor} (key : Reader.key.runAt c = (.ok (id, w), c₁))
      (known : knows id) (field : (readField depth m id w c₁).run noted = .ok ((m', c₂), noted'))
      (more : Walks knows depth close m' noted' c₂ stops) :
      Walks knows depth close m noted c (c₂ :: stops)
  | skip {m : Message} {noted : List String} {c c₁ c₂ : Cursor} {id : UInt32} {w : WireType}
      {stops : List Cursor} (key : Reader.key.runAt c = (.ok (id, w), c₁)) (unknown : ¬knows id)
      (field : (Reader.skipAt id w depth).runAt c₁ = (.ok (), c₂))
      (more : Walks knows depth close m noted c₂ stops) :
      Walks knows depth close m noted c (c₂ :: stops)

/-- Whether a record is taken into a message depends on the type of the message, but not on what has
been read and noted before. So all readers of one type come to the same places. -/
theorem walks_of_lies {close : Option UInt32} {c : Cursor} {stops : List Cursor}
    {records : List Wire.Record} (hlies : Wire.Lies close c stops records)
    {noted noted' : List String} {cs : List Change}
    (h : (records.mapM (change (below (recursionLimit - depth)) (recursionLimit - depth) t)).run
      noted = .ok (cs, noted')) (knows : UInt32 → Prop) {m : Message} (htype : m.type = t)
    (noted₀ : List String) : Walks knows depth close m noted₀ c stops := by
  induction hlies generalizing noted noted' cs m noted₀ with
  | atEnd hclose hend => exact .atEnd hclose hend
  | closed hclose hkey => exact .closed hclose hkey
  | @record c c₁ c₂ id w p stops records hkey hpayload _ ih =>
    rw [List.mapM_cons, StateT.run_bind] at h
    obtain ⟨⟨change₁, noted₁⟩, hchange, h⟩ := bind_eq_ok.mp h
    rw [StateT.run_bind] at h
    obtain ⟨⟨cs', noted₂⟩, hmore, -⟩ := bind_eq_ok.mp h
    -- the same change is made whatever has been noted before
    rw [(steady_change (steady_below _) _ _).run] at hchange
    obtain ⟨⟨change₂, noted₃⟩, hempty, -⟩ := map_eq_ok.mp hchange
    have hfield : (readField depth m id w c₁).run noted₀ =
        .ok ((change₂.applyTurned m, c₂), noted₀ ++ noted₃) := by
      refine readField_eq_ok.mpr ⟨p, hpayload, ?_⟩
      rw [record_eq, htype, StateT.run_map,
        (steady_change (steady_below _) _ _).run_of_run_nil hempty]
      rfl
    by_cases hknows : knows id
    · exact .read hkey hknows hfield
        (ih hmore ((Change.type_applyTurned m change₂).trans htype) _)
    · exact .skip hkey hknows (skipAt_of_readField hfield) (ih hmore htype noted₀)

/-- If a field that the type of the message knows is read, then it can be skipped, and both stop at
the same place. So, where a message is read from the bytes or from a group, a reader comes to the
same places whichever of the fields it knows. -/
theorem lockstep (depth : Nat) (t : MessageType) (noted : List String) (c : Cursor) :
    (∀ m f id w m' c' noted', m.type = t → t.fieldById? id = some f →
      (readField depth m id w c).run noted = .ok ((m', c'), noted') →
        (Reader.skipAt id w depth).runAt c = (.ok (), c')) ∧
      (∀ m noted', (message (recursionLimit - depth) t (.scan [] c)).run noted = .ok (m, noted') →
        ∃ stops, ∀ knows, Walks knows depth none (Message.empty t) noted c stops) ∧
      ∀ id records c' m noted', Wire.readPayload id .startGroup c = (.ok (.group records), c') →
        (message (recursionLimit - depth) t ⟨records, .atEnd⟩).run noted = .ok (m, noted') →
        ∃ stops, stops.getLast? = some c' ∧
          ∀ knows, Walks knows depth (some id) (Message.empty t) noted c stops := by
  refine ⟨fun _ _ _ _ _ _ _ _ _ h => skipAt_of_readField h, fun m noted' h => ?_,
    fun id records c' m noted' hpayload h => ?_⟩
  · obtain ⟨hend, cs, before, hchanges, -⟩ := message_eq_ok.mp h
    obtain ⟨stops, records, hrecords, hlies⟩ := Wire.exists_lies_of_scan hend
    rw [hrecords] at hchanges
    exact ⟨stops, fun knows => walks_of_lies hlies hchanges knows rfl noted⟩
  · obtain ⟨-, cs, before, hchanges, -⟩ := message_eq_ok.mp h
    obtain ⟨stops, more, heq, hlast, hlies⟩ := Wire.exists_lies_of_readGroups hpayload
    cases heq
    exact ⟨stops, hlast, fun knows => walks_of_lies hlies hchanges knows rfl noted⟩

end Decoding

/-- A message with groups in it. -/
def Snapshot.grouped : Snapshot where
  stamp := 0
  graph :=
    { nodes := #[
        ⟨"", none, .package { children := [1] }⟩,
        ⟨"M", some 0, .message { scope := { children := [2, 4] }, fields := [4] }⟩,
        ⟨"G", some 1, .message { scope := { children := [3] }, fields := [3], isGroup := true }⟩,
        ⟨"a", some 2, .field (.plain .proto2 .optional 1 "a" "int32"
          ⟨.scalar .int32, none, false, none⟩)⟩,
        ⟨"g", some 1, .field (.plain .proto2 .repeated 1 "g" "G" ⟨.group 2, none, false, none⟩)⟩]
      extensions := []
      settings := { populateDefaults := false } }

theorem Snapshot.loaded_grouped : Snapshot.grouped.Loaded := by
  have h : (Registry.ofText { populateDefaults := false }
      "message M { repeated group G = 1 { optional int32 a = 1; } }").snapshot = some grouped := by
    cbv
  exact loaded_of_ofText h

namespace Decoding

/-- The last group that the limit allows is read and skipped, by itself, in a message and inside. -/
theorem lockstep_group : Snapshot.grouped.Loaded ∧
    (Reader.skipAt 1 .startGroup 99).runAt ⟨1, [8, 5, 12]⟩ = (.ok (), ⟨4, []⟩) ∧
    (∃ stops, ∀ knows,
      Walks knows 99 none (Message.empty ⟨⟨.grouped, 1⟩⟩) [] ⟨0, [11, 8, 5, 12]⟩ stops) ∧
    ∃ stops, stops.getLast? = some ⟨4, []⟩ ∧ ∀ knows,
      Walks knows 100 (some 1) (Message.empty ⟨⟨.grouped, 2⟩⟩) [] ⟨1, [8, 5, 12]⟩ stops := by
  have hpayload : Wire.readPayload 1 .startGroup ⟨1, [8, 5, 12]⟩ =
      (.ok (.group [(1, .varint 5)]), ⟨4, []⟩) := by
    cbv
  have hgroup : (message 0 ⟨⟨.grouped, 2⟩⟩ ⟨[(1, .varint 5)], .atEnd⟩).run [] =
      .ok (⟨⟨⟨.grouped, 2⟩⟩, [(3, .atom (.i32 5))]⟩, []) := by
    cbv
  have hfield : (readField 99 (Message.empty ⟨⟨.grouped, 1⟩⟩) 1 .startGroup ⟨1, [8, 5, 12]⟩).run
      [] = .ok ((⟨⟨⟨.grouped, 1⟩⟩, [(4, .list [.message
        ⟨⟨⟨.grouped, 2⟩⟩, [(3, .atom (.i32 5))]⟩])]⟩, ⟨4, []⟩), []) := by
    cbv
  have hkey : Reader.key.runAt ⟨0, [11, 8, 5, 12]⟩ = (.ok (1, .startGroup), ⟨1, [8, 5, 12]⟩) := by
    rfl
  have hscan : Wire.Stream.scan [] ⟨0, [11, 8, 5, 12]⟩ = ⟨[(1, .group [(1, .varint 5)])], .atEnd⟩ := by
    rw [Wire.Stream.scan_eq]
    simp only [hkey, hpayload, Wire.Stream.scan_nil]
    rfl
  have hmessage : (message 1 ⟨⟨.grouped, 1⟩⟩ (.scan [] ⟨0, [11, 8, 5, 12]⟩)).run [] =
      .ok (⟨⟨⟨.grouped, 1⟩⟩, [(4, .list [.message
        ⟨⟨⟨.grouped, 2⟩⟩, [(3, .atom (.i32 5))]⟩])]⟩, []) := by
    rw [hscan]
    cbv
  exact ⟨Snapshot.loaded_grouped,
    (lockstep 99 _ [] _).1 _ 4 1 .startGroup _ _ _ rfl rfl hfield,
    (lockstep 99 _ [] _).2.1 _ _ hmessage,
    (lockstep 100 _ [] _).2.2 1 _ _ _ _ hpayload hgroup⟩

end Decoding

end Protobuf

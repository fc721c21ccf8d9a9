import Protobuf.Proofs.Wire.Extent

/-!
# Records are read back

Bytes that were written as records are cut into the same records again. Groups are what makes this
more than a walk along a list: the reader keeps the open ones on a stack. The law of the loop is
therefore stated for any stack and any records that were read before, and says that the reader comes
out behind the written bytes with their records on top of those.

The number zero names no field, so it must not occur in a key; and a length prefix is a 64-bit word,
so that there is a limit to the number of bytes.

## Main definitions

* `Wire.Numbered` — no record has the number zero, at any depth.
* `Wire.Addressable` — the bytes can be counted by a 64-bit word.

## Main results

* `Wire.readGroups_write` — the law of the loop
* `Wire.Stream.ofBytes_write` — records are read back from their bytes
-/

namespace Protobuf.Wire

/-- The bytes can be counted by a 64-bit word, as all bytes that are in memory can. -/
def Addressable (bytes : List UInt8) : Prop :=
  bytes.length < 2 ^ 64

mutual

/-- No record in the payload has the number zero. -/
def Payload.Numbered : Payload → Prop
  | .group records => Numbered records
  | _ => True

/-- No record has the number zero, and none in their payloads. -/
def Numbered : List (UInt32 × Payload) → Prop
  | [] => True
  | (id, p) :: more => id ≠ 0 ∧ p.Numbered ∧ Numbered more

end

theorem numbered_nil : Numbered [] := by
  rw [Numbered]
  trivial

theorem numbered_cons {r : Record} {rs : List Record} :
    Numbered (r :: rs) ↔ (r.1 ≠ 0 ∧ r.2.Numbered) ∧ Numbered rs := by
  obtain ⟨id, p⟩ := r
  rw [Numbered, and_assoc]

theorem numbered_append {rs rs' : List Record} :
    Numbered (rs ++ rs') ↔ Numbered rs ∧ Numbered rs' := by
  induction rs with
  | nil => simp [numbered_nil]
  | cons r more ih => rw [List.cons_append, numbered_cons, numbered_cons, ih, ← and_assoc]

/-- Only the records of a group have numbers. -/
theorem Payload.numbered_of_ne_group {p : Payload} (h : ∀ records, p ≠ .group records) :
    p.Numbered := by
  cases p with
  | group records => exact absurd rfl (h records)
  | _ => simp [Payload.Numbered]

/-! ### Written records -/

/-- The bytes of one record. -/
def writeRecord (r : Record) : List UInt8 :=
  keyBytes r.1 r.2.wireType ++ r.2.content ++ closing r.1 r.2

@[simp] theorem write_nil : write [] = [] := by
  rw [write]

theorem write_cons (r : Record) (rs : List Record) :
    write (r :: rs) = writeRecord r ++ write rs := by
  obtain ⟨id, p⟩ := r
  rw [write]
  rfl

theorem write_append (rs rs' : List Record) : write (rs ++ rs') = write rs ++ write rs' := by
  induction rs with
  | nil => simp
  | cons r more ih => rw [List.cons_append, write_cons, write_cons, ih, List.append_assoc]

/-- What is written between the tags of a record is no longer than the whole. -/
theorem length_content_le (r : Record) : r.2.content.length ≤ (writeRecord r).length := by
  simp only [writeRecord, List.length_append]
  omega

theorem length_writeRecord_le {r : Record} {rs : List Record} (h : r ∈ rs) :
    (writeRecord r).length ≤ (write rs).length := by
  induction rs with
  | nil => simp at h
  | cons r' more ih =>
    rw [write_cons, List.length_append]
    rcases List.mem_cons.mp h with rfl | h
    · omega
    · have := ih h
      omega

theorem length_bytes_le (content : List UInt8) :
    content.length ≤ (Payload.bytes content).content.length := by
  rw [Payload.content, lengthDelimited, List.length_append]
  omega

/-- What stands between the tags of a record in addressable bytes is addressable. -/
theorem Addressable.of_mem {rs : List Record} (h : Addressable (write rs)) {r : Record}
    (hmem : r ∈ rs) : Addressable r.2.content :=
  Nat.lt_of_le_of_lt ((length_content_le r).trans (length_writeRecord_le hmem)) h

theorem Addressable.of_bytes {content : List UInt8}
    (h : Addressable (Payload.bytes content).content) : Addressable content :=
  Nat.lt_of_le_of_lt (length_bytes_le content) h

theorem Addressable.of_cons {r : Record} {rs : List Record} (h : Addressable (write (r :: rs))) :
    Addressable (write rs) := by
  rw [Addressable, write_cons, List.length_append] at h
  rw [Addressable]
  omega

theorem addressable_append {rs rs' : List Record} (h : Addressable (write (rs ++ rs'))) :
    Addressable (write rs) ∧ Addressable (write rs') := by
  rw [Addressable, write_append, List.length_append] at h
  exact ⟨by rw [Addressable]; omega, by rw [Addressable]; omega⟩

/-! ### Steps of the loop -/

/-- A plain payload is in a layout without tags. -/
theorem Payload.IsPlain.wireType_ne {p : Payload} (hp : p.IsPlain) :
    p.wireType ≠ .startGroup ∧ p.wireType ≠ .endGroup := by
  cases p with
  | group records => exact hp.elim
  | _ => simp [wireType]

variable {g : OpenGroup} {outer : List OpenGroup} {done : List Record}

theorem readGroups_plain {id : UInt32} (hid : id ≠ 0) {p : Payload} (hp : p.IsPlain)
    (position : Nat) (rest : List UInt8) :
    readGroups g outer done ⟨position, writeRecord (id, p) ++ rest⟩ =
      readGroups g outer ((id, p) :: done)
        ⟨position + (writeRecord (id, p)).length, rest⟩ := by
  have hclosing : closing id p = [] := by
    cases p with
    | group records => exact hp.elim
    | _ => rfl
  have hbytes : writeRecord (id, p) ++ rest = keyBytes id p.wireType ++ (p.content ++ rest) := by
    simp [writeRecord, hclosing]
  obtain ⟨hstart, hend⟩ := hp.wireType_ne
  rw [hbytes, readGroups_of_key (Reader.reads_key hid p.wireType position _),
    readInside_plain hstart hend, Run.andThen, reads_content hp]
  simp [writeRecord, hclosing, Nat.add_assoc]

theorem readGroups_start {id : UInt32} (hid : id ≠ 0) (position : Nat) (rest : List UInt8) :
    readGroups g outer done ⟨position, keyBytes id .startGroup ++ rest⟩ =
      readGroups ⟨id, done⟩ (g :: outer) []
        ⟨position + (keyBytes id .startGroup).length, rest⟩ :=
  readGroups_of_key (Reader.reads_key hid .startGroup position rest)

/-- The end tag of the innermost group closes it: the group around it goes on, or the outermost
group is what was read. -/
theorem readGroups_end (hid : g.id ≠ 0) (position : Nat) (rest : List UInt8) :
    readGroups g outer done ⟨position, keyBytes g.id .endGroup ++ rest⟩ =
      match outer with
      | [] => (.ok (.group done.reverse), ⟨position + (keyBytes g.id .endGroup).length, rest⟩)
      | g' :: outer => readGroups g' outer ((g.id, .group done.reverse) :: g.before)
          ⟨position + (keyBytes g.id .endGroup).length, rest⟩ := by
  rw [readGroups_of_key (Reader.reads_key hid .endGroup position rest)]
  exact if_pos rfl

/-! ### Whole records -/

theorem Payload.isPlain_of_addressable {p : Payload} (hgroup : ∀ records, p ≠ .group records)
    (h : Addressable p.content) : p.IsPlain := by
  cases p with
  | bytes content => exact Nat.lt_of_le_of_lt (length_bytes_le content) h
  | group records => exact absurd rfl (hgroup records)
  | _ => trivial

mutual

/-- A group is left again with its record on top of those around it. -/
theorem readGroups_writeRecord (id : UInt32) (p : Payload) (hid : id ≠ 0) (hp : p.Numbered)
    (h : Addressable (writeRecord (id, p))) (g : OpenGroup) (outer : List OpenGroup)
    (done : List Record) (position : Nat) (rest : List UInt8) :
    readGroups g outer done ⟨position, writeRecord (id, p) ++ rest⟩ =
      readGroups g outer ((id, p) :: done) ⟨position + (writeRecord (id, p)).length, rest⟩ := by
  match p, hp, h with
  | .group records, hp, h =>
    have hbytes : writeRecord (id, .group records) ++ rest =
        keyBytes id .startGroup ++ (write records ++ (keyBytes id .endGroup ++ rest)) := by
      simp [writeRecord, Payload.wireType, Payload.content, closing]
    have hlength : (writeRecord (id, .group records)).length =
        (keyBytes id .startGroup).length + (write records).length +
          (keyBytes id .endGroup).length := by
      simp [writeRecord, Payload.wireType, Payload.content, closing, Nat.add_assoc]
    have hshort : Addressable (write records) := by
      rw [Addressable] at h ⊢
      omega
    rw [hbytes, readGroups_start hid,
      readGroups_write records (by rwa [Payload.Numbered] at hp) hshort,
      readGroups_end hid, hlength, List.append_nil, List.reverse_reverse]
    simp only [Nat.add_assoc]
  | .varint v, _, _ =>
    exact readGroups_plain hid (show (Payload.varint v).IsPlain from trivial) position rest
  | .fixed64 v, _, _ =>
    exact readGroups_plain hid (show (Payload.fixed64 v).IsPlain from trivial) position rest
  | .fixed32 v, _, _ =>
    exact readGroups_plain hid (show (Payload.fixed32 v).IsPlain from trivial) position rest
  | .bytes content, _, h =>
    have hcontent : Addressable (Payload.bytes content).content :=
      Nat.lt_of_le_of_lt (length_content_le (id, .bytes content)) h
    exact readGroups_plain hid (Payload.isPlain_of_addressable (by simp) hcontent) position rest

/-- The law of the loop: it comes out behind written records with these on top of those before. -/
theorem readGroups_write (records : List (UInt32 × Payload)) (hn : Numbered records)
    (h : Addressable (write records)) (g : OpenGroup) (outer : List OpenGroup)
    (done : List Record) (position : Nat) (rest : List UInt8) :
    readGroups g outer done ⟨position, write records ++ rest⟩ =
      readGroups g outer (records.reverse ++ done)
        ⟨position + (write records).length, rest⟩ := by
  match records, hn, h with
  | [], _, _ => simp
  | (id, p) :: more, hn, h =>
    rw [Numbered] at hn
    obtain ⟨hid, hp, hmore⟩ := hn
    rw [Addressable, write_cons, List.length_append] at h
    rw [write_cons, List.append_assoc,
      readGroups_writeRecord id p hid hp (by rw [Addressable]; omega),
      readGroups_write more hmore (by rw [Addressable]; omega), List.length_append,
      List.reverse_cons, List.append_assoc, List.singleton_append, Nat.add_assoc]

end

theorem readPayload_writeRecord {id : UInt32} (hid : id ≠ 0) {p : Payload} (hp : p.Numbered)
    (h : Addressable (writeRecord (id, p))) (position : Nat) (rest : List UInt8) :
    readPayload id p.wireType ⟨position, p.content ++ closing id p ++ rest⟩ =
      (.ok p, ⟨position + (p.content ++ closing id p).length, rest⟩) := by
  have hcontent : Addressable p.content := Nat.lt_of_le_of_lt (length_content_le (id, p)) h
  by_cases hgroup : ∃ records, p = .group records
  · obtain ⟨records, rfl⟩ := hgroup
    rw [Payload.Numbered] at hp
    rw [Payload.content] at hcontent ⊢
    rw [closing, Payload.wireType, readPayload, List.append_assoc,
      readGroups_write records hp hcontent, readGroups_end hid, List.append_nil,
      List.reverse_reverse, List.length_append, Nat.add_assoc]
  · have hplain : p.IsPlain :=
      Payload.isPlain_of_addressable (fun records heq => hgroup ⟨records, heq⟩) hcontent
    have hread := reads_content hplain position rest
    have hclosing : closing id p = [] := by
      cases p with
      | group records => exact absurd ⟨records, rfl⟩ hgroup
      | _ => rfl
    rw [hclosing, List.append_nil, readPayload]
    · rw [hread]
    · intro heq
      cases p with
      | group records => exact hgroup ⟨records, rfl⟩
      | _ => simp [Payload.wireType] at heq

/-- What is written for a record spells it. -/
theorem spells_writeRecord {id : UInt32} (hid : id ≠ 0) {p : Payload} (hp : p.Numbered)
    (h : Addressable (writeRecord (id, p))) : Spells (writeRecord (id, p)) (id, p) := by
  have hopens : p.wireType ≠ .endGroup := by cases p <;> simp [Payload.wireType]
  have hbytes : writeRecord (id, p) = keyBytes id p.wireType ++ (p.content ++ closing id p) := by
    simp [writeRecord]
  rw [hbytes]
  exact .intro (Reader.reads_key hid p.wireType) hopens (readPayload_writeRecord hid hp h)

/-- Records are read back from their bytes. -/
theorem Stream.ofBytes_write {records : List Record} (hn : Numbered records)
    (h : Addressable (write records)) : ofBytes (write records) = ⟨records, .atEnd⟩ := by
  induction records with
  | nil => exact ofBytes_nil
  | cons r more ih =>
    obtain ⟨id, p⟩ := r
    rw [Numbered] at hn
    obtain ⟨hid, hp, hmore⟩ := hn
    rw [Addressable, write_cons, List.length_append] at h
    have hfirst : Spells (writeRecord (id, p)) (id, p) :=
      spells_writeRecord hid hp (by rw [Addressable]; omega)
    rw [write_cons, ofBytes_spells hfirst, ih hmore (by rw [Addressable]; omega)]

end Protobuf.Wire

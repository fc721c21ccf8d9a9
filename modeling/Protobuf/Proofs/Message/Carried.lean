import Mathlib.Data.List.Perm.Basic
import Protobuf.Message.Encoding
import Protobuf.Proofs.Message.Decoded
import Protobuf.Proofs.Message.Normal
import Protobuf.Proofs.Wire.Record

/-!
# Values on the wire

A single value of a field is carried by one payload, a list by a record for each element or by one
for all of them, a map by a record for each entry. Here it is shown that such records can be made of
every value that fills its slot, and what reading them does to a message.

Reading is watched closely: either it gives a certain value and notes certain paths, in some order,
or messages nest too deep for it. Which of the two it is depends on how many levels there are in the
value, and on nothing else.

## Main definitions

* `Decoding.Gives` — what reading gives, and when it is too deep.
* `Decoding.below` — the reader for the messages inside of a message.
* `Message.Sent` — a message has been written as certain records, and is read back from them.
* `Value.Carried` — a single value is carried by a payload.
* `Value.gather` — paths that belong to the messages in a value.

## Main results

* `Value.Fills.exists_carried` — every single value is carried by a payload
-/

namespace Protobuf

/-! ### Reading -/

namespace Decoding

/-- Reading gives `a` and notes the paths `noted`, in some order, if `fits` holds. Otherwise
messages nest too deep. -/
structure Gives {α : Type} (p : Decoding α) (fits : Prop) (noted : List String) (a : α) : Prop where
  ok : fits → ∀ before, ∃ after, p.run before = .ok (a, after) ∧ after.Perm (before ++ noted)
  tooDeep : ¬fits → ∀ before, p.run before = .error (.wire .tooDeep)

namespace Gives

variable {α β : Type} {p : Decoding α} {f : α → Decoding β} {fits fits' : Prop}
  {noted noted' : List String} {a : α} {b : β}

theorem pure (a : α) : Gives (Pure.pure a : Decoding α) True [] a :=
  ⟨fun _ before => ⟨before, rfl, by rw [List.append_nil]⟩, fun h => (h trivial).elim⟩

theorem throw (h : ¬fits) : Gives (MonadExcept.throw (.wire .tooDeep) : Decoding α) fits noted a :=
  ⟨fun h' => (h h').elim, fun _ _ => rfl⟩

theorem congr (h : Gives p fits noted a) (hfits : fits ↔ fits') (hnoted : noted.Perm noted') :
    Gives p fits' noted' a := by
  constructor
  · intro hf before
    obtain ⟨after, hrun, hperm⟩ := h.ok (hfits.mpr hf) before
    exact ⟨after, hrun, hperm.trans (hnoted.append_left before)⟩
  · intro hf
    exact h.tooDeep fun hf' => hf (hfits.mp hf')

theorem bind (hp : Gives p fits noted a) (hf : Gives (f a) fits' noted' b) :
    Gives (p >>= f) (fits ∧ fits') (noted ++ noted') b := by
  constructor
  · rintro ⟨h, h'⟩ before
    obtain ⟨after, hrun, hperm⟩ := hp.ok h before
    obtain ⟨after', hrun', hperm'⟩ := hf.ok h' after
    refine ⟨after', ?_, ?_⟩
    · rw [StateT.run_bind, hrun]
      exact hrun'
    · rw [← List.append_assoc]
      exact hperm'.trans (hperm.append_right noted')
  · intro h before
    rw [StateT.run_bind]
    by_cases hfirst : fits
    · obtain ⟨after, hrun, -⟩ := hp.ok hfirst before
      rw [hrun]
      exact hf.tooDeep (fun h' => h ⟨hfirst, h'⟩) after
    · rw [hp.tooDeep hfirst before]
      rfl

theorem note (paths : List String) : Gives (modify (· ++ paths)) True paths PUnit.unit :=
  ⟨fun _ before => ⟨before ++ paths, rfl, .rfl⟩, fun h => (h trivial).elim⟩

/-- An action that always succeeds and notes nothing goes first. -/
theorem after (hp : Gives p True [] a) (hf : Gives (f a) fits noted b) :
    Gives (p >>= f) fits noted b :=
  (hp.bind hf).congr (by rw [true_and]) (by rw [List.nil_append])

theorem andReturn (hp : Gives p fits noted a) (g : α → β) :
    Gives (p >>= fun a => Pure.pure (g a)) fits noted (g a) :=
  (hp.bind (pure (g a))).congr (by rw [and_true]) (by rw [List.append_nil])

theorem map {g : α → β} (hp : Gives p fits noted a) : Gives (g <$> p) fits noted (g a) := by
  rw [map_eq_pure_bind]
  exact hp.andReturn g

end Gives

end Decoding

/-! ### What is absent -/

namespace Value

/-- Paths that belong to the messages in a value, one message after the other. -/
def gather (paths : Message → List String) (v : Value) : List String :=
  v.messages.flatMap paths

section

variable {paths : Message → List String}

@[simp] theorem gather_atom (a : Atom) : (atom a).gather paths = [] := by
  rw [gather, messages, List.flatMap_nil]

@[simp] theorem gather_list_nil : (list []).gather paths = [] := by
  rw [gather, messages, messagesOfItems, List.flatMap_nil]

theorem gather_list_cons (v : Value) (more : List Value) :
    (list (v :: more)).gather paths = v.gather paths ++ (list more).gather paths := by
  rw [gather, gather, gather, messages, messages, messagesOfItems, List.flatMap_append]

@[simp] theorem gather_map_nil (key : Scalar) (t : FieldType) (owner : Option Snapshot) :
    (map ⟨key, t, owner, []⟩).gather paths = [] := by
  rw [gather, messages, messagesOfEntries, List.flatMap_nil]

theorem gather_map_cons (key : Scalar) (t : FieldType) (owner : Option Snapshot) (e : Atom × Value)
    (more : List (Atom × Value)) :
    (map ⟨key, t, owner, e :: more⟩).gather paths =
      e.2.gather paths ++ (map ⟨key, t, owner, more⟩).gather paths := by
  rw [gather, gather, gather, messages, messages, messagesOfEntries, List.flatMap_append]

@[simp] theorem levels_atom (a : Atom) : (atom a).levels = 0 := by
  rw [levels]

@[simp] theorem levels_list_nil : (list []).levels = 0 := by
  rw [levels, levelsOfItems]

theorem levels_list_cons (v : Value) (more : List Value) :
    (list (v :: more)).levels = max v.levels (list more).levels := by
  rw [levels, levelsOfItems, levels]

@[simp] theorem levels_map_nil (key : Scalar) (t : FieldType) (owner : Option Snapshot) :
    (map ⟨key, t, owner, []⟩).levels = 0 := by
  rw [levels, levelsOfEntries]

theorem levels_map_cons (key : Scalar) (t : FieldType) (owner : Option Snapshot) (e : Atom × Value)
    (more : List (Atom × Value)) :
    (map ⟨key, t, owner, e :: more⟩).levels =
      max e.2.levels (map ⟨key, t, owner, more⟩).levels := by
  rw [levels, levelsOfEntries, levels]

end

end Value

namespace Decoding

/-- The reader for messages inside of a message, where so many levels may still be begun. -/
def below : Nat → Inner
  | 0 => fun _ _ => throw (.wire .tooDeep)
  | levels + 1 => message levels

theorem message_eq (levels : Nat) : message levels = messageWith (below levels) levels := by
  cases levels <;> rfl

end Decoding

/-- The message has been written as `e`, and is read back from its records. -/
structure Message.Sent (m : Message) (e : Encoding) : Prop where
  encoding : m.encoding = .ok e
  numbered : Wire.Numbered e.records
  missing : e.missing.Perm ((Value.message m).gather Message.allMissing)
  read : Wire.Addressable (Wire.write e.records) → ∀ levels,
    Decoding.Gives (Decoding.message levels m.type ⟨e.records, .atEnd⟩) (m.depth ≤ levels)
      ((Value.message m).gather Message.missingFields) m.canonical

/-- The single value is written as the payload `p` wherever values of its type are written one by
one, and is read back from it. -/
structure Value.Carried (S : Snapshot) (t : FieldType) (v : Value) (p : Wire.Payload)
    (missing : List String) : Prop where
  encoding : ∀ s : Slot, s.shape = .single → s.type = t →
    (s.omitsZero && v.atom?.any Atom.isZero) = false →
    v.encoding S.graph s = .ok ⟨[(s.id, p)], missing⟩
  layout : p.wireType = t.wireType
  numbered : p.Numbered
  missing : missing.Perm (v.gather Message.allMissing)
  read : Wire.Addressable p.content → ∀ (levels : Nat) (t' : MessageType) (s : Slot),
    t'.snapshot = S → s.type = t → Decoding.Gives (Decoding.value (Decoding.below levels) t' s p)
      (v.levels ≤ levels) (v.gather Message.missingFields) (v.settle Graph.leavesOut)

/-! ### Single values -/

section Single

variable {S : Snapshot} {t : FieldType}

/-- An atom is read where a message is not expected. -/
theorem Decoding.value_of_not_isMessage {inner : Inner} {t' : MessageType} {s : Slot}
    {p : Wire.Payload} (h : s.type.isMessage = false) :
    value inner t' s p = .atom <$> atom s p := by
  cases htype : s.type with
  | scalar _ => simp only [value, htype]
  | enumeration _ => simp only [value, htype]
  | message node =>
    rw [htype] at h
    cases h
  | group node =>
    rw [htype] at h
    cases h

/-- An atom that is not left out is written as its payload. -/
theorem Slot.encodeAtom_eq_ok {s : Slot} {a : Atom} {p : Wire.Payload} (hshape : s.shape = .single)
    (hzero : (s.omitsZero && a.isZero) = false) (hp : s.type.payload? a = some p) :
    s.encodeAtom a = .ok ⟨[(s.id, p)], []⟩ := by
  have hpayload : s.atomPayload (.atom a) = .ok p := by
    simp only [atomPayload, Value.atom?, Option.bind_some, hp]
  rw [encodeAtom, hshape]
  simp only [hzero, Bool.false_eq_true, if_false, hpayload]
  rfl

/-- An atom is carried by its payload. -/
theorem Value.carried_atom {a : Atom} (h : t.holds a) :
    ∃ p, Value.Carried S t (.atom a) p [] := by
  obtain ⟨p, hp, hread, hwire, hgroup⟩ := FieldType.payload?_of_holds h
  refine ⟨p, fun s hshape htype hzero => ?_, hwire, Wire.Payload.numbered_of_ne_group hgroup, ?_,
    fun _ levels t' s _ htype => ?_⟩
  · rw [Value.atom?, Option.any_some] at hzero
    rw [Value.encoding]
    exact Slot.encodeAtom_eq_ok hshape hzero (htype ▸ hp)
  · rw [Value.gather_atom]
  · rw [Decoding.value_of_not_isMessage (htype ▸ FieldType.isMessage_of_holds h), Value.settle]
    have hatom : Decoding.atom s p = pure a := by
      simp only [Decoding.atom, htype, hread]
    rw [hatom]
    exact (Decoding.Gives.pure a).map.congr (by simp) (by rw [Value.gather_atom])

/-- Inside of another message there is one level less. -/
theorem Message.Sent.below {m : Message} {e : Encoding} (h : m.Sent e)
    (he : Wire.Addressable (Wire.write e.records)) (levels : Nat) :
    Decoding.Gives (Decoding.below levels m.type ⟨e.records, .atEnd⟩)
      ((Value.message m).levels ≤ levels) ((Value.message m).gather Message.missingFields)
      m.canonical := by
  rw [m.levels_message]
  cases levels with
  | zero => exact Decoding.Gives.throw (Nat.not_succ_le_zero _)
  | succ levels => exact (h.read he levels).congr Nat.succ_le_succ_iff.symm .rfl

theorem Value.encoding_message {g : Graph} {s : Slot} {m : Message} (hm : m.graph = g) :
    (Value.message m).encoding g s = s.encodeMessage m m.encoding := by
  cases hm
  cases m
  rw [Value.encoding]
  rfl

/-- A message is carried by its records. -/
theorem Message.Sent.carried {m : Message} {e : Encoding} (h : m.Sent e)
    (hm : m.type.snapshot = S) (ht : t.message? = some m.type.node) :
    ∃ p, Value.Carried S t (.message m) p e.missing := by
  have hsibling : ∀ t' : MessageType, t'.snapshot = S → t'.sibling m.type.node = m.type := by
    rintro t' rfl
    rw [MessageType.sibling, ← hm]
  have hencoding : ∀ s : Slot, (Value.message m).encoding S.graph s =
      s.encodeMessage m (.ok e) := by
    intro s
    rw [Value.encoding_message (Message.graph_of_snapshot hm), h.encoding]
  have hsettle : (Value.message m).settle Graph.leavesOut = .message m.canonical :=
    Value.settle_message m
  cases t with
  | message node =>
    cases ht
    refine ⟨.bytes e.bytes, fun s hshape htype _ => ?_, rfl, by simp [Wire.Payload.Numbered],
      h.missing, fun haddr levels t' s ht' htype => ?_⟩
    · rw [hencoding, Slot.encodeMessage, hshape, htype]
      rfl
    · have he : Wire.Addressable (Wire.write e.records) := haddr.of_bytes
      have hstream : Wire.Stream.ofBytes e.bytes = ⟨e.records, .atEnd⟩ :=
        Wire.Stream.ofBytes_write h.numbered he
      simp only [Decoding.value, htype]
      rw [hstream, hsibling t' ht', hsettle]
      exact (h.below he levels).map
  | group node =>
    cases ht
    refine ⟨.group e.records, fun s hshape htype _ => ?_, rfl, ?_, h.missing,
      fun haddr levels t' s ht' htype => ?_⟩
    · rw [hencoding, Slot.encodeMessage, hshape, htype]
      rfl
    · rw [Wire.Payload.Numbered]
      exact h.numbered
    · rw [Wire.Payload.content] at haddr
      simp only [Decoding.value, htype]
      rw [hsibling t' ht', hsettle]
      exact (h.below haddr levels).map
  | scalar _ => cases ht
  | enumeration _ => cases ht

/-- Every single value is carried by a payload, if the messages in it can be sent. -/
theorem Value.Fills.exists_carried {v : Value} (h : v.Fills S .single t) {depth : Nat}
    (hsent : ∀ m : Message, m.WellTyped S → m.depth < depth → ∃ e, m.Sent e)
    (hv : v.levels ≤ depth) : ∃ p missing, Value.Carried S t v p missing := by
  cases h with
  | atom holds =>
    obtain ⟨p, hp⟩ := Value.carried_atom holds
    exact ⟨p, [], hp⟩
  | message node snapshot regular fields =>
    rename_i m
    rw [Message.levels_message] at hv
    obtain ⟨e, he⟩ := hsent m (.message rfl snapshot regular fields) hv
    obtain ⟨p, hp⟩ := he.carried snapshot node
    exact ⟨p, e.missing, hp⟩

end Single

end Protobuf

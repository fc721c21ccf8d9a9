import Protobuf.Proofs.Message.Decoded
import Protobuf.Proofs.Message.RoundTrip

/-!
# Messages that have been read are written

What has been read is well typed, and required fields of it can only be absent where the reader does
not look: extensions, and the new messages that stand for the missing values of map entries. But for
these the message can be written, and is read again in its normal form.

The normal form need not be the message. A zero may have been in the bytes although presence is not
told of its field, and it is not written. It comes back if it is the default that is filled in for
the field.

## Main definitions

* `Message.Whole` — no default is absent, and no required field unless the message is new.
* `Message.Restored` — zeros that are left out are filled in again.

## Main results

* `Message.encode_of_decode` — what has been read can be written, and is read again
-/

namespace Protobuf

variable {S : Snapshot} {t : MessageType} {m : Message} {bytes : List UInt8}

/-! ### Messages in what has been read -/

theorem Message.mem_messages_iff {n : Message} (h : Keyed.Ascending Prod.fst m.entries) :
    n ∈ m.messages ↔ n = m ∨ ∃ f v, m.value? f = some v ∧ n ∈ v.messages := by
  rw [messages, Value.messagesOfFields_eq, List.mem_cons, List.mem_flatMap]
  refine or_congr_right ⟨?_, ?_⟩
  · rintro ⟨e, he, hn⟩
    exact ⟨e.1, e.2, value?_of_mem h he, hn⟩
  · rintro ⟨f, v, hv, hn⟩
    exact ⟨(f, v), mem_of_value? hv, hn⟩

/-- There are only defaults in a new message, which are atoms. -/
theorem Message.eq_new_of_mem_messages (hg : S.graph.Linked) (ht : t.snapshot = S) {n : Message}
    (hn : n ∈ (new t).messages) : n = new t := by
  rcases (mem_messages_iff (WellTyped.new hg ht).regular.ascending).mp hn with hn | ⟨f, v, hv, hn⟩
  · exact hn
  · rw [new, WellTyped.value?_populate, value?_empty, Option.none_or] at hv
    obtain ⟨a, rfl⟩ := Decoding.exists_atom_of_standIn? hv
    rw [Value.messages] at hn
    cases hn

/-- The message lacks no default, and no required field of its own unless it is new. -/
def Message.Whole (m : Message) : Prop :=
  m.Populated ∧ (m ≠ Message.new m.type → m.missingFields = [])

theorem Message.whole_new (t : MessageType) : (new t).Whole := by
  refine ⟨WellTyped.populated_populate _, fun h => (h ?_).elim⟩
  rw [new, WellTyped.type_populate]
  rfl

/-- New messages are the only ones in a complete value from which required fields of their own may
be absent. -/
theorem Value.Fills.whole (hg : S.graph.Linked) {shape : Shape} {type : FieldType} {v : Value}
    (h : v.Fills S shape type) (hv : v.Complete) : ∀ n ∈ v.messages, n.Whole := by
  induction h with
  | atom _ =>
    rw [Value.messages]
    exact List.forall_mem_nil _
  | message node snapshot regular fields ih =>
    intro n hn
    rw [Message.messages_message, Message.mem_messages_iff regular.ascending] at hn
    cases hv with
    | message own populated hcomplete =>
      rcases hn with rfl | ⟨f, v, hv, hn⟩
      · exact ⟨populated, fun _ => own⟩
      · obtain ⟨-, s, hs⟩ := regular.known f v hv
        rw [Message.graph_of_snapshot snapshot] at hs
        exact ih f v s hv hs (hcomplete f v hv) n hn
  | list fills ih =>
    intro n hn
    rw [Value.messages, Value.messagesOfItems_eq] at hn
    obtain ⟨v, hmem, hn⟩ := List.mem_flatMap.mp hn
    cases hv with
    | list hcomplete => exact ih v hmem (hcomplete v hmem) n hn
  | map ascending keys values ih =>
    intro n hn
    rw [Value.messages, Value.messagesOfEntries_eq] at hn
    obtain ⟨e, hmem, hn⟩ := List.mem_flatMap.mp hn
    cases hv with
    | map hcomplete =>
      -- of the values of a map, those that are new messages need not be complete
      by_cases hnew : ∃ t, e.2 = .message (Message.new t)
      · obtain ⟨t, ht⟩ := hnew
        have hfills := values e hmem
        rw [ht] at hfills hn
        have hsnapshot : t.snapshot = S := by
          rw [← (Value.fills_message_iff.mp hfills).2.snapshot, Message.new,
            Message.WellTyped.type_populate]
          rfl
        rw [Message.messages_message] at hn
        rw [Message.eq_new_of_mem_messages hg hsnapshot hn]
        exact Message.whole_new t
      · exact ih e hmem (hcomplete e hmem fun t ht => hnew ⟨t, ht⟩) n hn

/-! ### Values that come back -/

/-- A value in which no message lacks a default is settled, if nothing is dropped from it. -/
theorem Value.Fills.settle_eq_self (hg : S.graph.Linked) {shape : Shape} {type : FieldType}
    {v : Value} (h : v.Fills S shape type) (hv : ∀ n ∈ v.messages, n.Populated) :
    v.settle (fun _ _ _ => false) = v := by
  induction h with
  | atom _ => rw [Value.settle]
  | @message type m node snapshot regular fields ih =>
    have hm : m.WellTyped S := .message rfl snapshot regular fields
    rw [Message.messages_message] at hv
    rw [Value.settle_message, Message.eq_of_value?_eq Message.type_settle
      (hm.settle hg).regular.ascending regular.ascending fun f => ?_]
    cases hf : m.value? f with
    | none =>
      rw [Message.value?_settle_of_none regular.ascending hf]
      exact hv m List.mem_cons_self f hf
    | some v =>
      obtain ⟨-, s, hs⟩ := regular.known f v hf
      rw [hm.graph] at hs
      rw [Message.value?_settle_of_some regular.ascending hf, if_neg Bool.false_ne_true,
        ih f v s hf hs fun n hn => hv n (Message.mem_messages_of_value? hf hn)]
  | @list type items fills ih =>
    rw [Value.messages, Value.messagesOfItems_eq] at hv
    have hitems : items.map (Value.settle fun _ _ _ => false) = items.map id :=
      List.map_congr_left fun v hmem =>
        ih v hmem fun n hn => hv n (List.mem_flatMap.mpr ⟨v, hmem, hn⟩)
    rw [Value.settle, Value.settleItems_eq, hitems, List.map_id]
  | @map key type entries ascending keys values ih =>
    rw [Value.messages, Value.messagesOfEntries_eq] at hv
    have hentries : (entries.map fun e => (e.1, e.2.settle fun _ _ _ => false)) =
        entries.map id :=
      List.map_congr_left fun e hmem => Prod.ext rfl
        (ih e hmem fun n hn => hv n (List.mem_flatMap.mpr ⟨e, hmem, hn⟩))
    rw [Value.settle, Value.settleEntries_eq, hentries, List.map_id]

namespace Message

/-- Every value that is left out when the message is written is filled in when it is read. -/
def Restored (m : Message) : Prop :=
  ∀ n ∈ m.messages, ∀ f v, n.value? f = some v → n.graph.omits f v → n.standIn? f = some v

/-- A message without absent defaults is what it comes back as, if zeros are filled in again. -/
theorem WellTyped.same_canonical (hg : S.graph.Linked) (hm : m.WellTyped S)
    (hpopulated : ∀ n ∈ m.messages, n.Populated) (h : m.Restored) : m.canonical == m := by
  rw [← messages_message] at hpopulated
  have hkept := Value.Fills.settle_eq_self hg hm hpopulated
  have hsame : ((Value.message m).settle Graph.leavesOut).same
      ((Value.message m).settle fun _ _ _ => false) := by
    refine Value.Fills.same_settle hg hm fun n hn f v hv => ?_
    rw [messages_message] at hn
    rw [Graph.leavesOut]
    cases homits : n.graph.omits f v
    · cases hempty : v.isEmptyCollection
      · exact .inl rfl
      · exact .inr (.inl rfl)
    · exact .inr (.inr (h n hn f v hv homits))
  rw [hkept, Value.settle_message] at hsame
  exact hsame

/-- What has been read can be written, unless required fields are absent. None is if the message
lacks no required extension and no new message in it lacks required fields. Then what is written is
read as the message in its normal form; and this is the message itself if the zeros that are left
out are filled in again. -/
theorem encode_of_decode (hS : S.Loaded) (ht : t.snapshot = S) (h : decode t bytes = .ok m) :
    ((∃ bytes', m.encode = .ok bytes') ∨
        ∃ missing bytes', m.encode = .error (.missingRequired missing bytes')) ∧
      ((∀ n ∈ m.messages, n.missingExtensions = [] ∧
          (n = new n.type → n.missingFields = [])) →
        ∃ bytes', m.encode = .ok bytes' ∧
          (Wire.Addressable bytes' → m.depth ≤ recursionLimit →
            ∃ m', decode t bytes' = .ok m' ∧ m' == m.normal ∧ (m.Restored → m' == m))) := by
  have hg := hS.linked
  obtain ⟨htype, hm, hcomplete⟩ := wellTyped_of_decode hg ht h
  have hwhole : ∀ n ∈ m.messages, n.Whole := by
    rw [← messages_message]
    exact Value.Fills.whole hg hm hcomplete
  obtain ⟨e, he⟩ := hm.exists_sent hg
  constructor
  · rw [he.encode_eq]
    split
    · exact .inl ⟨_, rfl⟩
    · exact .inr ⟨_, _, rfl⟩
  · intro hrequired
    have hown : ∀ n ∈ m.messages, n.missingFields = [] := by
      intro n hn
      by_cases hnew : n = new n.type
      · exact (hrequired n hn).2 hnew
      · exact (hwhole n hn).2 hnew
    have hmissing : e.missing = [] := he.missing_eq_nil_iff.mpr fun n hn =>
      List.append_eq_nil_iff.mpr ⟨hown n hn, (hrequired n hn).1⟩
    refine ⟨e.bytes, ?_, fun haddr hdepth => ⟨m.canonical, ?_, hm.same_canonical_normal hg,
      hm.same_canonical hg fun n hn => (hwhole n hn).1⟩⟩
    · rw [he.encode_eq, hmissing]
      rfl
    · rw [← htype]
      exact he.decode_eq_ok haddr hdepth hown

/-- A zero that was in the bytes comes back if defaults are filled in. -/
theorem encode_of_decode_default : ∃ m, decode ⟨⟨.tree true, 1⟩⟩ [8, 0] = .ok m ∧
    m.encode = .ok [] ∧ ∃ m', decode ⟨⟨.tree true, 1⟩⟩ [] = .ok m' ∧ m' == m := by
  have hdecode : decode ⟨⟨.tree true, 1⟩⟩ [8, 0] = .ok (new ⟨⟨.tree true, 1⟩⟩) := by cbv
  have hbytes : (new ⟨⟨.tree true, 1⟩⟩).encode = .ok [] := by decide +kernel
  have hmessages : (new ⟨⟨.tree true, 1⟩⟩).messages = [new ⟨⟨.tree true, 1⟩⟩] := by cbv
  have hrequired : ∀ n ∈ (new ⟨⟨.tree true, 1⟩⟩).messages, n.missingExtensions = [] ∧
      (n = new n.type → n.missingFields = []) := by
    rw [hmessages, List.forall_mem_singleton]
    exact ⟨by decide_cbv, fun _ => by decide_cbv⟩
  have hrestored : (new ⟨⟨.tree true, 1⟩⟩).Restored := by
    rw [Restored, hmessages, List.forall_mem_singleton]
    intro f v hv _
    cases List.mem_singleton.mp (mem_of_value? hv)
    rfl
  obtain ⟨bytes, hencode, hread⟩ :=
    (encode_of_decode (Snapshot.loaded_tree true) rfl hdecode).2 hrequired
  rw [hbytes] at hencode
  cases hencode
  obtain ⟨m', hdecode', -, hsame⟩ := hread (by rw [Wire.Addressable]; decide) (by decide_cbv)
  exact ⟨_, hdecode, hbytes, m', hdecode', hsame hrestored⟩

/-- If defaults are not filled in, a zero that was in the bytes is lost. -/
theorem encode_of_decode_zero : (Snapshot.tree false).Loaded ∧ ∃ m m' : Message,
    decode ⟨⟨.tree false, 1⟩⟩ [8, 0] = .ok m ∧ m.encode = .ok [] ∧
      decode ⟨⟨.tree false, 1⟩⟩ [] = .ok m' ∧ ¬m' == m := by
  refine ⟨Snapshot.loaded_tree false, ⟨⟨⟨.tree false, 1⟩⟩, [(2, .atom (.i32 0))]⟩,
    new ⟨⟨.tree false, 1⟩⟩, ?_, by decide +kernel, ?_, by decide_cbv⟩
  · cbv
  · cbv

end Message

end Protobuf

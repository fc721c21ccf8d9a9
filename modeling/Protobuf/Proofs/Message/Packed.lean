import Protobuf.Proofs.Message.Part
import Protobuf.Proofs.Message.Updated
import Protobuf.Proofs.Registry.Built

/-!
# Packed and single elements

The elements of a list may be written one by one, many under one key, or in any mixture of both, and
records of other fields may stand between them. What is read is the elements in their order, however
they are divided among records, and whichever way the field itself is written.

The invariant of the proof is that the records written so far append the elements written so far to
the list in whatever message they are taken into. Other records keep it, because they change other
fields; only a oneof could clear a field from outside, and no repeated field belongs to one.

## Main definitions

* `Slot.Spells`, `Slot.Packs` — the bytes of one element, and of many under one key.
* `MessageType.Writes` — records in which the elements of a field are written.

## Main results

* `Decoding.packed_of_packs` — the elements under one key
* `MessageType.Writes.changes` — such records append the elements
* `Message.decode_writes` — and are read as a message with these elements
-/

namespace Protobuf

/-! ### Ways of writing a list -/

/-- The bytes are one value of the type of a field, without a key. -/
def Slot.Spells (s : Slot) (bytes : List UInt8) (a : Atom) : Prop :=
  ∃ p, (Wire.readPlain s.type.wireType).Reads bytes p ∧ s.type.ofPayload p = .ok a

/-- The bytes are values of the type of a field, one behind the other. -/
inductive Slot.Packs (s : Slot) : List UInt8 → List Atom → Prop
  | nil : Packs s [] []
  | cons {b rest : List UInt8} {a : Atom} {as : List Atom} (first : s.Spells b a)
      (more : Packs s rest as) : Packs s (b ++ rest) (a :: as)

/-- The bytes are records of a message type in which elements of the field `f` are written, each by
itself or any number of them under one key, with whole records of other fields between them. -/
inductive MessageType.Writes (t : MessageType) (f : NodeId) (s : Slot) :
    List UInt8 → List Atom → Prop
  | nil : Writes t f s [] []
  | element {k b rest : List UInt8} {id : UInt32} {a : Atom} {as : List Atom}
      (field : t.fieldById? id = some f) (key : Reader.key.Reads k (id, s.type.wireType))
      (value : s.Spells b a) (more : Writes t f s rest as) :
      Writes t f s (k ++ b ++ rest) (a :: as)
  | chunk {k b content rest : List UInt8} {id : UInt32} {elements as : List Atom}
      (field : t.fieldById? id = some f) (key : Reader.key.Reads k (id, .lengthDelimited))
      (length : Reader.lengthDelimited.Reads b content) (packs : s.Packs content elements)
      (more : Writes t f s rest as) : Writes t f s (k ++ b ++ rest) (elements ++ as)
  | other {u rest : List UInt8} {r : Wire.Record} {m : Message} {as : List Atom}
      (field : t.fieldById? r.1 ≠ some f) (record : Wire.Spells u r) (read : m.IsReadFrom t u)
      (more : Writes t f s rest as) : Writes t f s (u ++ rest) as

/-! ### Reading elements -/

namespace Wire

/-- A payload that is no group is a record behind its key. -/
theorem Spells.of_reads {k b : List UInt8} {id : UInt32} {w : WireType} {p : Payload}
    (hkey : Reader.key.Reads k (id, w)) (h : (readPlain w).Reads b p) :
    Spells (k ++ b) (id, p) := by
  have hgroup : w ≠ .startGroup ∧ w ≠ .endGroup := by
    constructor <;>
      rintro rfl <;>
      cases h 0 []
  refine .intro hkey hgroup.2 fun position rest => ?_
  rw [readPayload_eq hgroup.1, Run.andThen, h]

end Wire

namespace Decoding

variable {inner : Inner} {levels : Nat} {t : MessageType} {f : NodeId} {s : Slot}

theorem atom_of_ofPayload {p : Wire.Payload} {a : Atom} (h : s.type.ofPayload p = .ok a) :
    atom s p = pure a := by
  simp only [atom, h]

/-- The elements under one key are told apart. -/
theorem packed_of_packs {content : List UInt8} {as : List Atom} (h : s.Packs content as) :
    packed s content = pure (as.map .atom) := by
  have hpayloads : ∃ ps,
      (∀ position, Wire.readPacked s.type.wireType ⟨position, content⟩ = .ok ps) ∧
      ps.mapM (fun p => Value.atom <$> atom s p) = pure (as.map Value.atom) := by
    induction h with
    | nil => exact ⟨[], fun position => by simp [Wire.readPacked, Cursor.atEnd], rfl⟩
    | cons first more ih =>
      obtain ⟨p, hp, ha⟩ := first
      obtain ⟨ps, hread, hatoms⟩ := ih
      refine ⟨p :: ps, fun position => ?_, ?_⟩
      · rw [Wire.readPacked_reads hp, hread]
        rfl
      · rw [List.mapM_cons, atom_of_ofPayload ha, hatoms]
        rfl
  obtain ⟨ps, hread, hatoms⟩ := hpayloads
  rw [packed, Cursor.ofBytes, hread]
  exact hatoms

theorem expect_of_accepts {w : WireType} (h : s.accepts w) : expect s w = pure () := by
  rw [expect, if_pos h]

/-- An element that stands by itself is appended. -/
theorem fieldChange_element (hshape : s.shape = .list) (hpackable : s.type.isPackable)
    {p : Wire.Payload} (hlayout : p.wireType = s.type.wireType) {a : Atom}
    (h : s.type.ofPayload p = .ok a) :
    fieldChange inner levels t f s p = pure (.append f [.atom a]) := by
  have hmessage : s.type.isMessage = false := by
    cases htype : s.type <;> rw [htype] at hpackable <;> first | rfl | cases hpackable
  have hvalue : value inner t s p = pure (.atom a) := by
    rw [value_of_not_isMessage hmessage, atom_of_ofPayload h]
    rfl
  rw [fieldChange, expect_of_accepts (accepts_of_layout (by simp [hshape]) hlayout), hshape,
    pure_bind]
  cases p with
  | bytes content => exact absurd hlayout.symm (wireType_of_isPackable hpackable)
  | _ =>
    rw [shapedChange, hvalue]
    · rfl
    · simp

/-- The elements under one key are appended. -/
theorem fieldChange_chunk (hshape : s.shape = .list) (hpackable : s.type.isPackable)
    {content : List UInt8} {as : List Atom} (h : s.Packs content as) :
    fieldChange inner levels t f s (.bytes content) = pure (.append f (as.map .atom)) := by
  have hslot : s.isPackable := by
    rw [Slot.isPackable, hshape, hpackable]
    rfl
  have haccepts : s.accepts .lengthDelimited := by
    rw [Slot.accepts, hslot]
    simp
  rw [fieldChange, Wire.Payload.wireType, expect_of_accepts haccepts, hshape, pure_bind,
    shapedChange, if_pos hslot, packed_of_packs h]
  rfl

theorem change_of_field {id : UInt32} {p : Wire.Payload} (hf : t.fieldById? id = some f)
    (hs : t.graph.slot? f = some s) :
    change inner levels t (id, p) = fieldChange inner levels t f s p := by
  simp only [change, hf, slot, hs, pure_bind]

end Decoding

/-! ### Other fields -/

namespace Change

/-- The field that a change is made to. -/
def field? : Change → Option NodeId
  | keep => none
  | put f _ | append f _ | putEntry f _ _ _ _ => some f

/-- A field that belongs to no oneof has its value changed by changes that are made to it only. -/
theorem value?_apply {m : Message} {f : NodeId}
    (hfree : ∀ o c, m.graph.oneof? o = some c → f ∉ c.fields) {c : Change}
    (hc : c.field? ≠ some f) : (c.apply m).value? f = m.value? f := by
  cases c with
  | keep => rfl
  | put g v =>
    have hne : g ≠ f := fun h => hc (congrArg some h)
    have hrival : f ∉ m.rivals g := by
      intro hmem
      obtain ⟨hmem, -⟩ := List.mem_filter.mp hmem
      cases ho : ((m.graph.field? g).bind FieldNode.oneof).bind m.graph.oneof? with
      | none => simp [ho] at hmem
      | some c =>
        obtain ⟨o, -, hc⟩ := Option.bind_eq_some_iff.mp ho
        simp only [ho, Option.elim_some] at hmem
        exact hfree o c hc hmem
    rw [apply, Message.put, Message.value?_insert, if_neg hne,
      Message.WellTyped.value?_foldl_erase, if_neg hrival]
  | append g items =>
    have hne : g ≠ f := fun h => hc (congrArg some h)
    rw [apply, Message.append]
    split
    · rfl
    · rw [Message.value?_insert, if_neg hne]
  | putEntry g s keyType key v =>
    have hne : g ≠ f := fun h => hc (congrArg some h)
    rw [apply, Message.putEntry]
    split
    · rw [Message.value?_insert, if_neg hne]
    · rw [Message.value?_insert, if_neg hne]
    · rfl

end Change

namespace Decoding

variable {inner : Inner} {levels : Nat} {t : MessageType}

theorem yields_field?_fieldChange (f : NodeId) (s : Slot) (p : Wire.Payload) :
    Yields (fieldChange inner levels t f s p) fun c => c.field? = some f := by
  rw [fieldChange]
  refine Yields.andThen fun _ => ?_
  unfold shapedChange
  split
  · exact Yields.andThen fun v => Yields.pure rfl
  · split
    · exact Yields.andThen fun items => Yields.pure rfl
    · exact Yields.andThen fun v => Yields.pure rfl
  · exact Yields.andThen fun v => Yields.pure rfl
  · exact Yields.andThen fun e => Yields.pure rfl
  · exact Yields.throw _

/-- A record changes the field that has its number, if any. -/
theorem yields_field?_change (r : Wire.Record) :
    Yields (change inner levels t r) fun c => c.field? = t.fieldById? r.1 := by
  obtain ⟨id, p⟩ := r
  rw [change]
  cases t.fieldById? id with
  | some f => exact Yields.andThen fun s => yields_field?_fieldChange f s p
  | none => exact Yields.andThen fun _ => Yields.pure rfl

end Decoding

/-! ### Messages -/

/-- A list that is absent is not filled in. -/
theorem Graph.filling?_of_list {g : Graph} {f : NodeId} {s : Slot} (hs : g.slot? f = some s)
    (hshape : s.shape = .list) : g.filling? f = none := by
  obtain ⟨fn, -, hfn, -, -, -, -, hlist, -⟩ := slot?_eq_some hs
  rw [filling?, hfn]
  simp [FieldNode.isAlwaysPresent, FieldNode.hasImplicitPresence, hlist hshape]

namespace Message

theorem value?_append (m : Message) (f : NodeId) (more : List Value) :
    (m.append f more).value? f =
      if more = [] then m.value? f else some (.list (m.items f ++ more)) := by
  by_cases h : more = []
  · rw [append, if_pos (by simpa using h), if_pos h]
  · rw [append_eq m f h, value?_insert, if_pos rfl, if_neg h]

theorem items_append (m : Message) (f : NodeId) (more : List Value) :
    (m.append f more).items f = m.items f ++ more := by
  rw [items, value?_append]
  by_cases h : more = []
  · rw [if_pos h, h, List.append_nil, items]
  · rw [if_neg h]
    rfl

/-- Elements may be appended in two steps. -/
theorem value?_append_append (m : Message) (f : NodeId) (first more : List Value) :
    ((m.append f first).append f more).value? f = (m.append f (first ++ more)).value? f := by
  rw [value?_append, value?_append, value?_append, items_append, List.append_assoc]
  by_cases hmore : more = []
  · rw [if_pos hmore, hmore, List.append_nil]
  · rw [if_neg hmore, if_neg (by simp [hmore])]

/-- What a list is appended to is all that matters. -/
theorem value?_append_congr {m n : Message} {f : NodeId} (h : m.value? f = n.value? f)
    (more : List Value) : (m.append f more).value? f = (n.append f more).value? f := by
  rw [value?_append, value?_append, items, items, h]

/-- The change that a record makes by itself is the one that it makes anywhere. -/
theorem IsReadFrom.change {t : MessageType} {m : Message} {u : List UInt8} {r : Wire.Record}
    (h : m.IsReadFrom t u) (hu : Wire.Spells u r) : ∃ c noted,
      (Decoding.change (Decoding.below recursionLimit) recursionLimit t r).run [] =
        .ok (c, noted) := by
  obtain ⟨noted, hrun⟩ := isReadFrom_iff.mp h
  obtain ⟨-, cs, before, hcs, -⟩ := Decoding.message_eq_ok.mp hrun
  have hrecords : (Wire.Stream.ofBytes u).records = [r] := by
    rw [← List.append_nil u, Wire.Stream.ofBytes_spells hu, Wire.Stream.ofBytes_nil]
  rw [hrecords, List.mapM_cons, StateT.run_bind] at hcs
  obtain ⟨⟨c, noted⟩, hc, -⟩ := bind_eq_ok.mp hcs
  exact ⟨c, noted, hc⟩

end Message

namespace MessageType

variable {t : MessageType} {f : NodeId} {s : Slot} {bytes : List UInt8} {as : List Atom}

/-- The bytes are whole records, and whatever message of the type they are taken into, they append
the elements to a list of it. -/
structure Appends (t : MessageType) (f : NodeId) (bytes : List UInt8) (as : List Atom) : Prop where
  ending : (Wire.Stream.ofBytes bytes).ending = .atEnd
  changes : ∃ cs noted, ((Wire.Stream.ofBytes bytes).records.mapM
      (Decoding.change (Decoding.below recursionLimit) recursionLimit t)).run [] =
        .ok (cs, noted) ∧
    ∀ m : Message, m.type = t →
      (cs.foldl Change.apply m).value? f = (m.append f (as.map .atom)).value? f

theorem Appends.nil : t.Appends f [] [] := by
  refine ⟨by rw [Wire.Stream.ofBytes_nil], [], [], ?_, fun m _ => rfl⟩
  rw [Wire.Stream.ofBytes_nil]
  rfl

/-- A record that appends elements goes first. -/
theorem Appends.cons {u : List UInt8} {r : Wire.Record} {c : Change} {noted : List String}
    {elements : List Atom} (h : t.Appends f bytes as) (hu : Wire.Spells u r)
    (hc : (Decoding.change (Decoding.below recursionLimit) recursionLimit t r).run [] =
      .ok (c, noted))
    (happly : ∀ m : Message, m.type = t →
      (c.apply m).value? f = (m.append f (elements.map .atom)).value? f) :
    t.Appends f (u ++ bytes) (elements ++ as) := by
  obtain ⟨hend, cs, noted', hcs, hfold⟩ := h
  have hrest := (Decoding.Steady.mapM (Decoding.steady_change (Decoding.steady_below recursionLimit)
    recursionLimit) (Wire.Stream.ofBytes bytes).records).run_of_run_nil hcs noted
  constructor
  · rw [Wire.Stream.ofBytes_spells hu, hend]
  · refine ⟨c :: cs, noted ++ noted', ?_, fun m hm => ?_⟩
    · rw [Wire.Stream.ofBytes_spells hu, List.mapM_cons, StateT.run_bind]
      refine bind_eq_ok.mpr ⟨(c, noted), hc, ?_⟩
      rw [StateT.run_bind]
      exact bind_eq_ok.mpr ⟨(cs, noted ++ noted'), hrest, rfl⟩
    · rw [List.foldl_cons, hfold _ (by rw [Change.type_apply, hm]),
        Message.value?_append_congr (happly m hm), Message.value?_append_append, List.map_append]

theorem Appends.append {u : List UInt8} {r : Wire.Record} {elements : List Atom}
    (h : t.Appends f bytes as) (hu : Wire.Spells u r)
    (hr : Decoding.change (Decoding.below recursionLimit) recursionLimit t r =
      pure (.append f (elements.map .atom))) : t.Appends f (u ++ bytes) (elements ++ as) :=
  h.cons hu (by rw [hr]; rfl) fun _ _ => rfl

/-- However elements are written, their records append them. -/
theorem Writes.appends (h : t.Writes f s bytes as) (hs : t.graph.slot? f = some s)
    (hshape : s.shape = .list) (hpackable : s.type.isPackable)
    (hfree : ∀ o c, t.graph.oneof? o = some c → f ∉ c.fields) : t.Appends f bytes as := by
  induction h with
  | nil => exact .nil
  | @element k b rest id a as field key value more ih =>
    obtain ⟨p, hp, ha⟩ := value
    have hlayout := Wire.wireType_of_readPlain (hp 0 [])
    have hchange : Decoding.change (Decoding.below recursionLimit) recursionLimit t (id, p) =
        pure (.append f ([a].map .atom)) := by
      rw [Decoding.change_of_field field hs,
        Decoding.fieldChange_element hshape hpackable hlayout ha]
      rfl
    exact ih.append (.of_reads key hp) hchange
  | @chunk k b content rest id elements as field key length packs more ih =>
    have hp : (Wire.readPlain .lengthDelimited).Reads b (.bytes content) := length.map _
    refine ih.append (.of_reads key hp) ?_
    rw [Decoding.change_of_field field hs, Decoding.fieldChange_chunk hshape hpackable packs]
  | @other u rest r m as field record read more ih =>
    obtain ⟨c, noted, hc⟩ := read.change record
    have hfield := Decoding.yields_field?_change r _ _ _ hc
    -- the record is of another field, which is in no oneof with this one
    have hkeep : ∀ m : Message, m.type = t →
        (c.apply m).value? f = (m.append f (([] : List Atom).map .atom)).value? f := by
      intro m hm
      refine Change.value?_apply (fun o c ho => hfree o c ?_) (hfield ▸ field)
      rwa [Message.graph, hm] at ho
    exact ih.cons record hc hkeep

end MessageType

namespace Message

/-- Records in which elements of a repeated field are written, in any mixture of single and packed
ones and between records of other fields, are read as a message with these elements in their order.
The field is absent only if there are none. -/
theorem decode_writes {t : MessageType} {f : NodeId} {s : Slot} {bytes : List UInt8}
    {as : List Atom} (ht : t.snapshot.Built) (hs : t.graph.slot? f = some s)
    (hshape : s.shape = .list) (hpackable : s.type.isPackable) (h : t.Writes f s bytes as) :
    ∃ m : Message, m.IsReadFrom t bytes ∧
      m.value? f = if as = [] then none else some (.list (as.map .atom)) := by
  obtain ⟨hend, cs, noted, hcs, hfold⟩ := h.appends hs hshape hpackable
    fun o c hc => ht.singleMembers.notMem hs hshape hc
  refine ⟨(cs.foldl Change.apply (empty t)).populate, isReadFrom_iff.mpr ⟨_,
    Decoding.message_eq_ok.mpr ⟨hend, cs, noted, hcs, rfl, rfl⟩⟩, ?_⟩
  have hstand : (cs.foldl Change.apply (empty t)).standIn? f = none := by
    have hfilling : t.graph.filling? f = none := Graph.filling?_of_list hs hshape
    rw [standIn?, graph, Change.type_foldl]
    show (if _ then t.graph.filling? f else none) = none
    rw [hfilling, ite_self]
  rw [WellTyped.value?_populate, hstand, Option.or_none, hfold _ rfl, value?_append, items,
    value?_empty]
  simp only [List.map_eq_nil_iff]
  rfl

/-- One element by itself, two under one key, none under another one, and one more behind a record
of another field. -/
theorem decode_writes_mixed : ∃ m : Message,
    m.IsReadFrom ⟨⟨.mixed, 1⟩⟩ [32, 1, 34, 2, 2, 3, 34, 0, 8, 5, 32, 4] ∧
      m.value? 6 =
        some (.list [.atom (.i32 1), .atom (.i32 2), .atom (.i32 3), .atom (.i32 4)]) := by
  let s : Slot := ⟨"r", 4, .scalar .int32, .list, false, false⟩
  have hid : (4 : UInt32) ≠ 0 := by decide
  have hspells : ∀ v : UInt64, s.Spells (Varint.encode v) (.i32 (Wire.low32 v)) :=
    fun v => ⟨.varint v, (Reader.reads_varint v).map _, rfl⟩
  have hpacks : s.Packs (Varint.encode 2 ++ (Varint.encode 3 ++ [])) [.i32 2, .i32 3] :=
    .cons (hspells 2) (.cons (hspells 3) .nil)
  have hother : Wire.Spells (Wire.keyBytes 1 .varint ++ Varint.encode 5) (1, .varint 5) :=
    .of_reads (Reader.reads_key (by decide) _) ((Reader.reads_varint 5).map _)
  have hread : Message.IsReadFrom ⟨⟨⟨.mixed, 1⟩⟩, [(3, .atom (.i32 5))]⟩ ⟨⟨.mixed, 1⟩⟩
      (Wire.keyBytes 1 .varint ++ Varint.encode 5) := .inl (by cbv)
  have hwrites := MessageType.Writes.element rfl (Reader.reads_key hid _) (hspells 1)
    (.chunk rfl (Reader.reads_key hid _) (Reader.reads_lengthDelimited (by cbv)) hpacks
      (.chunk rfl (Reader.reads_key hid _) (Reader.reads_lengthDelimited (by cbv)) .nil
        (.other (by decide) hother hread
          (.element rfl (Reader.reads_key hid _) (hspells 4)
            (.nil (t := ⟨⟨.mixed, 1⟩⟩) (f := 6))))))
  obtain ⟨m, hm, hvalue⟩ := decode_writes Snapshot.loaded_mixed.built rfl rfl rfl hwrites
  refine ⟨m, ?_, hvalue⟩
  convert hm using 1
  cbv

end Message

end Protobuf

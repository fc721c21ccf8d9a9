import Protobuf.Proofs.Message.Carried

/-!
# Fields on the wire

Every field of a message is written as records of its own, and these are taken into a message one
after the other. When the records of a field begin, neither the field nor another one of its oneof
is present; when they end, the field has its value. Lists and maps grow on the way.

## Main definitions

* `Message.Awaits` — a message into which the records of a field may be taken.
* `Value.Part` — the value of a field has been written as certain records, and is read back.

## Main results

* `Value.Fills.exists_part` — every value that fills its slot can be written and read back
-/

namespace Protobuf

namespace Decoding

/-! ### Payloads of fields -/

section Field

variable {inner : Inner} {levels : Nat} {m : Message} {f : NodeId} {s : Slot} {p : Wire.Payload}
  {fits : Prop} {noted : List String} {v : Value}

theorem gives_expect {w : WireType} (h : s.accepts w) : Gives (expect s w) True [] () := by
  rw [expect, if_pos h]
  exact Gives.pure ()

theorem accepts_of_layout (hshape : ∀ key, s.shape ≠ .map key) (h : p.wireType = s.type.wireType) :
    s.accepts p.wireType := by
  have hwire : s.wireType = s.type.wireType := by
    rw [Slot.wireType]
    split
    · rename_i key hkey
      exact (hshape key hkey).elim
    · rfl
  rw [Slot.accepts, hwire, h, decide_eq_true rfl, Bool.true_or]

theorem gives_field_single (hshape : s.shape = .single) (hlayout : p.wireType = s.type.wireType)
    (hvalue : Gives (value inner m.type s p) fits noted v) :
    Gives (field inner levels m f s p) fits noted (m.put f v) := by
  simp only [field, hshape]
  refine (gives_expect (accepts_of_layout (by simp [hshape]) hlayout)).after ?_
  exact hvalue.andReturn _

/-- What is packed is not written with a length in front. -/
theorem wireType_of_isPackable {t : FieldType} (h : t.isPackable) :
    t.wireType ≠ .lengthDelimited := by
  cases t with
  | scalar s => cases s <;> first | exact WireType.noConfusion | cases h
  | enumeration e => exact WireType.noConfusion
  | message node => cases h
  | group node => cases h

/-- An element of a list that stands alone. -/
theorem gives_field_element (hshape : s.shape = .list) (hlayout : p.wireType = s.type.wireType)
    (hvalue : Gives (value inner m.type s p) fits noted v) :
    Gives (field inner levels m f s p) fits noted (prepend m f [v]) := by
  have hexpect := gives_expect (accepts_of_layout (by simp [hshape]) hlayout)
  have helement : Gives (value inner m.type s p >>= fun v => pure (prepend m f [v])) fits noted
      (prepend m f [v]) := hvalue.andReturn _
  cases p with
  | bytes content =>
    have hpackable : s.isPackable = false := by
      rw [Slot.isPackable, Bool.and_eq_false_iff]
      refine .inr (Bool.eq_false_iff.mpr fun h => wireType_of_isPackable h hlayout.symm)
    simp only [field, hshape, hpackable]
    exact hexpect.after helement
  | _ =>
    simp only [field, hshape]
    exact hexpect.after helement

/-- The elements of a list under one key. -/
theorem gives_field_packed {content : List UInt8} {items : List Value} (hshape : s.shape = .list)
    (hpackable : s.isPackable) (hpacked : Gives (packed s content) True [] items) :
    Gives (field inner levels m f s (.bytes content)) True [] (prepend m f items) := by
  simp only [field, hshape, hpackable, if_true]
  refine (gives_expect ?_).after (hpacked.andReturn _)
  rw [Slot.accepts, hpackable]
  simp [Wire.Payload.wireType]

/-- An entry of a map. -/
theorem gives_field_entry {content : List UInt8} {key : Scalar} {k : Atom}
    (hshape : s.shape = .map key)
    (hentry : Gives (entry inner levels m.type s key content) fits noted (k, v)) :
    Gives (field inner levels m f s (.bytes content)) fits noted (m.putEntry f s key k v) := by
  simp only [field, hshape]
  refine (gives_expect ?_).after (hentry.andReturn fun e => m.putEntry f s key e.1 e.2)
  simp [Slot.accepts, Slot.wireType, hshape, Wire.Payload.wireType]

end Field

/-- A record is taken into the field that has its number. -/
theorem gives_record {S : Snapshot} (hg : S.graph.Linked) {inner : Inner} {levels : Nat}
    {m m' : Message} {f : NodeId} {s : Slot} {p : Wire.Payload} {fits : Prop} {noted : List String}
    (hm : m.graph = S.graph) (hf : f ∈ S.graph.allFields m.type.node)
    (hs : S.graph.slot? f = some s) (h : Gives (field inner levels m f s p) fits noted m') :
    Gives (record inner levels m (s.id, p)) fits noted m' := by
  obtain ⟨fn, -, hfn, -, hid, -⟩ := Graph.slot?_eq_some hs
  have hfield : m.type.fieldById? s.id = some f := by
    show m.graph.fieldById? m.type.node s.id = some f
    rw [hm]
    exact hg.fieldById?_eq_some.mpr ⟨hf, Graph.hasFieldId_iff.mpr ⟨fn, hfn, hid.symm⟩⟩
  have hslot : slot m.graph f = pure s := by
    simp only [slot, hm, hs]
  simp only [record, hfield, hslot, pure_bind]
  exact h

end Decoding

/-! ### Parts -/

/-- The records of the field `f` may be taken into the message: neither the field nor another one of
its oneof is present. -/
structure Message.Awaits (S : Snapshot) (f : NodeId) (m : Message) : Prop where
  snapshot : m.type.snapshot = S
  field : f ∈ S.graph.allFields m.type.node
  absent : m.value? f = none
  alone : ∀ f' v, m.value? f' = some v → ¬S.graph.Compete f f'

/-- The value of the field `f` is written as `e`, and is read back when the message awaits it. -/
structure Value.Part (S : Snapshot) (f : NodeId) (s : Slot) (v : Value) (e : Encoding) : Prop where
  encoding : v.encoding S.graph s = .ok e
  numbered : Wire.Numbered e.records
  missing : e.missing.Perm (v.gather Message.allMissing)
  read : Wire.Addressable (Wire.write e.records) → ∀ (levels : Nat) (m : Message), m.Awaits S f →
    Decoding.Gives (e.records.foldlM (Decoding.record (Decoding.below levels) levels) m)
      (v.levels ≤ levels) (v.gather Message.missingFields)
      (if S.graph.leavesOut f v then m
        else m.insert f (Decoding.turnValue (v.settle Graph.leavesOut)))

section

variable {S : Snapshot} {f : NodeId} {s : Slot} {m : Message}

theorem Message.Awaits.graph (h : m.Awaits S f) : m.graph = S.graph :=
  Message.graph_of_snapshot h.snapshot

/-- Where no rival is present, nothing has to be cleared. -/
theorem Message.Awaits.put (hg : S.graph.Sound) (h : m.Awaits S f) (v : Value) :
    m.put f v = m.insert f v := by
  have hkeep : ∀ fields : List NodeId, (∀ f' ∈ fields, m.value? f' = none) →
      fields.foldl Message.erase m = m := by
    intro fields
    induction fields with
    | nil => exact fun _ => rfl
    | cons f' more ih =>
      intro hnone
      have hfind : Keyed.find? Prod.fst f' m.entries = none := by
        have hvalue := hnone f' List.mem_cons_self
        rw [Message.value?, Option.map_eq_none_iff] at hvalue
        exact hvalue
      have herase : m.erase f' = m := by
        rw [Message.erase, Keyed.erase_of_find?_eq_none hfind]
      rw [List.foldl_cons, herase]
      exact ih fun g hg => hnone g (List.mem_cons_of_mem _ hg)
  rw [Message.put, hkeep]
  intro f' hf'
  obtain ⟨-, hcompete⟩ := (Message.WellTyped.mem_rivals hg h.graph).mp hf'
  by_contra hne
  obtain ⟨v', hv'⟩ := Option.ne_none_iff_exists'.mp hne
  exact h.alone f' v' hv' hcompete

/-- What a slot says about leaving out is what the graph says. -/
theorem Graph.omits_eq (hs : S.graph.slot? f = some s) (v : Value) :
    S.graph.omits f v = (s.omitsZero && v.atom?.any Atom.isZero) := by
  obtain ⟨fn, l, hfn, -, -, -, homits, -⟩ := Graph.slot?_eq_some hs
  rw [Graph.omits, hfn, Option.any_some, homits]

/-- Zeros in lists and maps are written. -/
theorem Graph.omitsZero_collection (hs : S.graph.slot? f = some s) (hshape : s.shape ≠ .single) :
    s.omitsZero = false := by
  rw [Bool.eq_false_iff]
  exact fun h => hshape (Graph.shape_of_omitsZero hs h).1

theorem Value.Fills.isEmptyCollection_single {t : FieldType} {v : Value}
    (h : v.Fills S .single t) : v.isEmptyCollection = false := by
  cases h <;> rfl

/-- Only lists are turned. -/
theorem Value.Fills.turnValue_single {t : FieldType} {v : Value} (h : v.Fills S .single t) :
    Decoding.turnValue v = v := by
  cases h <;> rfl

/-- The value of a single field is written as one record, or as none if it is left out. -/
theorem Value.Carried.part (hg : S.graph.Linked) (hs : S.graph.slot? f = some s)
    (hid : s.id ≠ 0) (hshape : s.shape = .single) {v : Value} (hfills : v.Fills S .single s.type)
    {p : Wire.Payload} {missing : List String} (h : Value.Carried S s.type v p missing) :
    ∃ e, Value.Part S f s v e := by
  by_cases homits : S.graph.omits f v
  · have hzero := homits
    rw [Graph.omits_eq hs] at hzero
    cases v with
    | atom a =>
      refine ⟨{}, ?_, Wire.numbered_nil, by rw [Value.gather_atom], fun _ levels m hm => ?_⟩
      · rw [Value.atom?, Option.any_some] at hzero
        rw [Value.encoding, Slot.encodeAtom, hshape]
        simp only [hzero, if_true]
      · rw [if_pos (by rw [Graph.leavesOut, homits, Bool.true_or])]
        exact (Decoding.Gives.pure m).congr (by simp) (by rw [Value.gather_atom])
    | _ => simp [Value.atom?] at hzero
  · rw [Bool.not_eq_true] at homits
    have hkeep : S.graph.leavesOut f v = false := by
      rw [Graph.leavesOut, homits, hfills.isEmptyCollection_single]
      rfl
    refine ⟨⟨[(s.id, p)], missing⟩, ?_, ?_, h.missing, fun haddr levels m hm => ?_⟩
    · exact h.encoding s hshape rfl (Graph.omits_eq hs v ▸ homits)
    · exact Wire.numbered_cons.mpr ⟨⟨hid, h.numbered⟩, Wire.numbered_nil⟩
    · have hvalue := h.read (haddr.of_mem List.mem_cons_self) levels m.type s hm.snapshot rfl
      have hrecord : Decoding.Gives
          (Decoding.record (Decoding.below levels) levels m (s.id, p)) _ _ _ :=
        Decoding.gives_record hg hm.graph hm.field hs
          (Decoding.gives_field_single hshape h.layout hvalue)
      rw [hkeep, (hfills.settle hg).turnValue_single, List.foldlM_cons]
      rw [hm.put hg.toSound] at hrecord
      exact hrecord.andReturn id

/-! ### Lists -/

theorem Message.insert_insert (m : Message) (f : NodeId) (v w : Value) :
    (m.insert f v).insert f w = m.insert f w := by
  have hkey : Prod.fst (f, v) = Prod.fst (f, w) := rfl
  exact congrArg (MessageOf.mk m.type) (Keyed.insert_insert hkey m.entries)

/-- Elements may be taken into a message one by one. -/
theorem Decoding.prepend_cons (m : Message) (f : NodeId) (v : Value) (more : List Value) :
    prepend (prepend m f [v]) f more = prepend m f (v :: more) := by
  cases more with
  | nil => rfl
  | cons w more =>
    simp only [prepend, List.isEmpty_cons, Bool.false_eq_true, if_false, Message.value?_insert,
      if_true, Option.bind_some, Value.list?, Option.getD_some, Message.insert_insert]
    rfl

/-- Elements that are written one by one make a list. -/
theorem Value.exists_elements (hg : S.graph.Linked) (hs : S.graph.slot? f = some s) (hid : s.id ≠ 0)
    (hshape : s.shape = .list) {items : List Value}
    (hitems : ∀ v ∈ items, ∃ p missing, Value.Carried S s.type v p missing) :
    ∃ e, Value.encodingOfItems S.graph s.element items = .ok e ∧ Wire.Numbered e.records ∧
      e.missing.Perm ((Value.list items).gather Message.allMissing) ∧
      (Wire.Addressable (Wire.write e.records) → ∀ (levels : Nat) (m : Message),
        m.type.snapshot = S → f ∈ S.graph.allFields m.type.node →
        Decoding.Gives (e.records.foldlM (Decoding.record (Decoding.below levels) levels) m)
          ((Value.list items).levels ≤ levels) ((Value.list items).gather Message.missingFields)
          (Decoding.prepend m f (items.map (Value.settle Graph.leavesOut)))) := by
  have hzero : s.omitsZero = false := Graph.omitsZero_collection hs (by simp [hshape])
  -- Elements are taken in from the first one on, whatever stands in the field by then.
  induction items with
  | nil =>
    refine ⟨{}, by rw [Value.encodingOfItems], Wire.numbered_nil, by simp, fun _ levels m _ _ => ?_⟩
    exact (Decoding.Gives.pure m).congr (by simp) (by simp)
  | cons v more ih =>
    obtain ⟨p, missing, hp⟩ := hitems v List.mem_cons_self
    obtain ⟨e, hencoding, hnumbered, hmissing, hread⟩ :=
      ih fun w hw => hitems w (List.mem_cons_of_mem _ hw)
    have hkeep : s.element.omitsZero = false := hzero
    have hfirst := hp.encoding s.element rfl rfl (by rw [hkeep, Bool.false_and])
    refine ⟨⟨(s.id, p) :: e.records, missing ++ e.missing⟩, ?_, ?_, ?_,
      fun haddr levels m hm hf => ?_⟩
    · rw [Value.encodingOfItems, hfirst, hencoding]
      rfl
    · exact Wire.numbered_cons.mpr ⟨⟨hid, hp.numbered⟩, hnumbered⟩
    · rw [Value.gather_list_cons]
      exact hp.missing.append hmissing
    · have hvalue := hp.read (haddr.of_mem List.mem_cons_self) levels m.type s hm rfl
      have hrecord : Decoding.Gives
          (Decoding.record (Decoding.below levels) levels m (s.id, p)) _ _ _ :=
        Decoding.gives_record hg (Message.graph_of_snapshot hm) hf hs
          (Decoding.gives_field_element hshape hp.layout hvalue)
      have hmore := hread haddr.of_cons levels (Decoding.prepend m f [v.settle Graph.leavesOut])
        (by rw [Decoding.type_prepend, hm]) (by rwa [Decoding.type_prepend])
      rw [List.map_cons, ← Decoding.prepend_cons, Value.gather_list_cons, List.foldlM_cons,
        Value.levels_list_cons]
      exact (hrecord.bind hmore).congr max_le_iff.symm .rfl

/-- A list of atoms is read back from the payloads of its elements. -/
theorem Value.exists_packed (hpackable : s.type.isPackable) {items : List Value}
    (hitems : ∀ v ∈ items, v.Fills S .single s.type) :
    ∃ payloads, items.mapM s.element.atomPayload = .ok payloads ∧
      (∀ p ∈ payloads, p.IsPlain ∧ p.wireType = s.type.wireType) ∧
      payloads.mapM (fun p => Value.atom <$> Decoding.atom s p) = pure items ∧
      (Value.list items).levels = 0 ∧ (∀ paths, (Value.list items).gather paths = []) ∧
      items.map (Value.settle Graph.leavesOut) = items := by
  induction items with
  | nil => exact ⟨[], rfl, by simp, rfl, by simp, by simp, rfl⟩
  | cons v more ih =>
    obtain ⟨payloads, hmapM, hplain, hread, hlevels, hpaths, hsettle⟩ :=
      ih fun w hw => hitems w (List.mem_cons_of_mem _ hw)
    cases hitems v List.mem_cons_self with
    | atom holds =>
      rename_i a
      obtain ⟨p, hp, hatom, hwire, hgroup⟩ := FieldType.payload?_of_holds holds
      refine ⟨p :: payloads, ?_, ?_, ?_, ?_, ?_, ?_⟩
      · refine mapM_cons_eq_ok.mpr ⟨p, payloads, ?_, hmapM, rfl⟩
        have htype : s.element.type = s.type := rfl
        simp only [Slot.atomPayload, Value.atom?, Option.bind_some, htype, hp]
      · refine List.forall_mem_cons.mpr ⟨⟨?_, hwire⟩, hplain⟩
        cases p with
        | bytes content => exact absurd hwire.symm (Decoding.wireType_of_isPackable hpackable)
        | group records => exact absurd rfl (hgroup records)
        | _ => trivial
      · have hpure : Decoding.atom s p = pure a := by
          simp only [Decoding.atom, hatom]
        rw [List.mapM_cons, hread, hpure]
        rfl
      · rw [Value.levels_list_cons, hlevels, Value.levels_atom, max_self]
      · intro paths
        rw [Value.gather_list_cons, hpaths, Value.gather_atom, List.append_nil]
      · rw [List.map_cons, hsettle, Value.settle]
    | message node _ _ _ =>
      cases htype : s.type <;> rw [htype] at hpackable node
      · cases node
      · cases node
      · cases hpackable
      · cases hpackable

/-- A list that is put in the first time stands there from its last element to the first. -/
theorem Decoding.prepend_of_absent {f : NodeId} {m : Message} (h : m.value? f = none)
    (items : List Value) : prepend m f items =
      if items.isEmpty then m else m.insert f (turnValue (.list items)) := by
  rw [prepend, h, List.reverseAux_eq]
  simp only [Option.bind_none, Option.getD_none, List.append_nil]
  rfl

theorem Graph.leavesOut_collection (hs : S.graph.slot? f = some s) (hshape : s.shape ≠ .single)
    (v : Value) : S.graph.leavesOut f v = v.isEmptyCollection := by
  rw [Graph.leavesOut, Graph.omits_eq hs, Graph.omitsZero_collection hs hshape, Bool.false_and,
    Bool.false_or]

/-- The list stands in the field when its elements have been prepended. -/
theorem Decoding.prepend_settled (hs : S.graph.slot? f = some s) (hshape : s.shape = .list)
    (hf : m.value? f = none) (items : List Value) :
    prepend m f (items.map (Value.settle Graph.leavesOut)) =
      if S.graph.leavesOut f (.list items) then m
      else m.insert f (turnValue ((Value.list items).settle Graph.leavesOut)) := by
  rw [prepend_of_absent hf, Graph.leavesOut_collection hs (by simp [hshape]), Value.settle,
    Value.settleItems_eq, Value.isEmptyCollection, List.isEmpty_map]

/-- A list is written as one record for all its elements where it is packed. -/
theorem Value.exists_part_packed (hg : S.graph.Linked) (hs : S.graph.slot? f = some s)
    (hid : s.id ≠ 0) (hshape : s.shape = .list) (hpacked : s.packed) (hpackable : s.isPackable)
    {items : List Value} (hfills : ∀ v ∈ items, v.Fills S .single s.type) :
    ∃ e, Value.Part S f s (.list items) e := by
  have htype : s.type.isPackable := by
    rw [Slot.isPackable, hshape] at hpackable
    simpa using hpackable
  obtain ⟨payloads, hmapM, hplain, hread, hlevels, hpaths, hsettle⟩ :=
    Value.exists_packed htype hfills
  have hencoding : (Value.list items).encoding S.graph s = s.encodePacked items := by
    rw [Value.encoding, hshape]
    simp only [hpacked, hpackable, Bool.and_self, if_true]
  cases items with
  | nil =>
    refine ⟨{}, ?_, Wire.numbered_nil, by simp, fun _ levels m hm => ?_⟩
    · rw [hencoding]
      rfl
    · rw [← Decoding.prepend_settled hs hshape hm.absent]
      exact (Decoding.Gives.pure m).congr (by simp) (by simp)
  | cons v more =>
    refine ⟨.record s.id (.bytes (payloads.flatMap Wire.Payload.content)), ?_, ?_, ?_,
      fun haddr levels m hm => ?_⟩
    · rw [hencoding, Slot.encodePacked, hmapM]
      rfl
    · exact Wire.numbered_cons.mpr ⟨⟨hid, by simp [Wire.Payload.Numbered]⟩, Wire.numbered_nil⟩
    · rw [hpaths]
      exact .rfl
    · have hcontent : Wire.readPacked s.type.wireType
          (.ofBytes (payloads.flatMap Wire.Payload.content)) = .ok payloads :=
        Wire.readPacked_content hplain 0
      have helements : Decoding.Gives
          (Decoding.packed s (payloads.flatMap Wire.Payload.content)) True [] (v :: more) := by
        rw [Decoding.packed, hcontent]
        simp only [hread]
        exact Decoding.Gives.pure _
      have hrecord : Decoding.Gives (Decoding.record (Decoding.below levels) levels m
          (s.id, .bytes (payloads.flatMap Wire.Payload.content))) _ _ _ :=
        Decoding.gives_record hg hm.graph hm.field hs
          (Decoding.gives_field_packed hshape hpackable helements)
      rw [← Decoding.prepend_settled hs hshape hm.absent, hsettle, hlevels, hpaths]
      exact (hrecord.andReturn id).congr (by simp) .rfl

/-- The value of a list field is written as a record for each element, or as one for all. -/
theorem Value.exists_part_list (hg : S.graph.Linked) (hs : S.graph.slot? f = some s)
    (hid : s.id ≠ 0) (hshape : s.shape = .list) {items : List Value}
    (hfills : ∀ v ∈ items, v.Fills S .single s.type)
    (hitems : ∀ v ∈ items, ∃ p missing, Value.Carried S s.type v p missing) :
    ∃ e, Value.Part S f s (.list items) e := by
  by_cases hpacked : (s.packed && s.isPackable) = true
  · obtain ⟨hpacked, hpackable⟩ := Bool.and_eq_true_iff.mp hpacked
    exact Value.exists_part_packed hg hs hid hshape hpacked hpackable hfills
  · obtain ⟨e, hencoding, hnumbered, hmissing, hread⟩ :=
      Value.exists_elements hg hs hid hshape hitems
    refine ⟨e, ?_, hnumbered, hmissing, fun haddr levels m hm => ?_⟩
    · rw [Value.encoding, hshape]
      simp only [hpacked]
      exact hencoding
    · rw [← Decoding.prepend_settled hs hshape hm.absent]
      exact hread haddr levels m hm.snapshot hm.field

/-! ### Maps -/

/-- A key is written as the first half of its entry, and is read back from it. -/
theorem Slot.exists_key (s : Slot) (hzero : s.omitsZero = false) {key : Scalar} {k : Atom}
    (hk : key.holds k) : ∃ p, (s.entryKey key).encodeAtom k = .ok ⟨[(1, p)], []⟩ ∧
      p.Numbered ∧ FieldType.ofPayload (.scalar key) p = .ok k := by
  have hkeep : (s.entryKey key).omitsZero = false := hzero
  obtain ⟨p, hp, hread, -, hgroup⟩ := FieldType.payload?_of_holds (t := .scalar key) hk
  exact ⟨p, Slot.encodeAtom_eq_ok rfl (by rw [hkeep, Bool.false_and]) hp,
    Wire.Payload.numbered_of_ne_group hgroup, hread⟩

/-- An entry is read back from the records of its key and its value. -/
theorem Decoding.gives_entry {key : Scalar} {k : Atom} {v : Value} {kp p : Wire.Payload}
    (hkp : FieldType.ofPayload (.scalar key) kp = .ok k) (hkn : kp.Numbered)
    {missing : List String} (hp : Value.Carried S s.type v p missing)
    (haddr : Wire.Addressable (Wire.write [(1, kp), (2, p)])) (levels levels' : Nat)
    {t : MessageType} (ht : t.snapshot = S) :
    Gives (entry (below levels) levels' t s key (Wire.write [(1, kp), (2, p)]))
      (v.levels ≤ levels) (v.gather Message.missingFields) (k, v.settle Graph.leavesOut) := by
  have hstream : Wire.Stream.ofBytes (Wire.write [(1, kp), (2, p)]) =
      ⟨[(1, kp), (2, p)], .atEnd⟩ := by
    refine Wire.Stream.ofBytes_write ?_ haddr
    have hone : (1 : UInt32) ≠ 0 := by decide
    have htwo : (2 : UInt32) ≠ 0 := by decide
    refine Wire.numbered_cons.mpr ⟨⟨hone, hkn⟩, ?_⟩
    exact Wire.numbered_cons.mpr ⟨⟨htwo, hp.numbered⟩, Wire.numbered_nil⟩
  have hkey : Gives (half (below levels) levels' t s key (none, none) (1, kp)) True []
      (some k, none) := by
    have hatom : atom (s.entryKey key) kp = pure k := by
      have htype : (s.entryKey key).type.ofPayload kp = .ok k := hkp
      rw [atom, htype]
    simp only [half, hatom, if_true]
    exact Gives.pure _
  have hvalue : Gives (half (below levels) levels' t s key (some k, none) (2, p))
      (v.levels ≤ levels) (v.gather Message.missingFields)
      (some k, some (v.settle Graph.leavesOut)) := by
    have hmem : ((2 : UInt32), p) ∈ [(1, kp), (2, p)] := List.mem_cons_of_mem _ List.mem_cons_self
    have hread := hp.read (haddr.of_mem hmem) levels t s.entryValue ht rfl
    exact hread.andReturn fun v => (some k, some v)
  have hhalves : Gives ([(1, kp), (2, p)].foldlM (half (below levels) levels' t s key) (none, none))
      (v.levels ≤ levels) (v.gather Message.missingFields)
      (some k, some (v.settle Graph.leavesOut)) := by
    rw [List.foldlM_cons]
    refine hkey.after ?_
    rw [List.foldlM_cons]
    exact hvalue.andReturn id
  rw [entry, hstream]
  exact hhalves.andReturn fun read => (read.1.getD key.zero, read.2.getD (absentHalf t s.type))

/-- The message with a map in a field, unless the map is empty. -/
def Message.withMap (m : Message) (f : NodeId) (map : MapValue) : Message :=
  if map.entries.isEmpty then m else m.insert f (.map map)

theorem Message.type_withMap (m : Message) (f : NodeId) (map : MapValue) :
    (m.withMap f map).type = m.type := by
  rw [withMap]
  split <;> rfl

/-- An entry whose key lies beyond all others is put at the end of the map. -/
theorem Message.putEntry_withMap (hm : m.type.snapshot = S) (hf : m.value? f = none) {key : Scalar}
    {done : List (Atom × Value)} {k : Atom} {v : Value}
    (hk : ∀ e ∈ done, e.1.keyText < k.keyText) :
    (m.withMap f ⟨key, s.type, some S, done⟩).putEntry f s key k v =
      m.withMap f ⟨key, s.type, some S, done ++ [(k, v)]⟩ := by
  have hinsert : MapValue.insert ⟨key, s.type, some S, done⟩ k v =
      ⟨key, s.type, some S, done ++ [(k, v)]⟩ := by
    rw [MapValue.insert]
    exact congrArg (MapOf.mk key s.type (some S)) (Keyed.insert_eq_append hk)
  have hright : m.withMap f ⟨key, s.type, some S, done ++ [(k, v)]⟩ =
      m.insert f (.map ⟨key, s.type, some S, done ++ [(k, v)]⟩) := by
    rw [withMap, if_neg (by simp)]
  cases done with
  | nil =>
    have hleft : m.withMap f ⟨key, s.type, some S, []⟩ = m := rfl
    rw [hright, hleft, putEntry, hf, emptyMap, hm]
    rfl
  | cons e more =>
    rw [hright, withMap, if_neg (by simp), putEntry, value?_insert, if_pos rfl]
    simp only [hinsert, insert_insert]

/-- The record of an entry puts it at the end of the map, if its key lies beyond all others. -/
theorem Decoding.gives_record_entry (hg : S.graph.Linked) (hs : S.graph.slot? f = some s)
    (hm : m.Awaits S f) {key : Scalar} (hshape : s.shape = .map key) {k : Atom} {v : Value}
    {kp p : Wire.Payload} (hkp : FieldType.ofPayload (.scalar key) kp = .ok k) (hkn : kp.Numbered)
    {missing : List String} (hp : Value.Carried S s.type v p missing)
    (haddr : Wire.Addressable (Wire.write [(1, kp), (2, p)])) (levels : Nat)
    {done : List (Atom × Value)} (hdone : ∀ e ∈ done, e.1.keyText < k.keyText) :
    Gives (record (below levels) levels (m.withMap f ⟨key, s.type, some S, done⟩)
        (s.id, .bytes (Wire.write [(1, kp), (2, p)])))
      (v.levels ≤ levels) (v.gather Message.missingFields)
      (m.withMap f ⟨key, s.type, some S, done ++ [(k, v.settle Graph.leavesOut)]⟩) := by
  have htype := Message.type_withMap m f ⟨key, s.type, some S, done⟩
  have hentry := gives_entry hkp hkn hp haddr levels levels
    (t := (m.withMap f ⟨key, s.type, some S, done⟩).type) (by rw [htype, hm.snapshot])
  rw [← Message.putEntry_withMap hm.snapshot hm.absent hdone]
  exact gives_record hg (by rw [Message.graph, htype]; exact hm.graph)
    (by rw [htype]; exact hm.field) hs (gives_field_entry hshape hentry)

/-- Entries that are written one by one make a map. -/
theorem Value.exists_entries (hg : S.graph.Linked) (hs : S.graph.slot? f = some s) (hid : s.id ≠ 0)
    {key : Scalar} (hshape : s.shape = .map key) {entries : List (Atom × Value)}
    (hkeys : ∀ e ∈ entries, key.holds e.1)
    (hvalues : ∀ e ∈ entries, ∃ p missing, Value.Carried S s.type e.2 p missing) :
    ∃ e, Value.encodingOfEntries S.graph s key entries = .ok e ∧ Wire.Numbered e.records ∧
      e.missing.Perm
        ((Value.map ⟨key, s.type, some S, entries⟩).gather Message.allMissing) ∧
      (Wire.Addressable (Wire.write e.records) →
        ∀ (levels : Nat) (m : Message) (done : List (Atom × Value)), m.Awaits S f →
        Keyed.Ascending (fun e => e.1.keyText) (done ++ entries) →
        Decoding.Gives (e.records.foldlM (Decoding.record (Decoding.below levels) levels)
            (m.withMap f ⟨key, s.type, some S, done⟩))
          ((Value.map ⟨key, s.type, some S, entries⟩).levels ≤ levels)
          ((Value.map ⟨key, s.type, some S, entries⟩).gather Message.missingFields)
          (m.withMap f ⟨key, s.type, some S,
            done ++ entries.map fun e => (e.1, e.2.settle Graph.leavesOut)⟩)) := by
  have hzero : s.omitsZero = false := Graph.omitsZero_collection hs (by simp [hshape])
  -- Entries are taken in behind those that are done, whose keys are all smaller.
  induction entries with
  | nil =>
    refine ⟨{}, by rw [Value.encodingOfEntries], Wire.numbered_nil, by simp,
      fun _ levels m done _ _ => ?_⟩
    rw [List.map_nil, List.append_nil]
    exact (Decoding.Gives.pure _).congr (by simp) (by simp)
  | cons e more ih =>
    obtain ⟨k, v⟩ := e
    obtain ⟨p, missing, hp⟩ := hvalues (k, v) List.mem_cons_self
    have hk := hkeys (k, v) List.mem_cons_self
    obtain ⟨e, hencoding, hnumbered, hmissing, hread⟩ :=
      ih (fun e he => hkeys e (List.mem_cons_of_mem _ he))
        fun e he => hvalues e (List.mem_cons_of_mem _ he)
    obtain ⟨kp, hkeyEncoding, hkn, hkread⟩ := s.exists_key hzero hk
    have hkeep : s.entryValue.omitsZero = false := hzero
    have hvalueEncoding := hp.encoding s.entryValue rfl rfl (by rw [hkeep, Bool.false_and])
    refine ⟨⟨(s.id, .bytes (Wire.write [(1, kp), (2, p)])) :: e.records, missing ++ e.missing⟩,
      ?_, ?_, ?_, fun haddr levels m done hm hascending => ?_⟩
    · rw [Value.encodingOfEntries, hkeyEncoding, hvalueEncoding, hencoding]
      rfl
    · exact Wire.numbered_cons.mpr ⟨⟨hid, by simp [Wire.Payload.Numbered]⟩, hnumbered⟩
    · rw [Value.gather_map_cons]
      exact hp.missing.append hmissing
    · have hbelow : ∀ e ∈ done, e.1.keyText < k.keyText := fun e he =>
        (List.pairwise_append.mp hascending).2.2 e he (k, v) List.mem_cons_self
      have hrecord := Decoding.gives_record_entry hg hs hm hshape hkread hkn hp
        (haddr.of_mem List.mem_cons_self).of_bytes levels hbelow
      have hmore := hread haddr.of_cons levels m (done ++ [(k, v.settle Graph.leavesOut)]) hm (by
        rw [Keyed.ascending_iff] at hascending ⊢
        simpa using hascending)
      rw [List.append_assoc] at hmore
      rw [List.map_cons, Value.gather_map_cons, List.foldlM_cons, Value.levels_map_cons]
      exact (hrecord.bind hmore).congr max_le_iff.symm .rfl

/-- The value of a map field is written as a record for each entry. -/
theorem Value.exists_part_map (hg : S.graph.Linked) (hs : S.graph.slot? f = some s) (hid : s.id ≠ 0)
    {key : Scalar} (hshape : s.shape = .map key) {entries : List (Atom × Value)}
    (hascending : Keyed.Ascending (fun e => e.1.keyText) entries)
    (hkeys : ∀ e ∈ entries, key.holds e.1)
    (hvalues : ∀ e ∈ entries, ∃ p missing, Value.Carried S s.type e.2 p missing) :
    ∃ e, Value.Part S f s (.map ⟨key, s.type, some S, entries⟩) e := by
  obtain ⟨e, hencoding, hnumbered, hmissing, hread⟩ :=
    Value.exists_entries hg hs hid hshape hkeys hvalues
  refine ⟨e, ?_, hnumbered, hmissing, fun haddr levels m hm => ?_⟩
  · rw [Value.encoding, hshape]
    exact hencoding
  · have hleaves := Graph.leavesOut_collection hs (by simp [hshape])
      (.map ⟨key, s.type, some S, entries⟩)
    have hgives := hread haddr levels m [] hm hascending
    rw [List.nil_append, Message.withMap, Message.withMap, List.isEmpty_map] at hgives
    rw [hleaves, Value.settle, Value.settleEntries_eq]
    exact hgives

/-- The value of a field can be written and read back, if the messages in it can be sent. -/
theorem Value.Fills.exists_part (hg : S.graph.Linked) (hs : S.graph.slot? f = some s) {v : Value}
    (h : v.Fills S s.shape s.type) {depth : Nat}
    (hsent : ∀ m : Message, m.WellTyped S → m.depth < depth → ∃ e, m.Sent e)
    (hv : v.levels ≤ depth) : ∃ e, Value.Part S f s v e := by
  have hid : s.id ≠ 0 := by
    obtain ⟨fn, -, hfn, -, hid, -⟩ := Graph.slot?_eq_some hs
    rw [hid]
    exact hg.fieldId f fn hfn
  generalize hshape : s.shape = shape at h
  generalize htype : s.type = t at h
  cases h with
  | atom holds =>
    obtain ⟨p, missing, hp⟩ := Value.Fills.exists_carried (.atom holds) hsent hv
    exact (htype ▸ hp).part hg hs hid hshape (htype ▸ .atom holds)
  | message node snapshot regular fields =>
    have hfills : Value.Fills S .single t (.message _) := .message node snapshot regular fields
    obtain ⟨p, missing, hp⟩ := hfills.exists_carried hsent hv
    exact (htype ▸ hp).part hg hs hid hshape (htype ▸ hfills)
  | list fills =>
    subst htype
    rw [Value.levels, Value.levelsOfItems_le_iff] at hv
    exact Value.exists_part_list hg hs hid hshape fills fun v hmem =>
      (fills v hmem).exists_carried hsent (hv v hmem)
  | map ascending keys values =>
    subst htype
    rw [Value.levels, Value.levelsOfEntries_le_iff] at hv
    exact Value.exists_part_map hg hs hid hshape ascending keys fun e hmem =>
      (values e hmem).exists_carried hsent (hv e hmem)

end

end Protobuf

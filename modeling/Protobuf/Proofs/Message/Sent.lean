import Mathlib.Data.List.Nodup
import Protobuf.Proofs.Message.Part

/-!
# Messages on the wire

A message is written field by field, in the order of its fields, and is read back field by field.
The writer passes over fields that are absent, and notes those that are required; the reader begins
with a message of which nothing is present, and each field waits for its records until they come.
Messages nest, so that all of this is shown by induction on how deep they do.

## Main definitions

* `Message.restore` — what the records of one field add to a message that is being read.
* `Message.Pending` — some fields of a message that is being read are still to come.
* `Message.SentFields` — some fields have been written, and are read back.

## Main results

* `Message.WellTyped.exists_sent` — every well-typed message can be written and read back
-/

namespace Protobuf

namespace Encoding

@[simp] theorem append_empty (e : Encoding) : e.append {} = e := by
  rw [append, List.append_nil, List.append_nil]

theorem append_assoc (e e' e'' : Encoding) :
    (e.append e').append e'' = e.append (e'.append e'') := by
  simp only [append, List.append_assoc]

end Encoding

namespace Message

variable (m : Message)

/-- The paths that belong to the messages in a field. -/
def gatherField (paths : Message → List String) (f : NodeId) : List String :=
  (m.value? f).elim [] (Value.gather paths)

/-- The message `acc`, which is being read, with what the records of a field add to it. -/
def restore (acc : Message) (f : NodeId) : Message :=
  match m.value? f with
  | none => acc
  | some v =>
    if m.graph.leavesOut f v then acc
    else acc.insert f (Decoding.turnValue (v.settle Graph.leavesOut))

/-! ### Order of fields -/

variable {m}

/-- What a field that is present is written as. -/
def writtenField (g : Graph) (e : NodeId × Value) : NodeId × Except EncodeError Encoding :=
  (e.1, match g.slot? e.1 with
    | some s => e.2.encoding g s
    | none => .error (.unresolvedField (g.fieldLabel e.1)))

theorem encodingOfFields_eq (g : Graph) (entries : List (NodeId × Value)) :
    Value.encodingOfFields g entries = entries.map (writtenField g) := by
  induction entries with
  | nil => rw [Value.encodingOfFields, List.map_nil]
  | cons e more ih =>
    rw [Value.encodingOfFields, List.map_cons, ih]
    cases hs : g.slot? e.1 with
    | none => simp only [writtenField, hs]
    | some s => simp only [writtenField, hs]

/-- The fields that are present, in the order of the type, are the entries in another order. -/
theorem perm_entries {fields : List NodeId} (hfields : fields.Nodup)
    (hm : Keyed.Ascending Prod.fst m.entries)
    (hknown : ∀ f v, m.value? f = some v → f ∈ fields) (paths : Message → List String) :
    (fields.flatMap (m.gatherField paths)).Perm (m.entries.flatMap fun e => e.2.gather paths) := by
  have hpresent : ∀ fields : List NodeId, fields.flatMap (m.gatherField paths) =
      (fields.filterMap fun f => (m.value? f).map fun v => (f, v)).flatMap
        fun e => e.2.gather paths := by
    intro fields
    induction fields with
    | nil => rfl
    | cons f more ih =>
      rw [List.flatMap_cons, List.filterMap_cons, ih, gatherField]
      cases m.value? f with
      | none => rfl
      | some v => rw [Option.elim_some, Option.map_some, List.flatMap_cons]
  rw [hpresent]
  -- neither list has a field twice, and they have the same members
  refine List.Perm.flatMap_right _ ((List.perm_ext_iff_of_nodup ?_ hm.nodup).mpr fun e => ?_)
  · refine List.Nodup.filterMap (fun f f' e he he' => ?_) hfields
    obtain ⟨v, -, rfl⟩ := Option.map_eq_some_iff.mp he
    obtain ⟨v', -, heq⟩ := Option.map_eq_some_iff.mp he'
    exact (congrArg Prod.fst heq).symm
  · rw [List.mem_filterMap]
    constructor
    · rintro ⟨f, -, he⟩
      obtain ⟨v, hv, rfl⟩ := Option.map_eq_some_iff.mp he
      exact mem_of_value? hv
    · intro he
      have hv := value?_of_mem hm he
      exact ⟨e.1, hknown e.1 e.2 hv, by rw [hv]; rfl⟩

/-! ### Writing fields -/

section

variable {S : Snapshot}

/-- The records are put into a frame, or go along with the error in it. -/
theorem encodeFramed_eq {m : Message} {e : Encoding} (h : m.encoding = .ok e)
    (frame : List UInt8 → List UInt8) :
    m.encodeFramed frame = if e.missing.isEmpty then .ok (frame e.bytes)
      else .error (.missingRequired e.missing (frame e.bytes)) := by
  rw [encodeFramed, h]
  rfl

/-- What the writer does for one field. -/
def writeField (m : Message) (e : Encoding) (f : NodeId) : Except EncodeError Encoding :=
  match Keyed.find? Prod.fst f (Value.encodingOfFields m.graph m.entries) with
  | some (_, part) => part.map e.append
  | none =>
    if (m.graph.field? f).any fun fn => fn.rule = .required then
      .ok (e.append ⟨[], [m.graph.fqn f]⟩)
    else .ok e

theorem encoding_eq (m : Message) :
    m.encoding = (m.graph.allFields m.type.node).foldlM m.writeField {} :=
  rfl

theorem find?_encodingOfFields (m : Message) (f : NodeId) :
    Keyed.find? Prod.fst f (Value.encodingOfFields m.graph m.entries) =
      (m.value? f).map fun v => writtenField m.graph (f, v) := by
  have hkey : ∀ e, (writtenField m.graph e).1 = e.1 := fun _ => rfl
  rw [encodingOfFields_eq, Keyed.find?_map Prod.fst hkey, value?, Option.map_map]
  cases hfind : Keyed.find? Prod.fst f m.entries with
  | none => rfl
  | some e =>
    rw [← Keyed.key_of_find? hfind]
    rfl

theorem absentRequired_singleton {m : Message} {f : NodeId} (h : m.value? f = none) :
    m.absentRequired [f] =
      if (m.graph.field? f).any fun fn => fn.rule = .required then [m.graph.fqn f] else [] := by
  simp only [absentRequired, h, Option.isNone_none, Bool.and_true, List.filter_cons,
    List.filter_nil]
  split <;> rfl

theorem writeField_of_none {m : Message} {f : NodeId} (h : m.value? f = none) (e : Encoding) :
    m.writeField e f = .ok (e.append ⟨[], m.absentRequired [f]⟩) := by
  rw [writeField, find?_encodingOfFields, h, absentRequired_singleton h]
  simp only [Option.map_none]
  split
  · rfl
  · exact congrArg Except.ok e.append_empty.symm

theorem writeField_of_some {m : Message} (hm : m.graph = S.graph) {f : NodeId} {v : Value}
    {s : Slot} {part : Encoding} (h : m.value? f = some v) (hs : S.graph.slot? f = some s)
    (hpart : v.encoding S.graph s = .ok part) (e : Encoding) :
    m.writeField e f = .ok (e.append part) := by
  rw [writeField, find?_encodingOfFields, h, hm]
  simp only [writtenField, hs, hpart, Option.map_some]
  rfl

/-! ### Reading fields -/

theorem type_restore (m acc : Message) (f : NodeId) : (m.restore acc f).type = acc.type := by
  rw [restore]
  split
  · rfl
  · split <;> rfl

theorem value?_restore (m acc : Message) (f f' : NodeId) :
    (m.restore acc f).value? f' =
      if f = f' then (((m.value? f').filter fun v => !m.graph.leavesOut f' v).map fun v =>
        Decoding.turnValue (v.settle Graph.leavesOut)).or (acc.value? f') else acc.value? f' := by
  cases hv : m.value? f with
  | none =>
    rw [restore, hv]
    by_cases heq : f = f'
    · rw [if_pos heq, ← heq, hv]
      rfl
    · rw [if_neg heq]
  | some v =>
    simp only [restore, hv]
    split
    · rename_i hleaves
      split
      · rename_i heq
        rw [← heq, hv, Option.filter_some, hleaves]
        rfl
      · rfl
    · rename_i hleaves
      rw [value?_insert]
      split
      · rename_i heq
        rw [← heq, hv, Option.filter_some, Bool.eq_false_iff.mpr hleaves]
        rfl
      · rfl

theorem value?_foldl_restore (m : Message) (fields : List NodeId) (acc : Message) (f : NodeId) :
    (fields.foldl m.restore acc).value? f =
      if f ∈ fields then (((m.value? f).filter fun v => !m.graph.leavesOut f v).map fun v =>
        Decoding.turnValue (v.settle Graph.leavesOut)).or (acc.value? f) else acc.value? f := by
  induction fields generalizing acc with
  | nil => simp
  | cons f' more ih =>
    rw [List.foldl_cons, ih, value?_restore]
    by_cases hmem : f ∈ more
    · by_cases heq : f' = f
      · rw [if_pos hmem, if_pos heq, if_pos (List.mem_cons_of_mem _ hmem), ← Option.or_assoc,
          Option.or_self]
      · rw [if_pos hmem, if_neg heq, if_pos (List.mem_cons_of_mem _ hmem)]
    · by_cases heq : f' = f
      · rw [if_neg hmem, if_pos heq, if_pos (heq ▸ List.mem_cons_self)]
      · rw [if_neg hmem, if_neg heq, if_neg]
        rw [List.mem_cons, not_or]
        exact ⟨fun h => heq h.symm, hmem⟩

theorem ascending_foldl_restore (m : Message) (fields : List NodeId) {acc : Message}
    (h : Keyed.Ascending Prod.fst acc.entries) :
    Keyed.Ascending Prod.fst (fields.foldl m.restore acc).entries := by
  induction fields generalizing acc with
  | nil => exact h
  | cons f more ih =>
    refine ih ?_
    rw [restore]
    split
    · exact h
    · split
      · exact h
      · exact h.insert _

theorem type_foldl_restore (m : Message) (fields : List NodeId) (acc : Message) :
    (fields.foldl m.restore acc).type = acc.type := by
  induction fields generalizing acc with
  | nil => rfl
  | cons f more ih => exact (ih _).trans (type_restore m acc f)

/-- The message `acc` is being read as `m`. Whatever is in it already is in `m`, and the given
fields are still to come. -/
structure Pending (m : Message) (fields : List NodeId) (acc : Message) : Prop where
  type : acc.type = m.type
  absent : ∀ f ∈ fields, acc.value? f = none
  present : ∀ f v, acc.value? f = some v → (m.value? f).isSome

section Pending

variable {m acc : Message} {fields fields' : List NodeId}

theorem pending_empty (m : Message) (fields : List NodeId) : m.Pending fields (empty m.type) :=
  ⟨rfl, fun _ _ => rfl, fun f v hv => by cases hv⟩

theorem Pending.left (h : m.Pending (fields ++ fields') acc) : m.Pending fields acc :=
  ⟨h.type, fun f hf => h.absent f (List.mem_append_left _ hf), h.present⟩

/-- When some fields have been read, the others are still to come. -/
theorem Pending.restore (h : m.Pending (fields ++ fields') acc) (hapart : fields.Disjoint fields') :
    m.Pending fields' (fields.foldl m.restore acc) := by
  refine ⟨(type_foldl_restore m fields acc).trans h.type, fun f hf => ?_, fun f v hv => ?_⟩
  · rw [value?_foldl_restore, if_neg fun hmem => hapart hmem hf]
    exact h.absent f (List.mem_append_right _ hf)
  · rw [value?_foldl_restore] at hv
    split at hv
    · rcases Option.or_eq_some_iff.mp hv with hv | ⟨-, hv⟩
      · obtain ⟨w, hw, -⟩ := Option.map_eq_some_iff.mp hv
        rw [(Option.filter_eq_some_iff.mp hw).1]
        rfl
      · exact h.present f v hv
    · exact h.present f v hv

/-- What is in a message that is being read does not compete with what is still to come. -/
theorem Pending.awaits (hm : m.WellTyped S) {f : NodeId} {v : Value} (h : m.Pending [f] acc)
    (hf : f ∈ S.graph.allFields m.type.node) (hv : m.value? f = some v) : acc.Awaits S f := by
  have habsent := h.absent f List.mem_cons_self
  refine ⟨by rw [h.type, hm.snapshot], by rwa [h.type], habsent, fun f' v' hv' hcompete => ?_⟩
  obtain ⟨w, hw⟩ := Option.isSome_iff_exists.mp (h.present f' v' hv')
  have heq := hm.regular.apart f f' v w hv hw (hm.graph ▸ hcompete)
  rw [← heq, habsent] at hv'
  cases hv'

end Pending

/-- Some fields of a message are written as `e`, and are read back into a message in which they are
still to come. -/
structure SentFields (S : Snapshot) (m : Message) (fields : List NodeId) (e : Encoding) :
    Prop where
  encoding : ∀ e₀, fields.foldlM m.writeField e₀ = .ok (e₀.append e)
  numbered : Wire.Numbered e.records
  missing : e.missing.Perm
    (m.absentRequired fields ++ fields.flatMap (m.gatherField Message.allMissing))
  read : Wire.Addressable (Wire.write e.records) → ∀ (levels : Nat) (acc : Message),
    m.Pending fields acc →
    Decoding.Gives (e.records.foldlM (Decoding.record (Decoding.below levels) levels) acc)
      (∀ f ∈ fields, ∀ v, m.value? f = some v → v.levels ≤ levels)
      (fields.flatMap (m.gatherField Message.missingFields)) (fields.foldl m.restore acc)

section SentFields

variable {m : Message} {fields fields' : List NodeId} {e e' : Encoding} {f : NodeId}

theorem sentFields_nil : m.SentFields S [] {} := by
  refine ⟨fun e₀ => ?_, Wire.numbered_nil, .rfl, fun _ levels acc _ => ?_⟩
  · rw [Encoding.append_empty]
    rfl
  · exact (Decoding.Gives.pure acc).congr (by simp) .rfl

theorem SentFields.append (h : m.SentFields S fields e) (h' : m.SentFields S fields' e')
    (hapart : fields.Disjoint fields') : m.SentFields S (fields ++ fields') (e.append e') := by
  refine ⟨fun e₀ => ?_, Wire.numbered_append.mpr ⟨h.numbered, h'.numbered⟩, ?_,
    fun haddr levels acc hacc => ?_⟩
  · rw [List.foldlM_append, h.encoding]
    show fields'.foldlM m.writeField _ = _
    rw [h'.encoding, Encoding.append_assoc]
  · have hmissing := h.missing.append h'.missing
    rw [List.append_assoc] at hmissing
    rw [absentRequired_append, List.flatMap_append, List.append_assoc]
    exact hmissing.trans ((List.perm_append_comm_assoc _ _ _).append_left _)
  · obtain ⟨haddr, haddr'⟩ := Wire.addressable_append haddr
    have hrecords : (e.append e').records = e.records ++ e'.records := rfl
    have hfirst := h.read haddr levels acc hacc.left
    have hmore := h'.read haddr' levels _ (hacc.restore hapart)
    rw [hrecords, List.foldlM_append, List.flatMap_append, List.foldl_append]
    exact (hfirst.bind hmore).congr List.forall_mem_append.symm .rfl

/-- Nothing is written for a field that is absent, but it may be noted. -/
theorem sentFields_absent (hv : m.value? f = none) :
    m.SentFields S [f] ⟨[], m.absentRequired [f]⟩ := by
  have hnothing : ∀ paths, [f].flatMap (m.gatherField paths) = [] := by
    intro paths
    rw [List.flatMap_singleton, gatherField, hv, Option.elim_none]
  refine ⟨fun e₀ => ?_, Wire.numbered_nil, ?_, fun _ levels acc _ => ?_⟩
  · rw [List.foldlM_cons, writeField_of_none hv]
    rfl
  · rw [hnothing, List.append_nil]
  · have hstay : [f].foldl m.restore acc = acc := by
      rw [List.foldl_cons, List.foldl_nil, restore, hv]
    rw [hnothing, hstay]
    exact (Decoding.Gives.pure acc).congr (by simp [hv]) .rfl

/-- A field that is present is written as its part of the message. -/
theorem WellTyped.sentFields_part (hm : m.WellTyped S) {v : Value} {s : Slot}
    (hf : f ∈ S.graph.allFields m.type.node) (hv : m.value? f = some v)
    (hs : S.graph.slot? f = some s) (he : Value.Part S f s v e) : m.SentFields S [f] e := by
  have hpresent : ∀ paths, [f].flatMap (m.gatherField paths) = v.gather paths := by
    intro paths
    rw [List.flatMap_singleton, gatherField, hv, Option.elim_some]
  refine ⟨fun e₀ => ?_, he.numbered, ?_, fun haddr levels acc hacc => ?_⟩
  · rw [List.foldlM_cons, writeField_of_some hm.graph hv hs he.encoding]
    rfl
  · have hrequired : m.absentRequired [f] = [] := by
      simp [absentRequired, hv]
    rw [hpresent, hrequired, List.nil_append]
    exact he.missing
  · have hrestore : [f].foldl m.restore acc = if S.graph.leavesOut f v then acc
        else acc.insert f (Decoding.turnValue (v.settle Graph.leavesOut)) := by
      rw [List.foldl_cons, List.foldl_nil, restore, hv, hm.graph]
    rw [hpresent, hrestore]
    exact (he.read haddr levels acc (hacc.awaits hm hf hv)).congr (by simp [hv]) .rfl

/-- Fields are written one after the other, and are read back in the same order. -/
theorem WellTyped.exists_sentFields (hm : m.WellTyped S)
    (hparts : ∀ f v s, m.value? f = some v → S.graph.slot? f = some s →
      ∃ e, Value.Part S f s v e) (hnodup : fields.Nodup)
    (hfields : ∀ f ∈ fields, f ∈ S.graph.allFields m.type.node) : ∃ e, m.SentFields S fields e := by
  induction fields with
  | nil => exact ⟨{}, sentFields_nil⟩
  | cons f more ih =>
    obtain ⟨hnotMem, hnodup⟩ := List.nodup_cons.mp hnodup
    obtain ⟨e, he⟩ := ih hnodup fun f hf => hfields f (List.mem_cons_of_mem _ hf)
    have hfirst : ∃ e, m.SentFields S [f] e := by
      cases hv : m.value? f with
      | none => exact ⟨_, sentFields_absent hv⟩
      | some v =>
        obtain ⟨-, s, hs⟩ := hm.regular.known f v hv
        rw [hm.graph] at hs
        obtain ⟨e, he⟩ := hparts f v s hv hs
        exact ⟨e, hm.sentFields_part (hfields f List.mem_cons_self) hv hs he⟩
    obtain ⟨e₁, he₁⟩ := hfirst
    exact ⟨e₁.append e, he₁.append he (List.singleton_disjoint.mpr hnotMem)⟩

end SentFields

/-! ### Whole messages -/

/-- When all fields have been read, everything but what is left out is there. -/
theorem WellTyped.turn_restore {m : Message} (hm : m.WellTyped S) :
    Decoding.turn ((S.graph.allFields m.type.node).foldl m.restore (Message.empty m.type)) =
      m.strip Graph.leavesOut := by
  have hturn : ∀ v, Decoding.turnValue (Decoding.turnValue v) = v := by
    intro v
    cases v with
    | list items => simp [Decoding.turnValue]
    | _ => rfl
  have hstrip : Keyed.Ascending Prod.fst (m.strip Graph.leavesOut).entries := by
    rw [strip, Value.settleFields_eq]
    exact Keyed.Ascending.map (fun _ => rfl) (hm.regular.ascending.filter _)
  have hempty : Keyed.Ascending Prod.fst (Message.empty m.type).entries := Keyed.ascending_nil
  have hascending := ascending_foldl_restore m (S.graph.allFields m.type.node) hempty
  refine eq_of_value?_eq (type_foldl_restore m _ _) (hascending.map Decoding.fst_turnEntry) hstrip
    fun f => ?_
  rw [Decoding.value?_turn, value?_foldl_restore, value?_strip hm.regular.ascending]
  split
  · rw [value?_empty, Option.or_none, Option.map_map]
    congr 1
    exact funext fun v => hturn _
  · rename_i hnot
    cases hv : m.value? f with
    | none => rfl
    | some v =>
      have hknown := (hm.regular.known f v hv).1
      rw [hm.graph] at hknown
      exact absurd hknown hnot

/-- A field of which a value is left out is not required. -/
theorem rule_of_leavesOut {f : NodeId} {s : Slot} {v : Value} (hs : S.graph.slot? f = some s)
    (hv : v.Fills S s.shape s.type) (h : S.graph.leavesOut f v) :
    (S.graph.field? f).any (fun fn => fn.rule = .required) = false := by
  obtain ⟨fn, l, hfn, -, -, -, homits, hlist, hmap, -⟩ := Graph.slot?_eq_some hs
  rw [hfn, Option.any_some, decide_eq_false_iff_not]
  rw [Graph.leavesOut, Bool.or_eq_true, Graph.omits_eq hs, Bool.and_eq_true, homits,
    FieldNode.hasImplicitPresence] at h
  rcases h with ⟨h, -⟩ | h
  · simp only [Bool.and_eq_true, decide_eq_true_eq] at h
    simp [h.1.1]
  · have hne := hv.shape_of_isEmptyCollection h
    cases hshape : s.shape with
    | single => exact absurd hshape hne
    | list => simp [hlist hshape]
    | map key => simp [hmap key hshape]

/-- No required field is left out. -/
theorem WellTyped.missingFields_strip {m : Message} (hm : m.WellTyped S) :
    (m.strip Graph.leavesOut).missingFields = m.missingFields := by
  have hgraph : (m.strip Graph.leavesOut).graph = m.graph := rfl
  rw [missingFields_eq, missingFields_eq, hgraph]
  show absentRequired _ (m.graph.ownFields m.type.node) = _
  rw [absentRequired, absentRequired, hgraph]
  congr 1
  refine List.filter_congr fun f _ => ?_
  rw [value?_strip hm.regular.ascending]
  cases hv : m.value? f with
  | none => rfl
  | some v =>
    obtain ⟨-, s, hs⟩ := hm.regular.known f v hv
    rw [hm.graph] at hs ⊢
    by_cases hleaves : S.graph.leavesOut f v
    · rw [rule_of_leavesOut hs (hm.fills hv hs) hleaves]
      rfl
    · rw [Option.filter_some, Bool.eq_false_iff.mpr hleaves]
      rfl

theorem gather_message (m : Message) (paths : Message → List String) :
    (Value.message m).gather paths = paths m ++ m.entries.flatMap fun e => e.2.gather paths := by
  rw [Value.gather, messages_message, messages, List.flatMap_cons, Value.messagesOfFields_eq,
    List.flatMap_assoc]
  rfl

theorem depth_le_iff {m : Message} (hm : m.WellTyped S) {levels : Nat} :
    m.depth ≤ levels ↔ ∀ f ∈ S.graph.allFields m.type.node, ∀ v, m.value? f = some v →
      v.levels ≤ levels := by
  rw [depth, Value.levelsOfFields_le_iff]
  constructor
  · intro h f _ v hv
    exact h _ (mem_of_value? hv)
  · intro h e he
    have hv := value?_of_mem hm.regular.ascending he
    exact h e.1 (hm.graph ▸ (hm.regular.known e.1 e.2 hv).1) e.2 hv

/-- A message is read back when the records of all its fields have been read. -/
theorem SentFields.sent (hg : S.graph.Linked) {m : Message} (hm : m.WellTyped S) {e : Encoding}
    (he : m.SentFields S (S.graph.allFields m.type.node) e) : m.Sent e := by
  have hperm := fun paths => perm_entries (hg.nodup_allFields m.type.node) hm.regular.ascending
    (fun f v hv => hm.graph ▸ (hm.regular.known f v hv).1) paths
  refine ⟨?_, he.numbered, ?_, fun haddr levels => ?_⟩
  · rw [encoding_eq, hm.graph, he.encoding]
    rfl
  · have hmissing : m.absentRequired (S.graph.allFields m.type.node) = m.allMissing := by
      rw [allMissing, missingFields_eq, missingExtensions, ← absentRequired_append, hm.graph]
      rfl
    rw [gather_message, ← hmissing]
    exact he.missing.trans ((hperm allMissing).append_left _)
  · have hread := he.read haddr levels _ (m.pending_empty _)
    -- When the records end, what is absent is noted and the defaults are filled in.
    have hend : Decoding.Gives (do
        modify (· ++ (Decoding.turn ((S.graph.allFields m.type.node).foldl m.restore
          (Message.empty m.type))).missingFields)
        return (Decoding.turn ((S.graph.allFields m.type.node).foldl m.restore
          (Message.empty m.type))).populate) True m.missingFields m.canonical := by
      rw [hm.turn_restore, hm.missingFields_strip]
      exact (Decoding.Gives.note m.missingFields).andReturn fun _ => m.canonical
    rw [Decoding.message_eq, Decoding.messageWith, gather_message]
    refine (hread.bind hend).congr ?_ ?_
    · rw [and_true, depth_le_iff hm]
    · exact List.perm_append_comm.trans ((hperm missingFields).append_left _)

/-- Every well-typed message can be written, and is read back from what has been written. -/
theorem WellTyped.exists_sent (hg : S.graph.Linked) {m : Message} (hm : m.WellTyped S) :
    ∃ e, m.Sent e := by
  have hdepth : ∀ depth (m : Message), m.WellTyped S → m.depth < depth → ∃ e, m.Sent e := by
    intro depth
    induction depth with
    | zero => exact fun m _ h => absurd h (Nat.not_lt_zero _)
    | succ depth ih =>
      intro m hm hlt
      obtain ⟨e, he⟩ := hm.exists_sentFields (fun f v s hv hs =>
        (hm.fills hv hs).exists_part hg hs ih (by
          have hfield := (hm.regular.known f v hv).1
          rw [hm.graph] at hfield
          exact (depth_le_iff hm).mp (Nat.le_of_lt_succ hlt) f hfield v hv))
        (hg.nodup_allFields m.type.node) fun f hf => hf
      exact ⟨e, he.sent hg hm⟩
  exact hdepth (m.depth + 1) m hm (Nat.lt_succ_self _)

end

end Message

end Protobuf

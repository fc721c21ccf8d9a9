import Protobuf.Message.Basic
import Protobuf.Proofs.Graph.Linked
import Protobuf.Proofs.Keyed

/-!
# Well-typed messages

A value fills a slot if it is kept there in the one form in which values of its type are kept, and
a message is well typed if each of its values fills the slot of its field. Two things are asked of a
message beyond that: its fields are kept in their order, and of the fields of a oneof at most one is
present.

A message is changed field by field, so every change comes down to putting a value into a field that
competes with none that is present, and to taking a value away.

## Main definitions

* `Message.Regular` — the fields of a message are known, in order, and do not compete.
* `Value.Fills` — a value is kept as a slot of some shape and type keeps it.
* `Message.WellTyped` — a message of a snapshot all of whose values fill their slots.

## Main results

* `Message.wellTyped_iff` — a message is well typed field by field
* `Message.WellTyped.insert`, `Message.WellTyped.erase`, `Message.WellTyped.put`,
  `Message.WellTyped.populate` — changes keep a message well typed
-/

namespace Protobuf

/-- The value that a field is filled in with when it is absent but should always be present. -/
def Graph.filling? (g : Graph) (f : NodeId) : Option Value :=
  (((g.field? f).filter FieldNode.isAlwaysPresent).bind FieldNode.default?).map .atom

namespace Message

variable (m : Message)

/-- The default that stands in for an own field that is absent, if the settings ask for it. -/
def standIn? (f : NodeId) : Option Value :=
  if m.graph.settings.populateDefaults ∧ f ∈ m.graph.ownFields m.type.node
  then m.graph.filling? f else none

/-- No default stands in for a field that is absent. -/
def Populated : Prop :=
  ∀ f, m.value? f = none → m.standIn? f = none

/-! ### Looking at fields -/

theorem value?_insert (f f' : NodeId) (v : Value) :
    (m.insert f v).value? f' = if f = f' then some v else m.value? f' := by
  rw [value?, insert, Keyed.find?_insert, value?]
  split <;> rfl

theorem value?_erase (f f' : NodeId) :
    (m.erase f).value? f' = if f' = f then none else m.value? f' := by
  rw [value?, erase, Keyed.find?_erase, value?]
  split <;> rfl

@[simp] theorem value?_put_self (m : Message) (f : NodeId) (v : Value) :
    (m.put f v).value? f = some v := by
  rw [put, value?_insert, if_pos rfl]

@[simp] theorem value?_empty (t : MessageType) (f : NodeId) : (empty t).value? f = none :=
  rfl

theorem mem_of_value? {m : Message} {f : NodeId} {v : Value} (h : m.value? f = some v) :
    (f, v) ∈ m.entries := by
  obtain ⟨e, he, rfl⟩ := Option.map_eq_some_iff.mp h
  rw [← Keyed.key_of_find? he]
  exact Keyed.mem_of_find? he

theorem value?_of_mem {m : Message} (h : Keyed.Ascending Prod.fst m.entries) {e : NodeId × Value}
    (he : e ∈ m.entries) : m.value? e.1 = some e.2 := by
  rw [value?, h.find?_of_mem he]
  rfl

/-- Messages in which the same fields have the same values are equal. -/
theorem eq_of_value?_eq {m n : Message} (htype : m.type = n.type)
    (hm : Keyed.Ascending Prod.fst m.entries) (hn : Keyed.Ascending Prod.fst n.entries)
    (h : ∀ f, m.value? f = n.value? f) : m = n := by
  have hfind : ∀ f, Keyed.find? Prod.fst f m.entries = Keyed.find? Prod.fst f n.entries := by
    intro f
    have hf := h f
    simp only [value?] at hf
    cases hx : Keyed.find? Prod.fst f m.entries with
    | none =>
      rw [hx] at hf
      exact (Option.map_eq_none_iff.mp hf.symm).symm
    | some x =>
      rw [hx] at hf
      obtain ⟨y, hy, heq⟩ := Option.map_eq_some_iff.mp hf.symm
      rw [hy, Option.some.injEq]
      exact Prod.ext ((Keyed.key_of_find? hx).trans (Keyed.key_of_find? hy).symm) heq.symm
  cases m
  cases n
  simp only at htype hfind
  rw [htype, MessageOf.mk.injEq]
  exact ⟨rfl, hm.ext hn hfind⟩

theorem value?_of_value?_erase {m : Message} {f f' : NodeId} {v : Value}
    (h : (m.erase f).value? f' = some v) : m.value? f' = some v := by
  rw [value?_erase] at h
  split at h
  · cases h
  · exact h

/-! ### Fields that do not compete -/

/-- Of the fields of a oneof at most one is present. -/
def Apart : Prop :=
  ∀ f f' v v', m.value? f = some v → m.value? f' = some v' → m.graph.Compete f f' → f = f'

namespace Apart

variable {m : Message} {f : NodeId}

/-- A value is put into a field that competes with no other field that is present. -/
theorem insert (hm : m.Apart) (v : Value)
    (halone : ∀ f' v', m.value? f' = some v' → m.graph.Compete f f' → f = f') :
    (m.insert f v).Apart := by
  intro f' f'' v' v'' hv' hv'' hcompete
  change m.graph.Compete f' f'' at hcompete
  rw [value?_insert] at hv' hv''
  split at hv' <;> split at hv''
  · rename_i h1 h2
    rw [← h1, h2]
  · rename_i h1 h2
    exact h1 ▸ halone f'' v'' hv'' (h1 ▸ hcompete)
  · rename_i h1 h2
    exact h2 ▸ (halone f' v' hv' (h2 ▸ hcompete.symm)).symm
  · exact hm f' f'' v' v'' hv' hv'' hcompete

theorem erase (hm : m.Apart) (f : NodeId) : (m.erase f).Apart :=
  fun f' f'' v' v'' hv' hv'' hcompete =>
    hm f' f'' v' v'' (value?_of_value?_erase hv') (value?_of_value?_erase hv'') hcompete

end Apart

/-! ### Regular messages -/

/-- The fields of a message are fields of its type, in their order, and do not compete. -/
structure Regular : Prop where
  ascending : Keyed.Ascending Prod.fst m.entries
  known : ∀ f v, m.value? f = some v →
    f ∈ m.graph.allFields m.type.node ∧ ∃ s, m.graph.slot? f = some s
  apart : ∀ f f' v v', m.value? f = some v → m.value? f' = some v' → m.graph.Compete f f' → f = f'

end Message

/-- The value is kept as a slot of the given shape and type keeps it. -/
inductive Value.Fills (S : Snapshot) : Shape → FieldType → Value → Prop
  | atom {t : FieldType} {a : Atom} (holds : t.holds a) : Fills S .single t (.atom a)
  | message {t : FieldType} {m : Message} (node : t.message? = some m.type.node)
      (snapshot : m.type.snapshot = S) (regular : m.Regular)
      (fields : ∀ f v s, m.value? f = some v → S.graph.slot? f = some s →
        Fills S s.shape s.type v) : Fills S .single t (.message m)
  | list {t : FieldType} {items : List Value} (fills : ∀ v ∈ items, Fills S .single t v) :
      Fills S .list t (.list items)
  | map {key : Scalar} {t : FieldType} {entries : List (Atom × Value)}
      (ascending : Keyed.Ascending (fun e => e.1.keyText) entries)
      (keys : ∀ e ∈ entries, key.holds e.1) (values : ∀ e ∈ entries, Fills S .single t e.2) :
      Fills S (.map key) t (.map ⟨key, t, some S, entries⟩)

/-- A message of a snapshot all of whose values fill their slots. -/
def Message.WellTyped (S : Snapshot) (m : Message) : Prop :=
  Value.Fills S .single (.message m.type.node) (.message m)

namespace Message

variable {S : Snapshot} {m : Message}

theorem graph_of_snapshot (h : m.type.snapshot = S) : m.graph = S.graph := by
  rw [Message.graph, MessageType.toHandle, Handle.graph, h]

/-- A message is well typed field by field. -/
theorem wellTyped_iff : m.WellTyped S ↔ m.type.snapshot = S ∧ m.Regular ∧
    ∀ f v s, m.value? f = some v → S.graph.slot? f = some s → v.Fills S s.shape s.type := by
  constructor
  · rintro (_ | ⟨-, hsnapshot, hregular, hfields⟩)
    exact ⟨hsnapshot, hregular, hfields⟩
  · rintro ⟨hsnapshot, hregular, hfields⟩
    exact .message rfl hsnapshot hregular hfields

end Message

theorem Value.fills_message_iff {S : Snapshot} {t : FieldType} {m : Message} :
    (Value.message m).Fills S .single t ↔ t.message? = some m.type.node ∧ m.WellTyped S := by
  constructor
  · rintro (_ | ⟨hnode, hsnapshot, hregular, hfields⟩)
    exact ⟨hnode, .message rfl hsnapshot hregular hfields⟩
  · rintro ⟨hnode, hm⟩
    obtain ⟨hsnapshot, hregular, hfields⟩ := Message.wellTyped_iff.mp hm
    exact .message hnode hsnapshot hregular hfields

namespace Message.WellTyped

variable {S : Snapshot} {m : Message}

theorem snapshot (hm : m.WellTyped S) : m.type.snapshot = S :=
  (wellTyped_iff.mp hm).1

theorem graph (hm : m.WellTyped S) : m.graph = S.graph :=
  graph_of_snapshot hm.snapshot

theorem regular (hm : m.WellTyped S) : m.Regular :=
  (wellTyped_iff.mp hm).2.1

theorem fills (hm : m.WellTyped S) {f : NodeId} {v : Value} {s : Slot} (hv : m.value? f = some v)
    (hs : S.graph.slot? f = some s) : v.Fills S s.shape s.type :=
  (wellTyped_iff.mp hm).2.2 f v s hv hs

/-! ### Changes -/

section Changes

variable {f : NodeId} {v : Value} {s : Slot}

theorem empty {t : MessageType} (h : t.snapshot = S) : (Message.empty t).WellTyped S :=
  wellTyped_iff.mpr ⟨h, ⟨Keyed.ascending_nil, by simp, by simp⟩, by simp⟩

/-- A value is put into a field that competes with no other field that is present. -/
theorem insert (hm : m.WellTyped S) (hf : f ∈ S.graph.allFields m.type.node)
    (hs : S.graph.slot? f = some s) (hv : v.Fills S s.shape s.type)
    (halone : ∀ f' v', m.value? f' = some v' → S.graph.Compete f f' → f = f') :
    (m.insert f v).WellTyped S := by
  have hgraph := hm.graph
  refine wellTyped_iff.mpr ⟨hm.snapshot, ⟨hm.regular.ascending.insert _, fun f' v' hv' => ?_,
    Apart.insert hm.regular.apart v (hgraph ▸ halone)⟩, fun f' v' s' hv' hs' => ?_⟩
  · rw [value?_insert] at hv'
    show f' ∈ m.graph.allFields m.type.node ∧ ∃ s, m.graph.slot? f' = some s
    split at hv'
    · rename_i heq
      rw [← heq, hgraph]
      exact ⟨hf, s, hs⟩
    · exact hm.regular.known f' v' hv'
  · rw [value?_insert] at hv'
    split at hv'
    · rename_i heq
      cases hv'
      rw [← heq, hs] at hs'
      cases hs'
      exact hv
    · exact hm.fills hv' hs'

theorem erase (hm : m.WellTyped S) (f : NodeId) : (m.erase f).WellTyped S := by
  refine wellTyped_iff.mpr ⟨hm.snapshot, ⟨hm.regular.ascending.erase _, fun f' v' hv' => ?_,
    Apart.erase hm.regular.apart f⟩, fun f' v' s' hv' hs' => ?_⟩
  · exact hm.regular.known f' v' (value?_of_value?_erase hv')
  · exact hm.fills (value?_of_value?_erase hv') hs'

end Changes

/-! ### Oneofs -/

/-- The rivals of a field are the other fields that it competes with. -/
theorem mem_rivals (hg : S.graph.Sound) (hm : m.graph = S.graph) {f f' : NodeId} :
    f' ∈ m.rivals f ↔ f' ≠ f ∧ S.graph.Compete f f' := by
  rw [rivals, List.mem_filter, decide_eq_true_eq, hm, and_comm, and_congr_right_iff]
  intro hne
  constructor
  · intro hmem
    cases hf : S.graph.field? f with
    | none => simp [hf] at hmem
    | some fn =>
      cases ho : fn.oneof with
      | none => simp [hf, ho] at hmem
      | some o =>
        cases hc : S.graph.oneof? o with
        | none => simp [hf, ho, hc] at hmem
        | some c =>
          simp only [hf, ho, hc, Option.bind_some, Option.elim_some] at hmem
          obtain ⟨fn', hf', ho'⟩ := hg.listed o c hc f' hmem
          exact ⟨fn, fn', o, hf, hf', ho, ho'⟩
  · rintro ⟨fn, fn', o, hf, hf', ho, ho'⟩
    obtain ⟨-, c, hc, hmem⟩ := hg.member f' fn' o hf' ho'
    simpa only [hf, ho, hc, Option.bind_some, Option.elim_some] using hmem

theorem value?_foldl_erase (m : Message) (fields : List NodeId) (f : NodeId) :
    (fields.foldl Message.erase m).value? f = if f ∈ fields then none else m.value? f := by
  induction fields generalizing m with
  | nil => simp
  | cons f' more ih =>
    rw [List.foldl_cons, ih, value?_erase]
    by_cases hmem : f ∈ more
    · simp [hmem]
    · by_cases heq : f = f'
      · simp [heq]
      · simp [hmem, heq]

theorem foldl_erase (hm : m.WellTyped S) (fields : List NodeId) :
    (fields.foldl Message.erase m).WellTyped S :=
  List.foldlRecOn _ _ hm fun _ hm f _ => hm.erase f

theorem type_foldl_erase (m : Message) (fields : List NodeId) :
    (fields.foldl Message.erase m).type = m.type := by
  induction fields generalizing m with
  | nil => rfl
  | cons f more ih => exact ih (m.erase f)

/-- When its rivals are gone, a field competes with no other field that is present. -/
theorem eq_of_compete (hg : S.graph.Sound) (hm : m.graph = S.graph) {f f' : NodeId} {v : Value}
    (hv : ((m.rivals f).foldl Message.erase m).value? f' = some v)
    (hcompete : S.graph.Compete f f') : f = f' := by
  by_contra hne
  rw [value?_foldl_erase, if_pos] at hv
  · cases hv
  · exact (mem_rivals hg hm).mpr ⟨fun h => hne h.symm, hcompete⟩

/-- Setting a field clears the others of its oneof. -/
theorem put (hg : S.graph.Sound) (hm : m.WellTyped S) {f : NodeId} {v : Value} {s : Slot}
    (hf : f ∈ S.graph.allFields m.type.node) (hs : S.graph.slot? f = some s)
    (hv : v.Fills S s.shape s.type) : (m.put f v).WellTyped S := by
  refine (hm.foldl_erase (m.rivals f)).insert (by rwa [type_foldl_erase]) hs hv ?_
  intro f' v' hv' hcompete
  exact eq_of_compete hg hm.graph hv' hcompete

/-! ### Defaults -/

theorem type_fill (m : Message) (f : NodeId) : (m.fill f).type = m.type := by
  rw [fill]
  split <;> rfl

/-- The value of a field is filled in where nothing was. -/
theorem value?_fill (m : Message) (f f' : NodeId) :
    (m.fill f).value? f' =
      if f = f' then (m.value? f').or (m.graph.filling? f') else m.value? f' := by
  rw [Message.fill, Graph.filling?]
  split
  · rename_i a hv hdefault
    rw [value?_insert]
    split
    · rename_i heq
      subst heq
      rw [hv, hdefault]
      rfl
    · rfl
  · rename_i hnot
    split
    · rename_i heq
      subst heq
      cases hv : m.value? f with
      | some v => rfl
      | none =>
        cases hdefault : ((m.graph.field? f).filter FieldNode.isAlwaysPresent).bind
            FieldNode.default? with
        | none => rfl
        | some a => exact (hnot a hv hdefault).elim
    · rfl

/-- A default is filled in where nothing was. -/
theorem fill (hg : S.graph.Linked) (hm : m.WellTyped S) {f : NodeId}
    (hf : f ∈ S.graph.allFields m.type.node) : (m.fill f).WellTyped S := by
  rw [Message.fill]
  split
  · rename_i a hv hdefault
    obtain ⟨fn, hfn, ha⟩ := Option.bind_eq_some_iff.mp hdefault
    obtain ⟨hfn, halways⟩ := Option.filter_eq_some_iff.mp hfn
    rw [hm.graph] at hfn
    obtain ⟨⟨s, hs, hshape, hholds⟩, halone⟩ := hg.slot?_of_default hfn halways ha
    refine hm.insert hf hs ?_ fun f' v' hv' hcompete => absurd hcompete (halone f')
    rw [hshape]
    exact .atom hholds
  · exact hm

theorem foldl_fill (hg : S.graph.Linked) (hm : m.WellTyped S) {fields : List NodeId}
    (hfields : ∀ f ∈ fields, f ∈ S.graph.allFields m.type.node) :
    (fields.foldl Message.fill m).WellTyped S := by
  refine (List.foldlRecOn (motive := fun n : Message => n.WellTyped S ∧ n.type = m.type)
    _ _ ⟨hm, rfl⟩ ?_).1
  rintro n ⟨hn, htype⟩ f hf
  exact ⟨hn.fill hg (htype ▸ hfields f hf), (type_fill n f).trans htype⟩

theorem type_foldl_fill (m : Message) (fields : List NodeId) :
    (fields.foldl Message.fill m).type = m.type := by
  induction fields generalizing m with
  | nil => rfl
  | cons f more ih => exact (ih (m.fill f)).trans (type_fill m f)

theorem value?_foldl_fill (m : Message) (fields : List NodeId) (f : NodeId) :
    (fields.foldl Message.fill m).value? f =
      if f ∈ fields then (m.value? f).or (m.graph.filling? f) else m.value? f := by
  induction fields generalizing m with
  | nil => simp
  | cons f' more ih =>
    have hgraph : (m.fill f').graph = m.graph := by
      rw [Message.graph, type_fill]
      rfl
    rw [List.foldl_cons, ih, value?_fill, hgraph]
    by_cases hmem : f ∈ more
    · by_cases heq : f' = f
      · cases m.value? f <;> simp [heq]
      · simp [hmem, heq]
    · by_cases heq : f' = f
      · simp [hmem, heq]
      · simp [hmem, heq, Ne.symm heq]

/-- Populating lets defaults stand in for what is absent. -/
theorem value?_populate (m : Message) (f : NodeId) :
    m.populate.value? f = (m.value? f).or (m.standIn? f) := by
  rw [Message.populate, standIn?]
  split
  · rename_i hsettings
    rw [value?_foldl_fill]
    by_cases hown : f ∈ m.graph.ownFields m.type.node
    · rw [if_pos hown, if_pos ⟨hsettings, hown⟩]
    · rw [if_neg hown, if_neg fun h => hown h.2, Option.or_none]
  · rename_i hsettings
    rw [if_neg fun h => hsettings h.1, Option.or_none]

theorem type_populate (m : Message) : m.populate.type = m.type := by
  rw [Message.populate]
  split
  · exact type_foldl_fill m _
  · rfl

/-- What stands in for absent fields does not depend on which fields are present. -/
theorem standIn?_of_type_eq {m n : Message} (h : m.type = n.type) (f : NodeId) :
    m.standIn? f = n.standIn? f := by
  rw [standIn?, standIn?, Message.graph, Message.graph, h]

theorem populated_populate (m : Message) : m.populate.Populated := by
  intro f hf
  rw [value?_populate] at hf
  rw [standIn?_of_type_eq (type_populate m)]
  exact (Option.or_eq_none_iff.mp hf).2

theorem populate (hg : S.graph.Linked) (hm : m.WellTyped S) : m.populate.WellTyped S := by
  rw [Message.populate]
  split
  · refine hm.foldl_fill hg fun f hf => ?_
    rw [hm.graph] at hf
    exact Graph.mem_allFields.mpr (.inl hf)
  · exact hm

theorem new (hg : S.graph.Linked) {t : MessageType} (h : t.snapshot = S) :
    (Message.new t).WellTyped S :=
  (WellTyped.empty h).populate hg

/-! ### Lists and maps -/

/-- A field that holds a list or a map competes with none, so its value may be replaced freely. -/
theorem insert_collection (hg : S.graph.Linked) (hm : m.WellTyped S) {f : NodeId} {v : Value}
    {s : Slot} (hf : f ∈ S.graph.allFields m.type.node) (hs : S.graph.slot? f = some s)
    (hshape : s.shape ≠ .single) (hv : v.Fills S s.shape s.type) : (m.insert f v).WellTyped S :=
  hm.insert hf hs hv fun _ _ _ hcompete => absurd hcompete (hg.not_compete hs hshape)

end Message.WellTyped

/-- The elements of a list that fills a slot fill it one by one; so do none where there is no
list. -/
theorem Message.WellTyped.items {S : Snapshot} {m : Message} (hm : m.WellTyped S) {f : NodeId}
    {s : Slot} (hs : S.graph.slot? f = some s) (hshape : s.shape = .list) :
    ∀ v ∈ ((m.value? f).bind Value.list?).getD [], v.Fills S .single s.type := by
  cases hv : m.value? f with
  | none => simp
  | some w =>
    have hw := hm.fills hv hs
    rw [hshape] at hw
    cases hw with
    | list hitems => exact hitems

namespace MapValue

variable {S : Snapshot} {key : Scalar} {t : FieldType} {entries : List (Atom × Value)}

theorem fills_empty : (Value.map (MapValue.empty key t (some S))).Fills S (.map key) t :=
  .map Keyed.ascending_nil (by simp) (by simp)

/-- An entry that fits is put into a map. -/
theorem fills_insert (h : (Value.map ⟨key, t, some S, entries⟩).Fills S (.map key) t) {k : Atom}
    {v : Value} (hk : key.holds k) (hv : v.Fills S .single t) :
    (Value.map (MapValue.insert ⟨key, t, some S, entries⟩ k v)).Fills S (.map key) t := by
  cases h with
  | map hascending hkeys hvalues =>
    exact .map (hascending.insert _) (Keyed.forall_mem_insert hk hkeys)
      (Keyed.forall_mem_insert hv hvalues)

end MapValue

end Protobuf

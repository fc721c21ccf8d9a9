import Protobuf.Proofs.Message.Nesting
import Protobuf.Proofs.Message.WellTyped

/-!
# Normal forms of messages

What is written leaves things out: zero values of fields for which this makes no difference, and
lists and maps without elements. Reading puts defaults in. So a message that has been written and
read back is not always the same as before, but has been settled: at every level the values that
are not written are gone, and defaults stand in for what is absent.

Lists and maps without elements are as good as none when messages are compared. So the message that
comes back is compared with one from which zero values alone have been taken away.

## Main definitions

* `Message.settle` — a message without certain values and with its defaults, at every level.
* `Message.normal` — zero values that are left out are gone, and defaults are filled in.
* `Message.canonical` — empty lists and maps are gone as well.

## Main results

* `Message.WellTyped.settle` — settling keeps a message well typed
* `Message.WellTyped.same_canonical_normal` — the two forms are equal
-/

namespace Protobuf

/-- The value is left out where its field is written: it is zero, and the field is one of which
presence is not told. -/
def Graph.omits (g : Graph) (f : NodeId) (v : Value) : Bool :=
  (g.field? f).any FieldNode.hasImplicitPresence && v.atom?.any Atom.isZero

/-- Nothing is written for the value. -/
def Graph.leavesOut (g : Graph) (f : NodeId) (v : Value) : Bool :=
  g.omits f v || v.isEmptyCollection

/-! ### Settling -/

section Settle

variable (drop : Graph → NodeId → Value → Bool)

mutual

/-- The value without the values of fields that are dropped from the messages in it, and with the
defaults of the messages. -/
def Value.settle : Value → Value
  | .atom a => .atom a
  | .message ⟨type, entries⟩ =>
    .message (Message.populate ⟨type, Value.settleFields type.graph entries⟩)
  | .list items => .list (Value.settleItems items)
  | .map ⟨keyType, valueType, owner, entries⟩ =>
    .map ⟨keyType, valueType, owner, Value.settleEntries entries⟩

/-- The elements of a list, each settled. -/
def Value.settleItems : List Value → List Value
  | [] => []
  | v :: more => v.settle :: Value.settleItems more

/-- The entries of a map, each with its value settled. -/
def Value.settleEntries : List (Atom × Value) → List (Atom × Value)
  | [] => []
  | (key, v) :: more => (key, v.settle) :: Value.settleEntries more

/-- The fields of a message, each that is not dropped with its value settled. -/
def Value.settleFields (g : Graph) : List (NodeId × Value) → List (NodeId × Value)
  | [] => []
  | (f, v) :: more =>
    if drop g f v then Value.settleFields g more else (f, v.settle) :: Value.settleFields g more

end

/-- The message without the values of fields that are dropped, and with the messages in it
settled. -/
def Message.strip (m : Message) : Message :=
  ⟨m.type, Value.settleFields drop m.graph m.entries⟩

/-- The message without the values of fields that are dropped, and with its defaults, at every
level. -/
def Message.settle (m : Message) : Message :=
  (m.strip drop).populate

variable {drop}

theorem Value.settle_message (m : Message) :
    (Value.message m).settle drop = .message (m.settle drop) := by
  cases m
  rw [Value.settle]
  rfl

theorem Value.settleItems_eq (items : List Value) :
    Value.settleItems drop items = items.map (Value.settle drop) := by
  induction items with
  | nil => rw [Value.settleItems, List.map_nil]
  | cons v more ih => rw [Value.settleItems, List.map_cons, ih]

theorem Value.settleEntries_eq (entries : List (Atom × Value)) :
    Value.settleEntries drop entries = entries.map fun e => (e.1, e.2.settle drop) := by
  induction entries with
  | nil => rw [Value.settleEntries, List.map_nil]
  | cons e more ih => rw [Value.settleEntries, List.map_cons, ih]

theorem Value.settleFields_eq (g : Graph) (entries : List (NodeId × Value)) :
    Value.settleFields drop g entries =
      (entries.filter fun e => !drop g e.1 e.2).map fun e => (e.1, e.2.settle drop) := by
  induction entries with
  | nil => rw [Value.settleFields, List.filter_nil, List.map_nil]
  | cons e more ih =>
    rw [Value.settleFields]
    split
    · rename_i hdrop
      rw [List.filter_cons_of_neg (by simp [hdrop]), ih]
    · rename_i hdrop
      rw [List.filter_cons_of_pos (by simp [hdrop]), List.map_cons, ih]

end Settle

namespace Message

variable (m : Message)

/-- The message as it counts: zero values that are left out when it is written are gone, and
defaults are filled in, at every level. -/
def normal : Message :=
  m.settle Graph.omits

/-- The message as it comes back when it has been written: lists and maps without elements are gone
as well. -/
def canonical : Message :=
  m.settle Graph.leavesOut

variable {m} {drop : Graph → NodeId → Value → Bool}

theorem type_settle : (m.settle drop).type = m.type :=
  WellTyped.type_populate _

/-- The value of a field that is not dropped is settled. -/
theorem value?_strip (h : Keyed.Ascending Prod.fst m.entries) (f : NodeId) :
    (m.strip drop).value? f =
      ((m.value? f).filter fun v => !drop m.graph f v).map (Value.settle drop) := by
  have hkey : ∀ e : NodeId × Value, (e.1, e.2.settle drop).1 = e.1 := fun _ => rfl
  rw [value?, strip, Value.settleFields_eq, Keyed.find?_map Prod.fst hkey, h.find?_filter, value?]
  cases hfind : Keyed.find? Prod.fst f m.entries with
  | none => rfl
  | some e =>
    rw [Option.map_some, Option.filter_some, Option.filter_some, Keyed.key_of_find? hfind]
    split <;> rfl

/-- A default may stand in for the value of a field that is absent. -/
theorem value?_settle (f : NodeId) :
    (m.settle drop).value? f = ((m.strip drop).value? f).or (m.standIn? f) := by
  have htype : (m.strip drop).type = m.type := rfl
  rw [settle, WellTyped.value?_populate, WellTyped.standIn?_of_type_eq htype]

theorem value?_settle_of_some (h : Keyed.Ascending Prod.fst m.entries) {f : NodeId} {v : Value}
    (hv : m.value? f = some v) :
    (m.settle drop).value? f =
      if drop m.graph f v then m.standIn? f else some (v.settle drop) := by
  rw [value?_settle, value?_strip h, hv, Option.filter_some]
  cases drop m.graph f v <;> rfl

theorem value?_settle_of_none (h : Keyed.Ascending Prod.fst m.entries) {f : NodeId}
    (hv : m.value? f = none) : (m.settle drop).value? f = m.standIn? f := by
  rw [value?_settle, value?_strip h, hv]
  rfl

end Message

/-! ### Settled messages are well typed -/

/-- Settling keeps a value in the form in which its slot keeps it. -/
theorem Value.Fills.settle {S : Snapshot} (hg : S.graph.Linked)
    {drop : Graph → NodeId → Value → Bool} {shape : Shape} {t : FieldType} {v : Value}
    (h : v.Fills S shape t) : (v.settle drop).Fills S shape t := by
  induction h with
  | atom holds =>
    rw [Value.settle]
    exact .atom holds
  | @message t m node snapshot regular fields ih =>
    rw [Value.settle_message]
    have htype : (m.settle drop).type = m.type := Message.type_settle
    refine Value.fills_message_iff.mpr ⟨by rw [htype, node], ?_⟩
    have hback : ∀ f v, (m.strip drop).value? f = some v →
        ∃ w, m.value? f = some w ∧ w.settle drop = v := by
      intro f v hv
      rw [Message.value?_strip regular.ascending] at hv
      obtain ⟨w, hw, hwv⟩ := Option.map_eq_some_iff.mp hv
      exact ⟨w, (Option.filter_eq_some_iff.mp hw).1, hwv⟩
    -- what is left of the message has the same form, and so has what is filled in again
    refine Message.WellTyped.populate hg (Message.wellTyped_iff.mpr
      ⟨snapshot, ⟨?_, fun f v hv => ?_, fun f f' v v' hv hv' => ?_⟩, fun f v s hv hs => ?_⟩)
    · rw [Message.strip, Value.settleFields_eq]
      exact Keyed.Ascending.map (fun _ => rfl) (regular.ascending.filter _)
    · obtain ⟨w, hw, -⟩ := hback f v hv
      exact regular.known f w hw
    · obtain ⟨w, hw, -⟩ := hback f v hv
      obtain ⟨w', hw', -⟩ := hback f' v' hv'
      exact regular.apart f f' w w' hw hw'
    · obtain ⟨w, hw, rfl⟩ := hback f v hv
      exact ih f w s hw hs
  | list fills ih =>
    rw [Value.settle, Value.settleItems_eq]
    refine .list fun v hv => ?_
    obtain ⟨w, hw, rfl⟩ := List.mem_map.mp hv
    exact ih w hw
  | map ascending keys values ih =>
    have hkey : ∀ e : Atom × Value, (e.1, e.2.settle drop).1.keyText = e.1.keyText := fun _ => rfl
    rw [Value.settle, Value.settleEntries_eq]
    refine .map ?_ (fun e he => ?_) fun e he => ?_
    · rw [Keyed.ascending_iff, List.map_map]
      exact Keyed.ascending_iff.mp ascending
    · obtain ⟨e', he', rfl⟩ := List.mem_map.mp he
      exact keys e' he'
    · obtain ⟨e', he', rfl⟩ := List.mem_map.mp he
      exact ih e' he'

theorem Message.WellTyped.settle {S : Snapshot} (hg : S.graph.Linked)
    {drop : Graph → NodeId → Value → Bool} {m : Message} (hm : m.WellTyped S) :
    (m.settle drop).WellTyped S := by
  have h : ((Value.message m).settle drop).Fills S .single (.message m.type.node) :=
    Value.Fills.settle hg hm
  rw [Value.settle_message] at h
  exact (Value.fills_message_iff.mp h).2

/-! ### Equality -/

/-- The values of a field in two messages count as equal. Nothing is as good as a list or a map
without elements. -/
def Value.sameField : Option Value → Option Value → Bool
  | some x, some y => x.same y
  | some x, none => x.isEmptyCollection
  | none, some y => y.isEmptyCollection
  | none, none => true

theorem Value.covered_iff {xs ys : List (NodeId × Value)} :
    Value.covered xs ys ↔
      ∀ e ∈ xs, Value.sameField (some e.2) ((Keyed.find? Prod.fst e.1 ys).map Prod.snd) := by
  induction xs with
  | nil => simp [Value.covered]
  | cons e more ih =>
    rw [Value.covered, Bool.and_eq_true, ih, List.forall_mem_cons]
    refine and_congr_left' ?_
    cases Keyed.find? Prod.fst e.1 ys <;> rfl

/-- Messages are equal if they are field by field. -/
theorem Value.same_message_iff {m n : Message} (hm : Keyed.Ascending Prod.fst m.entries)
    (hn : Keyed.Ascending Prod.fst n.entries) :
    (Value.message m).same (.message n) ↔
      m.type.sameAs n.type ∧ ∀ f, Value.sameField (m.value? f) (n.value? f) := by
  have hsame : (Value.message m).same (.message n) ↔
      m.type.sameAs n.type ∧
        (∀ e ∈ m.entries, Value.sameField (some e.2) (n.value? e.1)) ∧
        ∀ e ∈ n.entries, m.value? e.1 = none → e.2.isEmptyCollection := by
    cases m
    rw [Value.same, Bool.and_eq_true, Bool.and_eq_true, and_assoc, Value.covered_iff]
    refine and_congr_right' (and_congr_right' ?_)
    rw [List.all_eq_true]
    refine forall₂_congr fun e _ => ?_
    simp only [Message.value?]
    cases Keyed.find? Prod.fst e.1 _ <;> simp
  rw [hsame, and_congr_right_iff]
  intro _
  constructor
  · rintro ⟨hforth, hback⟩ f
    cases hx : m.value? f with
    | some x =>
      have h := hforth _ (Message.mem_of_value? hx)
      exact h
    | none =>
      cases hy : n.value? f with
      | some y => exact hback _ (Message.mem_of_value? hy) hx
      | none => rfl
  · intro hfield
    constructor
    · intro e he
      have h := hfield e.1
      rw [Message.value?_of_mem hm he] at h
      exact h
    · intro e he hnone
      have h := hfield e.1
      rw [Message.value?_of_mem hn he, hnone] at h
      exact h

theorem MessageType.sameAs_self (t : MessageType) : t.sameAs t := by
  simp [MessageType.sameAs]

theorem Value.sameItems_map {f g : Value → Value} {items : List Value}
    (h : ∀ v ∈ items, (f v).same (g v)) : Value.sameItems (items.map f) (items.map g) := by
  induction items with
  | nil => simp [Value.sameItems]
  | cons v more ih =>
    rw [List.map_cons, List.map_cons, Value.sameItems, Bool.and_eq_true]
    exact ⟨h v List.mem_cons_self, ih fun w hw => h w (List.mem_cons_of_mem _ hw)⟩

theorem Value.sameEntries_map {f g : Value → Value} {entries : List (Atom × Value)}
    (h : ∀ e ∈ entries, (f e.2).same (g e.2)) :
    Value.sameEntries (entries.map fun e => (e.1, f e.2)) (entries.map fun e => (e.1, g e.2)) := by
  induction entries with
  | nil => simp [Value.sameEntries]
  | cons e more ih =>
    rw [List.map_cons, List.map_cons, Value.sameEntries, Bool.and_eq_true, Bool.and_eq_true,
      decide_eq_true_eq]
    exact ⟨⟨rfl, h e List.mem_cons_self⟩, ih fun e' he' => h e' (List.mem_cons_of_mem _ he')⟩

/-- What is filled in is an atom, and its field is single. -/
theorem Graph.Linked.filling?_eq_some {g : Graph} (hg : g.Linked) {f : NodeId} {v : Value}
    (h : g.filling? f = some v) :
    ∃ a s, v = .atom a ∧ g.slot? f = some s ∧ s.shape = .single ∧ s.type.holds a := by
  obtain ⟨a, ha, rfl⟩ := Option.map_eq_some_iff.mp h
  obtain ⟨fn, hfn, ha⟩ := Option.bind_eq_some_iff.mp ha
  obtain ⟨hfn, halways⟩ := Option.filter_eq_some_iff.mp hfn
  obtain ⟨⟨s, hs, hshape, hholds⟩, -⟩ := hg.slot?_of_default hfn halways ha
  exact ⟨a, s, rfl, hs, hshape, hholds⟩

theorem Value.Fills.shape_of_isEmptyCollection {S : Snapshot} {shape : Shape} {t : FieldType}
    {v : Value} (h : v.Fills S shape t) (hv : v.isEmptyCollection) : shape ≠ .single := by
  cases h with
  | list _ => exact Shape.noConfusion
  | map _ _ _ => exact Shape.noConfusion
  | _ => cases hv

theorem Value.isEmptyCollection_settle {drop : Graph → NodeId → Value → Bool} {v : Value}
    (h : v.isEmptyCollection) : (v.settle drop).isEmptyCollection := by
  cases v with
  | list items =>
    rw [List.isEmpty_iff.mp h, Value.settle, Value.settleItems_eq]
    rfl
  | map m =>
    obtain ⟨key, t, owner, entries⟩ := m
    have hnil : entries = [] := List.isEmpty_iff.mp h
    rw [Value.settle, Value.settleEntries_eq, hnil]
    rfl
  | _ => cases h

theorem Message.mem_messages_of_value? {m n : Message} {f : NodeId} {v : Value}
    (hv : m.value? f = some v) (hn : n ∈ v.messages) : n ∈ m.messages := by
  rw [messages, Value.messagesOfFields_eq]
  exact List.mem_cons_of_mem _ (List.mem_flatMap.mpr ⟨(f, v), mem_of_value? hv, hn⟩)

section Same

variable {S : Snapshot} {drop drop' : Graph → NodeId → Value → Bool}

/-- It makes no difference to the message which of the two ways of dropping values is used: they
agree on the value, or it is a list or a map without elements, or it is its own stand-in. -/
def Message.Indifferent (drop drop' : Graph → NodeId → Value → Bool) (m : Message) : Prop :=
  ∀ f v, m.value? f = some v →
    drop m.graph f v = drop' m.graph f v ∨ v.isEmptyCollection ∨ m.standIn? f = some v

theorem Message.WellTyped.standIn?_eq_some (hg : S.graph.Linked) {m : Message} (hm : m.WellTyped S)
    {f : NodeId} {v : Value} (h : m.standIn? f = some v) :
    ∃ a s, v = .atom a ∧ S.graph.slot? f = some s ∧ s.shape = .single := by
  rw [Message.standIn?, hm.graph] at h
  split at h
  · obtain ⟨a, s, hv, hs, hshape, -⟩ := hg.filling?_eq_some h
    exact ⟨a, s, hv, hs, hshape⟩
  · cases h

/-- What stands in twice is the same. -/
theorem Message.WellTyped.sameField_standIn? (hg : S.graph.Linked) {m : Message}
    (hm : m.WellTyped S) (f : NodeId) : Value.sameField (m.standIn? f) (m.standIn? f) := by
  cases h : m.standIn? f with
  | none => rfl
  | some v =>
    obtain ⟨a, -, rfl, -⟩ := hm.standIn?_eq_some hg h
    simp [Value.sameField, Value.same]

/-- A field is the same either way, if its value is. -/
theorem Message.WellTyped.sameField_settle (hg : S.graph.Linked) {m : Message} (hm : m.WellTyped S)
    (hdrop : m.Indifferent drop drop') {f : NodeId}
    (hsame : ∀ v, m.value? f = some v → (v.settle drop).same (v.settle drop')) :
    Value.sameField ((m.settle drop).value? f) ((m.settle drop').value? f) := by
  have hascending := hm.regular.ascending
  cases hv : m.value? f with
  | none =>
    rw [value?_settle_of_none hascending hv, value?_settle_of_none hascending hv]
    exact hm.sameField_standIn? hg f
  | some v =>
    rw [value?_settle_of_some hascending hv, value?_settle_of_some hascending hv]
    rcases hdrop f v hv with hagree | hempty | hstand
    · rw [hagree]
      split
      · exact hm.sameField_standIn? hg f
      · exact hsame v hv
    · have hnone : m.standIn? f = none := by
        by_contra hne
        obtain ⟨w, hw⟩ := Option.ne_none_iff_exists'.mp hne
        obtain ⟨a, s, -, hs, hshape⟩ := hm.standIn?_eq_some hg hw
        exact (hm.fills hv hs).shape_of_isEmptyCollection hempty hshape
      rw [hnone]
      split
      · split
        · rfl
        · exact Value.isEmptyCollection_settle hempty
      · split
        · exact Value.isEmptyCollection_settle hempty
        · exact hsame v hv
    · obtain ⟨a, s, rfl, -⟩ := hm.standIn?_eq_some hg hstand
      have hatom : ∀ drop : Graph → NodeId → Value → Bool,
          (if drop m.graph f (.atom a) then m.standIn? f
            else some ((Value.atom a).settle drop)) = some (.atom a) := by
        intro drop
        rw [hstand, Value.settle]
        split <;> rfl
      rw [hatom, hatom]
      simp [Value.sameField, Value.same]

/-- Values are the same whichever way they are settled, if it makes no difference to the messages in
them. -/
theorem Value.Fills.same_settle (hg : S.graph.Linked) {shape : Shape} {t : FieldType} {v : Value}
    (h : v.Fills S shape t) (hdrop : ∀ n ∈ v.messages, n.Indifferent drop drop') :
    (v.settle drop).same (v.settle drop') := by
  induction h with
  | atom _ => simp [Value.settle, Value.same]
  | @message t m node snapshot regular fields ih =>
    have hm : m.WellTyped S := .message rfl snapshot regular fields
    rw [Value.settle_message, Value.settle_message,
      Value.same_message_iff (hm.settle hg).regular.ascending (hm.settle hg).regular.ascending,
      Message.type_settle, Message.type_settle]
    rw [Message.messages_message] at hdrop
    refine ⟨m.type.sameAs_self, fun f => hm.sameField_settle hg (hdrop m List.mem_cons_self)
      fun v hv => ?_⟩
    obtain ⟨-, s, hs⟩ := regular.known f v hv
    rw [hm.graph] at hs
    exact ih f v s hv hs fun n hn => hdrop n (Message.mem_messages_of_value? hv hn)
  | list fills ih =>
    rw [Value.messages, Value.messagesOfItems_eq] at hdrop
    rw [Value.settle, Value.settle, Value.settleItems_eq, Value.settleItems_eq, Value.same]
    exact Value.sameItems_map fun v hv =>
      ih v hv fun n hn => hdrop n (List.mem_flatMap.mpr ⟨v, hv, hn⟩)
  | map ascending keys values ih =>
    rw [Value.messages, Value.messagesOfEntries_eq] at hdrop
    rw [Value.settle, Value.settle, Value.settleEntries_eq, Value.settleEntries_eq, Value.same,
      Bool.and_eq_true, decide_eq_true_eq]
    exact ⟨rfl, Value.sameEntries_map fun e he =>
      ih e he fun n hn => hdrop n (List.mem_flatMap.mpr ⟨e, he, hn⟩)⟩

/-- The message that comes back equals the message as it counts. -/
theorem Message.WellTyped.same_canonical_normal (hg : S.graph.Linked) {m : Message}
    (hm : m.WellTyped S) : m.canonical == m.normal := by
  have hdrop : ∀ n : Message, n.Indifferent Graph.leavesOut Graph.omits := by
    intro n f v _
    rw [Graph.leavesOut]
    cases hempty : v.isEmptyCollection
    · exact .inl (Bool.or_false _)
    · exact .inr (.inl rfl)
  have h : ((Value.message m).settle Graph.leavesOut).same ((Value.message m).settle Graph.omits) :=
    Value.Fills.same_settle hg hm fun n _ => hdrop n
  rw [Value.settle_message, Value.settle_message] at h
  exact h

end Same

end Protobuf

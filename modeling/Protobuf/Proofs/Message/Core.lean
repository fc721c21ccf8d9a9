import Protobuf.Proofs.Message.Sorted
import Protobuf.Proofs.Message.Writable

/-!
# What counts of a message

Messages are compared field by field, and an empty list or map is as good as none. So what counts of
a message is its core, which is what is left when fields with empty lists and maps are taken away,
at every level. Two messages are equal if and only if they have the same core, which makes equality
an equivalence, and a message is written as its core is, because nothing is written for empty lists
and maps and because their fields are never required.

This takes messages whose values are of the types of their fields. An empty list and an empty map
both are as good as none, but they are not equal to each other, and only the type of the field
says that the two never meet.

## Main definitions

* `Value.core`, `Message.core` — a value without the empty lists and maps in its messages.

## Main results

* `Value.Typed.same_iff` — typed values are equal if and only if their cores are
* `Value.Typed.encoding_core` — a typed value is written as its core is
-/

namespace Protobuf

mutual

/-- The value without the fields that have empty lists or maps in its messages. -/
def Value.core : Value → Value
  | .atom a => .atom a
  | .message ⟨type, entries⟩ => .message ⟨type, Value.coreFields entries⟩
  | .list items => .list (Value.coreItems items)
  | .map ⟨keyType, valueType, owner, entries⟩ =>
    .map ⟨keyType, valueType, owner, Value.coreEntries entries⟩

/-- The cores of the elements of a list. -/
def Value.coreItems : List Value → List Value
  | [] => []
  | v :: more => v.core :: Value.coreItems more

/-- The entries of a map with the cores of their values. -/
def Value.coreEntries : List (Atom × Value) → List (Atom × Value)
  | [] => []
  | (key, v) :: more => (key, v.core) :: Value.coreEntries more

/-- The fields that have no empty lists or maps, with the cores of their values. -/
def Value.coreFields : List (NodeId × Value) → List (NodeId × Value)
  | [] => []
  | (f, v) :: more =>
    if v.isEmptyCollection then Value.coreFields more else (f, v.core) :: Value.coreFields more

end

/-- The message without the fields that have empty lists or maps, at every level. -/
def Message.core (m : Message) : Message :=
  ⟨m.type, Value.coreFields m.entries⟩

/-! ### Cores -/

namespace Value

theorem core_message (m : Message) : (message m).core = .message m.core := by
  cases m
  rw [core]
  rfl

theorem coreItems_eq (items : List Value) : coreItems items = items.map core := by
  induction items with
  | nil => rw [coreItems, List.map_nil]
  | cons v more ih => rw [coreItems, List.map_cons, ih]

theorem coreEntries_eq (entries : List (Atom × Value)) :
    coreEntries entries = entries.map fun e => (e.1, e.2.core) := by
  induction entries with
  | nil => rw [coreEntries, List.map_nil]
  | cons e more ih => rw [coreEntries, List.map_cons, ih]

theorem coreFields_eq (entries : List (NodeId × Value)) :
    coreFields entries =
      (entries.filter fun e => !e.2.isEmptyCollection).map fun e => (e.1, e.2.core) := by
  induction entries with
  | nil => rw [coreFields, List.filter_nil, List.map_nil]
  | cons e more ih =>
    rw [coreFields]
    split
    · rename_i hempty
      rw [List.filter_cons_of_neg (by simp [hempty]), ih]
    · rename_i hempty
      rw [List.filter_cons_of_pos (by simp [hempty]), List.map_cons, ih]

@[simp] theorem isEmptyCollection_core (v : Value) :
    v.core.isEmptyCollection = v.isEmptyCollection := by
  cases v with
  | list items => rw [core, coreItems_eq, isEmptyCollection, List.isEmpty_map, isEmptyCollection]
  | map m =>
    cases m
    rw [core, coreEntries_eq, isEmptyCollection, List.isEmpty_map, isEmptyCollection]
  | message m =>
    rw [core_message]
    rfl
  | atom a => rw [core]

end Value

namespace Message

variable {m n : Message}

theorem ascending_core (h : Keyed.Ascending Prod.fst m.entries) :
    Keyed.Ascending Prod.fst m.core.entries := by
  rw [core, Value.coreFields_eq]
  exact Keyed.Ascending.map (fun _ => rfl) (h.filter _)

/-- What counts of the value of a field. -/
theorem value?_core (h : Keyed.Ascending Prod.fst m.entries) (f : NodeId) :
    m.core.value? f = ((m.value? f).filter fun v => !v.isEmptyCollection).map Value.core := by
  have hkey : ∀ e : NodeId × Value, (e.1, e.2.core).1 = e.1 := fun _ => rfl
  rw [value?, core, Value.coreFields_eq, Keyed.find?_map Prod.fst hkey, h.find?_filter, value?]
  cases hfind : Keyed.find? Prod.fst f m.entries with
  | none => rfl
  | some e =>
    rw [Option.map_some, Option.filter_some, Option.filter_some]
    split <;> rfl

/-- Messages of the same type have the same core if what counts of their fields is the same. -/
theorem core_eq_iff (hm : Keyed.Ascending Prod.fst m.entries)
    (hn : Keyed.Ascending Prod.fst n.entries) :
    m.core = n.core ↔ m.type = n.type ∧ ∀ f, m.core.value? f = n.core.value? f := by
  constructor
  · intro h
    have htype : m.core.type = n.core.type := by rw [h]
    exact ⟨htype, fun f => by rw [h]⟩
  · rintro ⟨htype, hvalue⟩
    exact eq_of_value?_eq htype (ascending_core hm) (ascending_core hn) hvalue

end Message

/-! ### Equality -/

theorem MessageType.ext {t u : MessageType} (hsnapshot : t.snapshot = u.snapshot)
    (hnode : t.node = u.node) : t = u := by
  obtain ⟨⟨S, node⟩⟩ := t
  obtain ⟨⟨S', node'⟩⟩ := u
  cases hsnapshot
  cases hnode
  rfl

namespace Value

variable {S : Snapshot} {shape : Shape} {t : FieldType} {v w : Value}

theorem sameItems_iff {xs ys : List Value}
    (h : ∀ x ∈ xs, ∀ y ∈ ys, x.same y ↔ x.core = y.core) :
    sameItems xs ys ↔ xs.map core = ys.map core := by
  induction xs generalizing ys with
  | nil => cases ys <;> simp [sameItems]
  | cons x xs ih =>
    cases ys with
    | nil => simp [sameItems]
    | cons y ys =>
      rw [sameItems, Bool.and_eq_true, h x List.mem_cons_self y List.mem_cons_self,
        ih fun x hx y hy => h x (List.mem_cons_of_mem _ hx) y (List.mem_cons_of_mem _ hy),
        List.map_cons, List.map_cons, List.cons.injEq]

theorem sameEntries_iff {xs ys : List (Atom × Value)}
    (h : ∀ x ∈ xs, ∀ y ∈ ys, x.2.same y.2 ↔ x.2.core = y.2.core) :
    sameEntries xs ys ↔
      (xs.map fun e => (e.1, e.2.core)) = ys.map fun e => (e.1, e.2.core) := by
  induction xs generalizing ys with
  | nil => cases ys <;> simp [sameEntries]
  | cons x xs ih =>
    cases ys with
    | nil => simp [sameEntries]
    | cons y ys =>
      rw [sameEntries, Bool.and_eq_true, Bool.and_eq_true, decide_eq_true_eq,
        h x List.mem_cons_self y List.mem_cons_self,
        ih fun x hx y hy => h x (List.mem_cons_of_mem _ hx) y (List.mem_cons_of_mem _ hy),
        List.map_cons, List.map_cons, List.cons.injEq, Prod.mk.injEq]

/-- Of the values of a field only one is empty. -/
theorem Typed.eq_of_isEmptyCollection (hv : v.Typed S shape t) (hw : w.Typed S shape t)
    (hv' : v.isEmptyCollection) (hw' : w.isEmptyCollection) : v = w := by
  cases hv with
  | atom _ => cases hv'
  | message _ _ _ _ => cases hv'
  | list _ =>
    cases hw with
    | list _ => rw [List.isEmpty_iff.mp hv', List.isEmpty_iff.mp hw']
  | @map _ _ xs _ _ =>
    cases hw with
    | @map _ _ ys _ _ =>
      obtain rfl : xs = [] := List.isEmpty_iff.mp hv'
      obtain rfl : ys = [] := List.isEmpty_iff.mp hw'
      rfl

/-- Values of a field are equal, present or not, if what counts of them is. -/
theorem sameField_iff {x y : Option Value}
    (h : ∀ v w, x = some v → y = some w → (v.same w ↔ v.core = w.core) ∧
      (v.isEmptyCollection → w.isEmptyCollection → v = w)) :
    sameField x y ↔ (x.filter fun v => !v.isEmptyCollection).map core =
      (y.filter fun v => !v.isEmptyCollection).map core := by
  cases x with
  | none =>
    cases y with
    | none => simp [sameField]
    | some w => simp [sameField, Option.filter_some]
  | some v =>
    cases y with
    | none => simp [sameField, Option.filter_some]
    | some w =>
      obtain ⟨hsame, hempty⟩ := h v w rfl rfl
      rw [sameField, hsame, Option.filter_some, Option.filter_some]
      cases hv : v.isEmptyCollection <;> cases hw : w.isEmptyCollection
      · simp
      · simp only [Bool.not_false, if_true, Bool.not_true, Option.map_some, Option.map_none,
          Bool.false_eq_true, if_false, reduceCtorEq, iff_false]
        intro heq
        rw [← isEmptyCollection_core, heq, isEmptyCollection_core, hw] at hv
        cases hv
      · simp only [Bool.not_false, if_true, Bool.not_true, Option.map_some, Option.map_none,
          Bool.false_eq_true, if_false, reduceCtorEq, iff_false]
        intro heq
        rw [← isEmptyCollection_core, heq, isEmptyCollection_core, hw] at hv
        cases hv
      · simp [hempty hv hw]

/-- Typed values are equal if and only if what counts of them is. The induction is on the first
value, and on the second one along with it. -/
theorem Typed.same_iff (hv : v.Typed S shape t) (hw : w.Typed S shape t) (hv' : v.Sorted)
    (hw' : w.Sorted) : v.same w ↔ v.core = w.core := by
  induction hv generalizing w with
  | @atom t a holds =>
    cases hw with
    | atom _ => simp [same, core]
    | message _ _ _ _ => simp [same, core]
  | @message t m node snapshot known fields ih =>
    cases hw with
    | atom _ => simp [same, core]
    | @message _ n node' snapshot' known' fields' =>
      have hm : m.Sorted := hv'
      have hn : n.Sorted := hw'
      have htype : m.type = n.type :=
        MessageType.ext (snapshot.trans snapshot'.symm) (Option.some.inj (node.symm.trans node'))
      have hsame : m.type.sameAs n.type := htype ▸ m.type.sameAs_self
      rw [same_message_iff hm.ascending hn.ascending, core_message, core_message, message.injEq,
        Message.core_eq_iff hm.ascending hn.ascending]
      refine and_congr (iff_of_true hsame htype) (forall_congr' fun f => ?_)
      rw [Message.value?_core hm.ascending, Message.value?_core hn.ascending]
      refine sameField_iff fun x y hx hy => ?_
      have hx' := Message.mem_of_value? hx
      have hy' := Message.mem_of_value? hy
      obtain ⟨-, s, hs⟩ := known _ hx'
      have hxt := fields _ hx' s hs
      have hyt := fields' _ hy' s hs
      exact ⟨ih _ hx' s hs hyt (hm.value hx) (hn.value hy), hxt.eq_of_isEmptyCollection hyt⟩
  | @list t xs elements ih =>
    cases hw with
    | @list _ ys elements' =>
      cases hv' with
      | list sorted =>
        cases hw' with
        | list sorted' =>
          rw [same, core, core, coreItems_eq, coreItems_eq, list.injEq]
          exact sameItems_iff fun x hx y hy =>
            ih x hx (elements' y hy) (sorted x hx) (sorted' y hy)
  | @map key t xs keys values ih =>
    cases hw with
    | @map _ _ ys keys' values' =>
      cases hv' with
      | map _ sorted =>
        cases hw' with
        | map _ sorted' =>
          rw [same, core, core, coreEntries_eq, coreEntries_eq, map.injEq, Bool.and_eq_true,
            decide_eq_true_eq]
          have hentries := sameEntries_iff fun x hx y hy =>
            ih x hx (values' y hy) (sorted x hx) (sorted' y hy)
          simpa using hentries

end Value

/-- Typed messages are equal if and only if what counts of them is. -/
theorem Message.Typed.beq_iff {S : Snapshot} {m n : Message} (hm : m.Typed S) (hn : n.Typed S)
    (hm' : m.Sorted) (hn' : n.Sorted) : m == n ↔ m.core = n.core := by
  have hcores : m.type = n.type → (m == n ↔ m.core = n.core) := by
    intro htype
    have hn : (Value.message n).Typed S .single (.message m.type.node) := htype ▸ hn
    have hsame := Value.Typed.same_iff hm hn hm' hn'
    rwa [Value.core_message, Value.core_message, Value.message.injEq] at hsame
  constructor
  · intro hsame
    have hnode := ((Value.same_message_iff hm'.ascending hn'.ascending).mp hsame).1
    simp only [MessageType.sameAs, Bool.and_eq_true, decide_eq_true_eq] at hnode
    exact (hcores (MessageType.ext (hm.snapshot.trans hn.snapshot.symm) hnode.2)).mp hsame
  · intro hcore
    have htype : m.core.type = n.core.type := by rw [hcore]
    exact (hcores htype).mpr hcore

/-! ### Writing -/

section

variable {g : Graph} {s : Slot}

theorem Value.encodingOfItems_core {items : List Value}
    (h : ∀ v ∈ items, v.core.encoding g s = v.encoding g s) :
    Value.encodingOfItems g s (items.map Value.core) = Value.encodingOfItems g s items := by
  induction items with
  | nil => rfl
  | cons v more ih =>
    rw [List.map_cons, Value.encodingOfItems, Value.encodingOfItems, h v List.mem_cons_self,
      ih fun w hw => h w (List.mem_cons_of_mem _ hw)]

theorem Value.encodingOfEntries_core {key : Scalar} {entries : List (Atom × Value)}
    (h : ∀ e ∈ entries, e.2.core.encoding g s.entryValue = e.2.encoding g s.entryValue) :
    Value.encodingOfEntries g s key (entries.map fun e => (e.1, e.2.core)) =
      Value.encodingOfEntries g s key entries := by
  induction entries with
  | nil => rfl
  | cons e more ih =>
    rw [List.map_cons, Value.encodingOfEntries, Value.encodingOfEntries, h e List.mem_cons_self,
      ih fun e' he' => h e' (List.mem_cons_of_mem _ he')]

end

section

variable {S : Snapshot} {s : Slot} {v : Value}

/-- Elements that may share one key are atoms, of which everything counts. -/
theorem Value.Typed.core_of_isPackable {t : FieldType} (h : v.Typed S .single t)
    (ht : t.isPackable) : v.core = v := by
  obtain ⟨a, rfl, -⟩ := h.exists_atom (FieldType.isMessage_of_isPackable ht)
  rw [Value.core]

/-- Nothing is written for an empty list or map. -/
theorem Value.Typed.encoding_of_isEmptyCollection (h : v.Typed S s.shape s.type)
    (hv : v.isEmptyCollection) : v.encoding S.graph s = .ok {} := by
  generalize hshape : s.shape = shape at h
  cases h with
  | atom _ => cases hv
  | message _ _ _ _ => cases hv
  | @list _ items _ =>
    obtain rfl : items = [] := List.isEmpty_iff.mp hv
    rw [Value.encoding, hshape]
    simp only [Slot.encodePacked, Value.encodingOfItems, List.isEmpty_nil, if_true]
    split <;> rfl
  | @map key _ entries _ _ =>
    obtain rfl : entries = [] := List.isEmpty_iff.mp hv
    rw [Value.encoding, hshape]
    simp only [Value.encodingOfEntries]

/-- A field of lists or maps is not required. -/
theorem Value.Typed.rule_of_isEmptyCollection {f : NodeId} (h : v.Typed S s.shape s.type)
    (hv : v.isEmptyCollection) (hs : S.graph.slot? f = some s) :
    (S.graph.field? f).any (fun fn => fn.rule = .required) = false := by
  obtain ⟨fn, -, hfn, -, -, -, -, hlist, hmap, -⟩ := Graph.slot?_eq_some hs
  generalize hshape : s.shape = shape at h
  cases h with
  | atom _ => cases hv
  | message _ _ _ _ => cases hv
  | list _ => simp [hfn, hlist hshape]
  | map _ _ => simp [hfn, hmap _ hshape]

end

namespace Message

variable {S : Snapshot} {m : Message}

/-- A field is written as what counts of it. -/
theorem Typed.writeField_core (hm : m.Typed S) (hm' : m.Sorted) {f : NodeId}
    (h : ∀ v s, m.value? f = some v → S.graph.slot? f = some s →
      v.core.encoding S.graph s = v.encoding S.graph s) (e : Encoding) :
    m.core.writeField e f = m.writeField e f := by
  have hgraph : m.core.graph = S.graph := hm.graph
  cases hv : m.value? f with
  | none =>
    have hcore : m.core.value? f = none := by
      rw [value?_core hm'.ascending, hv]
      rfl
    rw [writeField_of_none hcore, writeField_of_none hv, absentRequired_singleton hcore,
      absentRequired_singleton hv]
    rfl
  | some v =>
    obtain ⟨-, s, hs, htyped⟩ := hm.suits hv
    cases hempty : v.isEmptyCollection with
    | true =>
      have hcore : m.core.value? f = none := by
        rw [value?_core hm'.ascending, hv, Option.filter_some, hempty]
        rfl
      rw [writeField_of_none hcore, absentRequired_singleton hcore, hgraph,
        htyped.rule_of_isEmptyCollection hempty hs,
        writeField_of_some hm.graph hv hs (htyped.encoding_of_isEmptyCollection hempty)]
      rfl
    | false =>
      have hcore : m.core.value? f = some v.core := by
        rw [value?_core hm'.ascending, hv, Option.filter_some, hempty]
        rfl
      obtain ⟨part, hpart⟩ := htyped.exists_encoding s rfl rfl
      rw [writeField_of_some hm.graph hv hs hpart,
        writeField_of_some hgraph hcore hs ((h v s hv hs).trans hpart)]

/-- A message is written as what counts of it, if its values are. -/
theorem Typed.encoding_core_of_value? (hm : m.Typed S) (hm' : m.Sorted)
    (h : ∀ f v s, m.value? f = some v → S.graph.slot? f = some s →
      v.core.encoding S.graph s = v.encoding S.graph s) : m.core.encoding = m.encoding := by
  have hfield : m.core.writeField = m.writeField := by
    funext e f
    exact hm.writeField_core hm' (h f) e
  rw [encoding_eq, encoding_eq, hfield]
  rfl

end Message

/-- A typed value is written as what counts of it. -/
theorem Value.Typed.encoding_core {S : Snapshot} {shape : Shape} {t : FieldType} {v : Value}
    (h : v.Typed S shape t) (hv : v.Sorted) :
    ∀ s : Slot, s.shape = shape → s.type = t →
      v.core.encoding S.graph s = v.encoding S.graph s := by
  induction h with
  | atom _ =>
    intro s _ _
    rw [Value.core]
  | @message t m node snapshot known fields ih =>
    intro s hshape htype
    have hm : m.Typed S := .message rfl snapshot known fields
    have hm' : m.Sorted := hv
    have hgraph : m.core.graph = S.graph := hm.graph
    have hcontent : m.core.encoding = m.encoding :=
      hm.encoding_core_of_value? hm' fun f v s hv hs =>
        ih (f, v) (Message.mem_of_value? hv) s hs (hm'.value hv) s rfl rfl
    rw [Value.core_message, Value.encoding_message hgraph, Value.encoding_message hm.graph,
      hcontent, Slot.encodeMessage, Slot.encodeMessage, hshape, htype]
    cases t with
    | message _ => rfl
    | group _ => rfl
    | _ => cases node
  | @list t items elements ih =>
    intro s hshape htype
    cases hv with
    | list sorted =>
      rw [Value.core, Value.coreItems_eq, Value.encoding, Value.encoding, hshape]
      by_cases hpacked : (s.packed && s.isPackable) = true
      · have hpackable : t.isPackable := by
          simp only [Slot.isPackable, Bool.and_eq_true] at hpacked
          exact htype ▸ hpacked.2.2
        -- what is packed are atoms, of which everything counts
        have hitems : items.map Value.core = items.map id :=
          List.map_congr_left fun v hv => (elements v hv).core_of_isPackable hpackable
        rw [hitems, List.map_id]
      · simp only [hpacked]
        exact Value.encodingOfItems_core fun v hv => ih v hv (sorted v hv) s.element rfl htype
  | map keys values ih =>
    intro s hshape htype
    cases hv with
    | map _ sorted =>
      rw [Value.core, Value.coreEntries_eq, Value.encoding, Value.encoding, hshape]
      exact Value.encodingOfEntries_core fun e he => ih e he (sorted e he) s.entryValue rfl htype

/-- A typed message is written as what counts of it. -/
theorem Message.Typed.encoding_core {S : Snapshot} {m : Message} (hm : m.Typed S)
    (hm' : m.Sorted) : m.core.encoding = m.encoding :=
  hm.encoding_core_of_value? hm' fun _ _ s hv hs =>
    (hm.value hv hs).encoding_core (hm'.value hv) s rfl rfl

end Protobuf

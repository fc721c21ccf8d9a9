import Protobuf.Proofs.Message.Change
import Protobuf.Proofs.Message.Made
import Protobuf.Proofs.Registry.Built

/-!
# Typed messages

The values of a field have the shape and the type that its slot says. Nothing that is done to a
message without unchecked changes leads out of this, whatever the definitions are that the message
belongs to. In particular the members of a oneof may be such that defaults are filled in for several
of them at once. So less is asked here than of well-typed messages: fields need not be in order, and
members of a oneof may compete.

## Main definitions

* `Value.Typed` — a value is of the shape and the type of a slot.
* `Message.Typed` — all values of a message are those of their slots.
* `Change.Suits` — a change puts such values only.
* `Value.Credible` — what is known of a value before it has been checked.

## Main results

* `Change.Suits.typed_apply`, `Message.Typed.populate` — changes and defaults
* `Decoding.typed_message` — whatever is read is typed
* `Message.Made.typed` — what is made without unchecked changes is typed
-/

namespace Protobuf

/-- The value is kept as values of the given shape and type are kept: an atom of the one kind for
the type, a message of the one type, a list of such values, or a map with keys and values of the
types of the field. -/
inductive Value.Typed (S : Snapshot) : Shape → FieldType → Value → Prop
  | atom {t : FieldType} {a : Atom} (holds : t.holds a) : Typed S .single t (.atom a)
  | message {t : FieldType} {m : Message} (node : t.message? = some m.type.node)
      (snapshot : m.type.snapshot = S)
      (known : ∀ e ∈ m.entries,
        e.1 ∈ S.graph.allFields m.type.node ∧ ∃ s, S.graph.slot? e.1 = some s)
      (fields : ∀ e ∈ m.entries, ∀ s, S.graph.slot? e.1 = some s → Typed S s.shape s.type e.2) :
      Typed S .single t (.message m)
  | list {t : FieldType} {items : List Value} (elements : ∀ v ∈ items, Typed S .single t v) :
      Typed S .list t (.list items)
  | map {key : Scalar} {t : FieldType} {entries : List (Atom × Value)}
      (keys : ∀ e ∈ entries, key.holds e.1) (values : ∀ e ∈ entries, Typed S .single t e.2) :
      Typed S (.map key) t (.map ⟨key, t, some S, entries⟩)

/-- The message is one of the snapshot, and its values are those of their slots. -/
def Message.Typed (S : Snapshot) (m : Message) : Prop :=
  Value.Typed S .single (.message m.type.node) (.message m)

/-- The value is one for a field of the message type `node`. -/
def Value.Suits (S : Snapshot) (node f : NodeId) (v : Value) : Prop :=
  f ∈ S.graph.allFields node ∧ ∃ s, S.graph.slot? f = some s ∧ v.Typed S s.shape s.type

namespace Message

variable {S : Snapshot} {m : Message} {f : NodeId} {v : Value}

/-- A message is typed field by field. -/
theorem typed_iff : m.Typed S ↔
    m.type.snapshot = S ∧ ∀ e ∈ m.entries, e.2.Suits S m.type.node e.1 := by
  constructor
  · rintro (_ | ⟨-, hsnapshot, hknown, hfields⟩)
    refine ⟨hsnapshot, fun e he => ?_⟩
    obtain ⟨hmem, s, hs⟩ := hknown e he
    exact ⟨hmem, s, hs, hfields e he s hs⟩
  · rintro ⟨hsnapshot, hsuits⟩
    refine .message rfl hsnapshot (fun e he => ?_) fun e he s hs => ?_
    · obtain ⟨hmem, s, hs, -⟩ := hsuits e he
      exact ⟨hmem, s, hs⟩
    · obtain ⟨-, s', hs', hv⟩ := hsuits e he
      rw [hs] at hs'
      cases hs'
      exact hv

end Message

theorem Value.typed_message_iff {S : Snapshot} {t : FieldType} {m : Message} :
    (Value.message m).Typed S .single t ↔ t.message? = some m.type.node ∧ m.Typed S := by
  constructor
  · rintro (_ | ⟨hnode, hsnapshot, hknown, hfields⟩)
    exact ⟨hnode, .message rfl hsnapshot hknown hfields⟩
  · rintro ⟨hnode, _ | ⟨-, hsnapshot, hknown, hfields⟩⟩
    exact .message hnode hsnapshot hknown hfields

namespace Message.Typed

variable {S : Snapshot} {m : Message} {f : NodeId} {v : Value} {s : Slot}

theorem snapshot (hm : m.Typed S) : m.type.snapshot = S :=
  (typed_iff.mp hm).1

theorem graph (hm : m.Typed S) : m.graph = S.graph :=
  graph_of_snapshot hm.snapshot

theorem suits (hm : m.Typed S) (hv : m.value? f = some v) : v.Suits S m.type.node f :=
  (typed_iff.mp hm).2 (f, v) (mem_of_value? hv)

theorem value (hm : m.Typed S) (hv : m.value? f = some v) (hs : S.graph.slot? f = some s) :
    v.Typed S s.shape s.type := by
  obtain ⟨-, s', hs', htyped⟩ := hm.suits hv
  rw [hs] at hs'
  cases hs'
  exact htyped

/-! ### Changes -/

theorem empty {t : MessageType} (h : t.snapshot = S) : (Message.empty t).Typed S :=
  typed_iff.mpr ⟨h, by simp [Message.empty]⟩

theorem insert (hm : m.Typed S) (hv : v.Suits S m.type.node f) : (m.insert f v).Typed S :=
  typed_iff.mpr ⟨hm.snapshot, Keyed.forall_mem_insert hv (typed_iff.mp hm).2⟩

theorem erase (hm : m.Typed S) (f : NodeId) : (m.erase f).Typed S :=
  typed_iff.mpr ⟨hm.snapshot, fun e he => (typed_iff.mp hm).2 e (Keyed.mem_of_mem_erase he)⟩

theorem put (hm : m.Typed S) (hv : v.Suits S m.type.node f) : (m.put f v).Typed S := by
  have herase : ((m.rivals f).foldl Message.erase m).Typed S :=
    List.foldlRecOn _ _ hm fun _ hm f _ => hm.erase f
  refine herase.insert ?_
  rwa [WellTyped.type_foldl_erase]

/-- The elements of a list field, if there are any, are values of its type. -/
theorem items (hm : m.Typed S) (hs : S.graph.slot? f = some s) (hshape : s.shape = .list) :
    ∀ v ∈ ((m.value? f).bind Value.list?).getD [], v.Typed S .single s.type := by
  cases hv : m.value? f with
  | none => simp
  | some w =>
    have hw := hm.value hv hs
    rw [hshape] at hw
    cases hw with
    | list hitems => exact hitems

theorem insert_list (hm : m.Typed S) (hf : f ∈ S.graph.allFields m.type.node)
    (hs : S.graph.slot? f = some s) (hshape : s.shape = .list) {items : List Value}
    (hitems : ∀ v ∈ items, v.Typed S .single s.type) :
    (m.insert f (.list ((((m.value? f).bind Value.list?).getD []) ++ items))).Typed S := by
  refine hm.insert ⟨hf, s, hs, ?_⟩
  rw [hshape]
  exact .list fun v hv => (List.mem_append.mp hv).elim (hm.items hs hshape v) (hitems v)

/-! ### Defaults -/

theorem fill (hg : S.graph.DefaultsHold) (hm : m.Typed S)
    (hf : f ∈ S.graph.allFields m.type.node) : (m.fill f).Typed S := by
  rw [Message.fill]
  split
  · rename_i a hv hdefault
    obtain ⟨fn, hfn, ha⟩ := Option.bind_eq_some_iff.mp hdefault
    obtain ⟨hfn, halways⟩ := Option.filter_eq_some_iff.mp hfn
    obtain ⟨l, hl, ha⟩ := Option.bind_eq_some_iff.mp ha
    rw [hm.graph] at hfn
    obtain ⟨s, hs, hshape, htype⟩ := Graph.slot?_of_isAlwaysPresent hfn hl halways
    refine hm.insert ⟨hf, s, hs, ?_⟩
    rw [hshape, htype]
    exact .atom (hg f fn l a hfn hl ha)
  · exact hm

theorem populate (hg : S.graph.DefaultsHold) (hm : m.Typed S) : m.populate.Typed S := by
  rw [Message.populate]
  split
  · rw [hm.graph]
    refine (List.foldlRecOn (motive := fun n : Message => n.Typed S ∧ n.type = m.type)
      _ _ ⟨hm, rfl⟩ ?_).1
    rintro n ⟨hn, htype⟩ f hf
    exact ⟨hn.fill hg (htype ▸ Graph.mem_allFields.mpr (.inl hf)),
      (WellTyped.type_fill n f).trans htype⟩
  · exact hm

theorem new (hg : S.graph.DefaultsHold) {t : MessageType} (h : t.snapshot = S) :
    (Message.new t).Typed S :=
  (empty h).populate hg

end Message.Typed

/-! ### Maps -/

namespace MapValue

variable {S : Snapshot} {key : Scalar} {t : FieldType} {map map' : MapValue}

theorem typed_empty : (Value.map (MapValue.empty key t (some S))).Typed S (.map key) t :=
  .map (by simp) (by simp)

theorem typed_insert (h : (Value.map map).Typed S (.map key) t) {k : Atom} {v : Value}
    (hk : key.holds k) (hv : v.Typed S .single t) :
    (Value.map (map.insert k v)).Typed S (.map key) t := by
  cases h with
  | map keys values =>
    exact .map (Keyed.forall_mem_insert hk keys)
      (Keyed.forall_mem_insert hv values)

theorem typed_erase (h : (Value.map map).Typed S (.map key) t) (k : Value) :
    (Value.map (map.erase k)).Typed S (.map key) t := by
  rw [MapValue.erase]
  split
  · cases h with
    | map keys values =>
      exact .map (fun e he => keys e (Keyed.mem_of_mem_erase he)) fun e he =>
        values e (Keyed.mem_of_mem_erase he)
  · exact h

theorem typed_clear (h : (Value.map map).Typed S (.map key) t) :
    (Value.map map.clear).Typed S (.map key) t := by
  cases h with
  | map _ _ => exact typed_empty

end MapValue

/-! ### Records -/

/-- The change puts values into a message of the type `node` that suit their fields. -/
inductive Change.Suits (S : Snapshot) (node : NodeId) : Change → Prop
  | keep : Suits S node .keep
  | put {f : NodeId} {v : Value} (suits : v.Suits S node f) : Suits S node (.put f v)
  | append {f : NodeId} {items : List Value} {s : Slot} (known : f ∈ S.graph.allFields node)
      (slot : S.graph.slot? f = some s) (shape : s.shape = .list)
      (typed : ∀ v ∈ items, v.Typed S .single s.type) : Suits S node (.append f items)
  | putEntry {f : NodeId} {s : Slot} {key : Scalar} {k : Atom} {v : Value}
      (known : f ∈ S.graph.allFields node) (slot : S.graph.slot? f = some s)
      (shape : s.shape = .map key) (holds : key.holds k) (typed : v.Typed S .single s.type) :
      Suits S node (.putEntry f s key k v)

namespace Change.Suits

variable {S : Snapshot} {m : Message} {node : NodeId} {c : Change}

theorem typed_apply (hm : m.Typed S) (hc : c.Suits S m.type.node) : (c.apply m).Typed S := by
  cases hc with
  | keep => exact hm
  | put suits => exact hm.put suits
  | append known slot shape typed =>
    rw [apply, Message.append]
    split
    · exact hm
    · exact hm.insert_list known slot shape typed
  | @putEntry f s key k v known slot shape holds typed =>
    have hinsert : ∀ map : MapValue, (Value.map map).Typed S (.map key) s.type →
        (m.insert f (.map (MapValue.insert map k v))).Typed S := fun map hmap =>
      hm.insert ⟨known, s, slot, shape ▸ MapValue.typed_insert hmap holds typed⟩
    rw [apply, Message.putEntry]
    split
    · refine hinsert _ ?_
      rw [Message.emptyMap, hm.snapshot]
      exact MapValue.typed_empty
    · rename_i map hmap
      exact hinsert map (shape ▸ hm.value hmap slot)
    · exact hm

theorem typed_foldl {cs : List Change} (hcs : ∀ c ∈ cs, c.Suits S node) (hm : m.Typed S)
    (hnode : m.type.node = node) : (cs.foldl Change.apply m).Typed S := by
  induction cs generalizing m with
  | nil => exact hm
  | cons c more ih =>
    refine ih (fun c hc => hcs c (List.mem_cons_of_mem _ hc))
      (typed_apply hm (hnode ▸ hcs c List.mem_cons_self)) ?_
    rw [Change.type_apply, hnode]

end Change.Suits

/-! ### Reading -/

namespace Decoding

/-- A reader for the messages inside of a message gives typed ones. -/
def Inner.Typed (S : Snapshot) (inner : Inner) : Prop :=
  ∀ t stream, t.snapshot = S → Yields (inner t stream) fun m => m.type = t ∧ m.Typed S

section

variable {S : Snapshot} {inner : Inner} {t : MessageType}

theorem typed_atom (s : Slot) (p : Wire.Payload) :
    Yields (Value.atom <$> atom s p) fun v => v.Typed S .single s.type := by
  refine Yields.map ?_
  rw [atom]
  split
  · rename_i a ha
    exact Yields.pure (.atom (FieldType.holds_of_ofPayload ha))
  · exact Yields.throw _
  · exact Yields.throw _

theorem typed_value (hinner : Inner.Typed S inner) (ht : t.snapshot = S) (s : Slot)
    (p : Wire.Payload) : Yields (value inner t s p) fun v => v.Typed S .single s.type := by
  have hmessage : ∀ node stream, s.type.message? = some node →
      Yields (Value.message <$> inner (t.sibling node) stream)
        fun v => v.Typed S .single s.type := by
    intro node stream hnode
    refine Yields.map ((hinner (t.sibling node) stream ht).mono fun m hm => ?_)
    refine Value.typed_message_iff.mpr ⟨?_, hm.2⟩
    rw [hnode, hm.1]
    rfl
  simp only [value]
  split
  · rename_i node content htype
    exact hmessage node _ (by rw [htype]; rfl)
  · rename_i node records htype
    exact hmessage node _ (by rw [htype]; rfl)
  · exact typed_atom s _

theorem typed_packed (s : Slot) (content : List UInt8) :
    Yields (packed s content) fun items => ∀ v ∈ items, v.Typed S .single s.type := by
  rw [packed]
  split
  · exact Yields.mapM fun p _ => typed_atom s p
  · exact Yields.throw _

/-- What stands for the value of an entry without one is of the type of the values. -/
theorem typed_absentHalf (hg : S.graph.DefaultsHold) (ht : t.snapshot = S) (type : FieldType) :
    (absentHalf t type).Typed S .single type := by
  have hmessage : ∀ node, type.message? = some node →
      (Value.message (Message.new (t.sibling node))).Typed S .single type := by
    intro node hnode
    refine Value.typed_message_iff.mpr ⟨?_, .new hg ht⟩
    rw [hnode, Message.new, Message.WellTyped.type_populate]
    rfl
  cases type with
  | scalar s => exact .atom s.holds_zero
  | enumeration e => exact .atom rfl
  | message node => exact hmessage node rfl
  | group node => exact hmessage node rfl

/-- The halves of an entry that have been read are of the types of the map. -/
structure TypedHalves (S : Snapshot) (s : Slot) (key : Scalar) (read : Option Atom × Option Value) :
    Prop where
  key : ∀ k, read.1 = some k → key.holds k
  value : ∀ v, read.2 = some v → v.Typed S .single s.type

theorem typed_half (hinner : Inner.Typed S inner) (ht : t.snapshot = S) (levels : Nat) (s : Slot)
    (key : Scalar) {read : Option Atom × Option Value} (hread : TypedHalves S s key read)
    (r : Wire.Record) : Yields (half inner levels t s key read r) (TypedHalves S s key) := by
  obtain ⟨id, p⟩ := r
  rw [half]
  split
  · refine (collects_atom (s.entryKey key) p).yields.bind fun k hk => ?_
    refine Yields.pure ⟨fun k' hk' => ?_, hread.value⟩
    cases hk'
    exact hk
  · split
    · refine (typed_value hinner ht s.entryValue p).bind fun v hv => ?_
      refine Yields.pure ⟨hread.key, fun v' hv' => ?_⟩
      cases hv'
      exact hv
    · exact Yields.andThen fun _ => Yields.pure hread

theorem typed_entry (hg : S.graph.DefaultsHold) (hinner : Inner.Typed S inner)
    (ht : t.snapshot = S) (levels : Nat) (s : Slot) (key : Scalar) (content : List UInt8) :
    Yields (entry inner levels t s key content)
      fun e => key.holds e.1 ∧ e.2.Typed S .single s.type := by
  rw [entry]
  refine (Yields.foldlM
    (fun read hread r _ => typed_half hinner ht levels s key hread r)
    ⟨by simp, by simp⟩).bind fun read hread => ?_
  refine Yields.andThen fun _ => Yields.pure ⟨?_, ?_⟩
  · cases hk : read.1 with
    | none => exact key.holds_zero
    | some k => exact hread.key k hk
  · cases hv : read.2 with
    | none => exact typed_absentHalf hg ht s.type
    | some v => exact hread.value v hv

/-- Whatever a record holds, the change that it makes suits the message. -/
theorem suits_change (hg : S.graph.DefaultsHold) (hinner : Inner.Typed S inner)
    (ht : t.snapshot = S) (levels : Nat) (r : Wire.Record) :
    Yields (change inner levels t r) (Change.Suits S t.node) := by
  obtain ⟨id, p⟩ := r
  have hgraph : t.graph = S.graph := by rw [← ht]; rfl
  rw [change]
  split
  · rename_i f hf
    rw [MessageType.fieldById?, hgraph] at hf
    have hknown := Graph.mem_of_fieldById? hf
    refine (collects_slot t.graph f).yields.bind fun s hs => ?_
    rw [hgraph] at hs
    rw [fieldChange]
    refine Yields.andThen fun _ => ?_
    generalize hshape : s.shape = shape
    unfold shapedChange
    split
    · exact (typed_value hinner ht s _).bind fun v hv =>
        Yields.pure (.put ⟨hknown, s, hs, hshape ▸ hv⟩)
    · split
      · exact (typed_packed s _).bind fun items hitems =>
          Yields.pure (.append hknown hs hshape hitems)
      · exact (typed_value hinner ht s _).bind fun v hv =>
          Yields.pure (.append hknown hs hshape (by simpa using hv))
    · exact (typed_value hinner ht s _).bind fun v hv =>
        Yields.pure (.append hknown hs hshape (by simpa using hv))
    · exact (typed_entry hg hinner ht levels s _ _).bind fun e he =>
        Yields.pure (.putEntry hknown hs hshape he.1 he.2)
    · exact Yields.throw _
  · exact Yields.andThen fun _ => Yields.pure .keep

theorem typed_messageWith (hg : S.graph.DefaultsHold) (hinner : Inner.Typed S inner)
    (levels : Nat) : Inner.Typed S (messageWith inner levels) := by
  intro t stream ht
  rw [messageWith_eq]
  refine (Yields.mapM fun r _ => suits_change hg hinner ht levels r).bind fun cs hcs => ?_
  refine Yields.andThen fun _ => Yields.andThen fun _ => Yields.pure ⟨?_, ?_⟩
  · rw [Message.WellTyped.type_populate, Change.type_foldl]
    rfl
  · exact (Change.Suits.typed_foldl hcs (.empty ht) rfl).populate hg

/-- Whatever is read is typed. The induction is on the levels that may be begun. -/
theorem typed_message (hg : S.graph.DefaultsHold) (levels : Nat) :
    Inner.Typed S (message levels) := by
  induction levels with
  | zero => exact typed_messageWith hg (fun _ _ _ => Yields.throw _) 0
  | succ levels ih => exact typed_messageWith hg ih (levels + 1)

end

end Decoding

theorem Message.IsReadFrom.typed {S : Snapshot} (hg : S.graph.DefaultsHold) {t : MessageType}
    {bytes : List UInt8} {m : Message} (ht : t.snapshot = S) (h : m.IsReadFrom t bytes) :
    m.Typed S := by
  obtain ⟨noted, hrun⟩ := isReadFrom_iff.mp h
  exact (Decoding.typed_message hg recursionLimit t (.ofBytes bytes) ht _ _ _ hrun).2

/-! ### Values that have not been checked -/

/-- What is known of a value before it has been checked: its messages of the snapshot are typed, and
keys of maps are of the types that the maps say. -/
inductive Value.Credible (S : Snapshot) : Value → Prop
  | atom (a : Atom) : Credible S (.atom a)
  | list {items : List Value} (elements : ∀ v ∈ items, Credible S v) : Credible S (.list items)
  | map {m : MapValue} (keys : ∀ e ∈ m.entries, m.keyType.holds e.1)
      (values : ∀ e ∈ m.entries, Credible S e.2) : Credible S (.map m)
  | message {m : Message} (typed : m.type.snapshot.stamp = S.stamp → m.Typed S) :
      Credible S (.message m)

section

variable {S : Snapshot} {shape : Shape} {t : FieldType} {v v' : Value}

theorem Value.Typed.credible (h : v.Typed S shape t) : v.Credible S := by
  induction h with
  | atom _ => exact .atom _
  | message node snapshot known fields _ =>
    exact .message fun _ => .message rfl snapshot known fields
  | list _ ih => exact .list ih
  | map keys _ ih => exact .map keys ih

namespace Value.Credible

/-- A value that is let in is of the type. -/
theorem fit (hv : v.Credible S) (h : S.fit t v = .ok v') : v'.Typed S .single t := by
  rcases Snapshot.fit_eq_ok h with ⟨a, rfl, ha⟩ | ⟨rfl, m, rfl, node, hnode, hsame⟩
  · exact .atom ha
  · rw [MessageType.sameAs, Bool.and_eq_true, decide_eq_true_eq, decide_eq_true_eq] at hsame
    cases hv with
    | message htyped =>
      refine Value.typed_message_iff.mpr ⟨?_, htyped hsame.1⟩
      rw [hnode, hsame.2]

/-- A value is let into a map as an atom or as it was, whatever the map knows. -/
theorem fitMap {m : MapValue} (hv : v.Credible S) (h : MapValue.fit m v = .ok v') :
    v'.Credible S := by
  rw [MapValue.fit] at h
  split at h
  · rcases Snapshot.fit_eq_ok h with ⟨a, rfl, -⟩ | ⟨rfl, -⟩
    · exact .atom a
    · exact hv
  · rcases FieldType.fitDetached_eq_ok h with ⟨a, rfl⟩ | rfl
    · exact .atom a
    · exact hv

section

variable {map map' : MapValue}

theorem mapSet (hm : (Value.map map).Credible S) (hv : v.Credible S) {key : Value}
    (h : map.set key v = .ok map') : (Value.map map').Credible S := by
  obtain ⟨k, v', hk, hv', rfl⟩ := MapValue.set_eq_ok h
  cases hm with
  | map keys values =>
    exact .map (Keyed.forall_mem_insert hk keys)
      (Keyed.forall_mem_insert (hv.fitMap hv') values)

theorem mapErase (hm : (Value.map map).Credible S) (key : Value) :
    (Value.map (map.erase key)).Credible S := by
  cases hm with
  | map keys values =>
    refine .map (fun e he => ?_) fun e he => values e (MapValue.mem_erase he)
    rw [MapValue.keyType_erase]
    exact keys e (MapValue.mem_erase he)

theorem attach (hm : (Value.map map).Credible S) (h : map.attach S = .ok map') :
    (Value.map map').Typed S (.map map.keyType) map.valueType := by
  obtain ⟨entries, rfl, -, hback⟩ := MapValue.attach_eq_ok h
  cases hm with
  | map keys values =>
    refine .map (fun e' he' => ?_) fun e' he' => ?_
    · obtain ⟨e, he, hkey, -⟩ := hback e' he'
      rw [hkey]
      exact keys e he
    · obtain ⟨e, he, -, hfit⟩ := hback e' he'
      exact (values e he).fit hfit

end

/-- What is let into a field is of its shape and type. -/
theorem fitField {s : Slot} (hv : v.Credible S) (h : S.fitField s v = .ok v') :
    v'.Typed S s.shape s.type := by
  rcases Snapshot.fitField_eq_ok h with ⟨hshape, hfit⟩ |
    ⟨items, items', hshape, rfl, rfl, hfit⟩ | ⟨map, map', hshape, htype, rfl, rfl, hattach⟩
  · rw [hshape]
    exact hv.fit hfit
  · rw [hshape]
    cases hv with
    | list hitems =>
      refine .list fun w hw => ?_
      obtain ⟨w', hw', hfit⟩ := exists_of_mem_mapM hfit hw
      exact (hitems w' hw').fit hfit
  · rw [hshape, htype]
    exact hv.attach hattach

end Value.Credible

/-- An open map takes only what fits it. -/
theorem MapValue.typed_set {key : Scalar} {map map' : MapValue}
    (h : (Value.map map).Typed S (.map key) t) {k : Value} (hv : v.Credible S)
    (hset : map.set k v = .ok map') : (Value.map map').Typed S (.map key) t := by
  obtain ⟨k', v', hk', hv', rfl⟩ := MapValue.set_eq_ok hset
  cases h with
  | map keys values => exact MapValue.typed_insert (.map keys values) hk' (hv.fit hv')

end

/-! ### Messages that have been made -/

namespace Message.Typed

variable {S : Snapshot} {m m' m'' : Message} {name : String} {v : Value}

theorem set (hm : m.Typed S) (hv : v.Credible S) (h : m.set name v = .ok m') : m'.Typed S := by
  obtain ⟨f, s, v', hf, hs, hfit, rfl⟩ := set_eq_ok h
  rw [hm.graph] at hs
  rw [hm.snapshot] at hfit
  exact hm.put ⟨hm.graph ▸ mem_of_node hf, s, hs, hv.fitField hfit⟩

theorem add (hm : m.Typed S) (hv : v.Credible S) (h : m.add name v = .ok m') : m'.Typed S := by
  obtain ⟨f, s, v', hf, hs, hshape, hfit, rfl⟩ := add_eq_ok h
  rw [hm.graph] at hs
  rw [hm.snapshot] at hfit
  refine hm.insert_list (hm.graph ▸ mem_of_node hf) hs hshape fun w hw => ?_
  rw [List.mem_singleton.mp hw]
  exact hv.fit hfit

/-- A map is opened in a field that has one, or is put in there empty. -/
theorem openMap (hm : m.Typed S) {map : MapValue} (h : m.openMap name = .ok (map, m')) :
    m'.Typed S ∧ ∃ f s key, m.node name = .ok f ∧ S.graph.slot? f = some s ∧
      s.shape = .map key ∧ (Value.map map).Typed S (.map key) s.type := by
  obtain ⟨f, s, key, hf, hs, hshape, hcases⟩ := openMap_eq_ok h
  rw [hm.graph] at hs
  rcases hcases with ⟨-, rfl, rfl⟩ | ⟨hv, rfl⟩
  · have htyped : (Value.map (m.emptyMap s key)).Typed S (.map key) s.type := by
      rw [emptyMap, hm.snapshot]
      exact MapValue.typed_empty
    exact ⟨hm.insert ⟨hm.graph ▸ mem_of_node hf, s, hs, hshape ▸ htyped⟩, f, s, key, hf, hs, hshape,
      htyped⟩
  · exact ⟨hm, f, s, key, hf, hs, hshape, hshape ▸ hm.value hv hs⟩

/-- An open map may be exchanged for another one of the same types. -/
theorem changeMap (hm : m.Typed S) {map map' : MapValue}
    (h : m.openMap name = .ok (map, m'))
    (hmap : ∀ key t, (Value.map map).Typed S (.map key) t → (Value.map map').Typed S (.map key) t)
    (hput : m'.update? name (fun _ => some (.map map')) = some m'') : m''.Typed S := by
  obtain ⟨hm', f, s, key, hf, hs, hshape, htyped⟩ := hm.openMap h
  have htype := type_openMap h
  obtain ⟨f', v', hf', hv', rfl⟩ := update?_eq_some hput
  obtain ⟨v, -, hv'⟩ := Option.bind_eq_some_iff.mp hv'
  cases hv'
  rw [node, htype, ← node, hf] at hf'
  cases hf'
  refine hm'.insert ⟨?_, s, hs, hshape ▸ hmap key s.type htyped⟩
  rw [htype, ← hm.graph]
  exact mem_of_node hf

end Message.Typed

section

variable {S : Snapshot} {m m' m'' : Message}

theorem Value.Credible.typed (h : (Value.message m).Credible S)
    (hm : m.type.snapshot.stamp = S.stamp) : m.Typed S := by
  cases h with
  | message htyped => exact htyped hm

/-- A change leaves the type of a message alone, so it was one of the snapshot before. -/
theorem Value.Credible.change (h : (Value.message m).Credible S) (htype : m'.type = m.type)
    (hchange : m.Typed S → m'.Typed S) : (Value.message m').Credible S :=
  .message fun hstamp => hchange (h.typed (htype ▸ hstamp))

theorem Value.Credible.changeMap (hm : (Value.message m).Credible S) {name : String}
    {map map' : MapValue} (h : m.openMap name = .ok (map, m'))
    (hmap : ∀ key t, (Value.map map).Typed S (.map key) t → (Value.map map').Typed S (.map key) t)
    (hput : m'.update? name (fun _ => some (.map map')) = some m'') :
    (Value.message m'').Credible S := by
  refine hm.change ?_ fun htyped => htyped.changeMap h hmap hput
  obtain ⟨f, v', -, -, rfl⟩ := Message.update?_eq_some hput
  show m'.type = m.type
  exact Message.type_openMap h

/-- What a program comes by without unchecked changes is credible, one way after the other. -/
theorem Value.Given.credible (hg : S.graph.DefaultsHold) {v : Value} (h : v.Given S) :
    v.Credible S := by
  induction h with
  | atom a => exact .atom a
  | list _ ih => exact .list ih
  | element _ hmem ih =>
    cases ih with
    | list hitems => exact hitems _ hmem
  | emptyMap key type owner =>
    exact .map (by simp [MapValue.empty]) (by simp [MapValue.empty])
  | mapSet _ _ hset ihm ihv => exact ihm.mapSet ihv hset
  | mapErase _ key ih => exact ih.mapErase key
  | mapClear _ _ => exact .map (by simp [MapValue.clear]) (by simp [MapValue.clear])
  | mapEntry _ hmem ih =>
    cases ih with
    | map _ hvalues => exact hvalues _ hmem
  | foreign hstamp => exact .message fun h => absurd h hstamp
  | new ht => exact .message fun _ => .new hg ht
  | decoded ht hread => exact .message fun _ => Message.IsReadFrom.typed hg ht (.inl hread)
  | decodedPart ht hread =>
    exact .message fun _ => Message.IsReadFrom.typed hg ht (.inr ⟨_, _, hread⟩)
  | set _ _ hset ihm ihv =>
    refine ihm.change ?_ fun hm => hm.set ihv hset
    obtain ⟨f, s, v', -, -, -, rfl⟩ := Message.set_eq_ok hset
    exact Decoding.type_put _ f v'
  | add _ _ hadd ihm ihv =>
    refine ihm.change ?_ fun hm => hm.add ihv hadd
    obtain ⟨f, s, v', -, -, -, -, rfl⟩ := Message.add_eq_ok hadd
    rfl
  | clear _ hclear ihm =>
    obtain ⟨f, rfl⟩ := Message.clear_eq_ok hclear
    exact ihm.change rfl fun hm => hm.erase f
  | openMap _ hopen ihm =>
    exact ihm.change (Message.type_openMap hopen) fun hm => (hm.openMap hopen).1
  | openSet _ _ hopen hset hput ihm ihv =>
    exact ihm.changeMap hopen (fun _ _ h => MapValue.typed_set h ihv hset) hput
  | openErase _ hopen hput ihm =>
    exact ihm.changeMap hopen (fun _ _ h => MapValue.typed_erase h _) hput
  | openClear _ hopen hput ihm =>
    exact ihm.changeMap hopen (fun _ _ h => MapValue.typed_clear h) hput
  | field hsnapshot _ hget ihm =>
    obtain ⟨f, -, hv⟩ := Option.bind_eq_some_iff.mp hget
    have hm := ihm.typed (by rw [hsnapshot])
    obtain ⟨-, s, -, htyped⟩ := hm.suits hv
    exact htyped.credible

end

/-- Messages that have been made without unchecked changes are typed. -/
theorem Message.Made.typed {S : Snapshot} (hg : S.graph.DefaultsHold) {m : Message}
    (hm : m.Made S) : m.Typed S :=
  (hm.given.credible hg).typed (by rw [hm.snapshot])

end Protobuf

import Protobuf.Proofs.Message.Decoded

/-!
# Messages that have been made

A program comes by messages, and by the values that it puts into them, in a few ways only. As long
as it makes no unchecked changes, every message of a snapshot that it comes by is well typed. What
it has of other snapshots, and lists and maps that it has put together by itself, can be anything:
such values are checked when they are put into a message.

## Main definitions

* `Value.Given` — a program may have come by the value without unchecked changes.
* `Message.Made` — a message of a snapshot that has been made in this way.
* `Value.Trusted` — what is known of a value before it has been checked.

## Main results

* `Message.Made.wellTyped` — messages that have been made are well typed
* `Message.Made.ofFields` — making a message from its fields is one of the ways
-/

namespace Protobuf

/-! ### Ways of making values -/

/-- A program that deals with messages of the snapshot `S` may have come by the value without
unchecked changes. Values of other snapshots are not looked into. -/
inductive Value.Given (S : Snapshot) : Value → Prop
  | atom (a : Atom) : Given S (.atom a)
  | list {items : List Value} (given : ∀ v ∈ items, Given S v) : Given S (.list items)
  | element {items : List Value} {v : Value} (whole : Given S (.list items)) (mem : v ∈ items) :
      Given S v
  | emptyMap (key : Scalar) (type : FieldType) (owner : Option Snapshot) :
      Given S (.map (MapValue.empty key type owner))
  | mapSet {m m' : MapValue} {key v : Value} (whole : Given S (.map m)) (given : Given S v)
      (set : m.set key v = .ok m') : Given S (.map m')
  | mapErase {m : MapValue} (whole : Given S (.map m)) (key : Value) : Given S (.map (m.erase key))
  | mapClear {m : MapValue} (whole : Given S (.map m)) : Given S (.map m.clear)
  | mapEntry {m : MapValue} {e : Atom × Value} (whole : Given S (.map m)) (mem : e ∈ m.entries) :
      Given S e.2
  | foreign {m : Message} (stamp : m.type.snapshot.stamp ≠ S.stamp) : Given S (.message m)
  | new {t : MessageType} (snapshot : t.snapshot = S) : Given S (.message (Message.new t))
  | decoded {t : MessageType} {bytes : List UInt8} {m : Message} (snapshot : t.snapshot = S)
      (read : Message.decode t bytes = .ok m) : Given S (.message m)
  | decodedPart {t : MessageType} {bytes : List UInt8} {missing : List String} {m : Message}
      {consumed : Option Nat} (snapshot : t.snapshot = S)
      (read : Message.decode t bytes = .error (.missingRequired missing m consumed)) :
      Given S (.message m)
  | set {m m' : Message} {name : String} {v : Value} (whole : Given S (.message m))
      (given : Given S v) (set : m.set name v = .ok m') : Given S (.message m')
  | add {m m' : Message} {name : String} {v : Value} (whole : Given S (.message m))
      (given : Given S v) (add : m.add name v = .ok m') : Given S (.message m')
  | clear {m m' : Message} {name : String} (whole : Given S (.message m))
      (clear : m.clear name = .ok m') : Given S (.message m')
  | openMap {m m' : Message} {name : String} {map : MapValue} (whole : Given S (.message m))
      (opened : m.openMap name = .ok (map, m')) : Given S (.message m')
  | openSet {m m' m'' : Message} {name : String} {map map' : MapValue} {key v : Value}
      (whole : Given S (.message m)) (given : Given S v)
      (opened : m.openMap name = .ok (map, m')) (set : map.set key v = .ok map')
      (put : m'.update? name (fun _ => some (.map map')) = some m'') : Given S (.message m'')
  | openErase {m m' m'' : Message} {name : String} {map : MapValue} {key : Value}
      (whole : Given S (.message m)) (opened : m.openMap name = .ok (map, m'))
      (put : m'.update? name (fun _ => some (.map (map.erase key))) = some m'') :
      Given S (.message m'')
  | openClear {m m' m'' : Message} {name : String} {map : MapValue}
      (whole : Given S (.message m)) (opened : m.openMap name = .ok (map, m'))
      (put : m'.update? name (fun _ => some (.map map.clear)) = some m'') : Given S (.message m'')
  | field {m : Message} {name : String} {v : Value} (snapshot : m.type.snapshot = S)
      (whole : Given S (.message m)) (present : m.get? name = some v) : Given S v

/-- A message of the snapshot `S` that has been made without unchecked changes. -/
structure Message.Made (S : Snapshot) (m : Message) : Prop where
  snapshot : m.type.snapshot = S
  given : Value.Given S (.message m)

/-- What is known of a value before it has been checked: its messages of the snapshot are well
typed, and the maps in it are in order. -/
inductive Value.Trusted (S : Snapshot) : Value → Prop
  | atom (a : Atom) : Trusted S (.atom a)
  | list {items : List Value} (elements : ∀ v ∈ items, Trusted S v) : Trusted S (.list items)
  | map {m : MapValue} (ascending : Keyed.Ascending (fun e => e.1.keyText) m.entries)
      (keys : ∀ e ∈ m.entries, m.keyType.holds e.1) (values : ∀ e ∈ m.entries, Trusted S e.2) :
      Trusted S (.map m)
  | message {m : Message} (typed : m.type.snapshot.stamp = S.stamp → m.WellTyped S) :
      Trusted S (.message m)

/-! ### Checking values -/

section

variable {S owner : Snapshot} {t : FieldType} {v v' : Value}

theorem Value.Fills.trusted {shape : Shape} (h : v.Fills S shape t) : v.Trusted S := by
  induction h with
  | atom _ => exact .atom _
  | message node snapshot regular fields _ =>
    exact .message fun _ => .message rfl snapshot regular fields
  | list _ ih => exact .list ih
  | map ascending keys _ ih => exact .map ascending keys ih

theorem Value.holds_of_coerce {s : Scalar} {a : Atom} (h : v.coerce s = .ok a) : s.holds a := by
  cases v with
  | atom b => exact Scalar.holds_of_coerce h
  | list items => cases h
  | map m => cases h
  | message m => cases h

/-- A value that is let in is an atom, or the message that was given. -/
theorem Snapshot.fit_eq_ok (h : owner.fit t v = .ok v') :
    (∃ a, v' = .atom a ∧ t.holds a) ∨ v' = v ∧
      ∃ m, v = .message m ∧ ∃ node, t.message? = some node ∧ m.type.sameAs ⟨⟨owner, node⟩⟩ := by
  have hmessage : ∀ node, t = .message node ∨ t = .group node →
      v' = v ∧ ∃ m, v = .message m ∧ m.type.sameAs ⟨⟨owner, node⟩⟩ := by
    intro node ht
    cases v with
    | message m =>
      rcases ht with rfl | rfl
      all_goals
        simp only [Snapshot.fit] at h
        split at h
        · rename_i hsame
          cases h
          exact ⟨rfl, m, rfl, hsame⟩
        · cases h
    | _ => rcases ht with rfl | rfl <;> cases h
  cases t with
  | scalar s =>
    obtain ⟨a, ha, rfl⟩ := map_eq_ok.mp (mapError_eq_ok.mp h)
    exact .inl ⟨a, rfl, Value.holds_of_coerce ha⟩
  | enumeration e =>
    obtain ⟨id, -, rfl⟩ := map_eq_ok.mp h
    exact .inl ⟨.enumeration id, rfl, rfl⟩
  | message node =>
    obtain ⟨hv, m, hm, hsame⟩ := hmessage node (.inl rfl)
    exact .inr ⟨hv, m, hm, node, rfl, hsame⟩
  | group node =>
    obtain ⟨hv, m, hm, hsame⟩ := hmessage node (.inr rfl)
    exact .inr ⟨hv, m, hm, node, rfl, hsame⟩

/-- The same without the definitions. -/
theorem FieldType.fitDetached_eq_ok (h : t.fitDetached v = .ok v') :
    (∃ a, v' = .atom a) ∨ v' = v := by
  cases t with
  | scalar s =>
    obtain ⟨a, -, rfl⟩ := map_eq_ok.mp (mapError_eq_ok.mp h)
    exact .inl ⟨a, rfl⟩
  | enumeration e =>
    obtain ⟨id, -, rfl⟩ := map_eq_ok.mp h
    exact .inl ⟨.enumeration id, rfl⟩
  | message node | group node =>
    cases v with
    | message m =>
      simp only [fitDetached] at h
      split at h
      · cases h
        exact .inr rfl
      · cases h
    | _ => cases h

/-- A value that is let in fills its place. -/
theorem Value.Trusted.fit (hv : v.Trusted S) (h : S.fit t v = .ok v') :
    v'.Fills S .single t := by
  rcases Snapshot.fit_eq_ok h with ⟨a, rfl, ha⟩ | ⟨rfl, m, rfl, node, hnode, hsame⟩
  · exact .atom ha
  · rw [MessageType.sameAs, Bool.and_eq_true, decide_eq_true_eq, decide_eq_true_eq] at hsame
    cases hv with
    | message htyped =>
      refine Value.fills_message_iff.mpr ⟨?_, htyped hsame.1⟩
      rw [hnode, hsame.2]

/-- A value is let into a map as an atom or as it was, whatever the map knows. -/
theorem Value.Trusted.fitMap {m : MapValue} (hv : v.Trusted S) (h : MapValue.fit m v = .ok v') :
    v'.Trusted S := by
  rw [MapValue.fit] at h
  split at h
  · rcases Snapshot.fit_eq_ok h with ⟨a, rfl, -⟩ | ⟨rfl, -⟩
    · exact .atom a
    · exact hv
  · rcases FieldType.fitDetached_eq_ok h with ⟨a, rfl⟩ | rfl
    · exact .atom a
    · exact hv

end

/-! ### Lists and maps -/

section

variable {S : Snapshot} {m m' : MapValue} {key v : Value}

/-- When putting in an entry succeeds. -/
theorem MapValue.set_eq_ok_iff : m.set key v = .ok m' ↔
    ∃ k v', key.coerce m.keyType = .ok k ∧ m.fit v = .ok v' ∧ m' = m.insert k v' := by
  rw [MapValue.set]
  constructor
  · intro h
    obtain ⟨k, hk, h⟩ := bind_eq_ok.mp h
    obtain ⟨v', hv', h⟩ := bind_eq_ok.mp h
    cases h
    exact ⟨k, v', mapError_eq_ok.mp hk, mapError_eq_ok.mp hv', rfl⟩
  · rintro ⟨k, v', hk, hv', rfl⟩
    exact bind_eq_ok.mpr ⟨k, mapError_eq_ok.mpr hk,
      bind_eq_ok.mpr ⟨v', mapError_eq_ok.mpr hv', rfl⟩⟩

/-- What an accepted entry is put in as. -/
theorem MapValue.set_eq_ok (h : m.set key v = .ok m') :
    ∃ k v', m.keyType.holds k ∧ m.fit v = .ok v' ∧ m' = m.insert k v' := by
  obtain ⟨k, v', hk, hv', rfl⟩ := MapValue.set_eq_ok_iff.mp h
  exact ⟨k, v', Value.holds_of_coerce hk, hv', rfl⟩

theorem Value.Trusted.mapSet (hm : (Value.map m).Trusted S) (hv : v.Trusted S)
    (h : m.set key v = .ok m') : (Value.map m').Trusted S := by
  obtain ⟨k, v', hk, hv', rfl⟩ := MapValue.set_eq_ok h
  cases hm with
  | map ascending keys values =>
    exact .map (ascending.insert _) (Keyed.forall_mem_insert hk keys)
      (Keyed.forall_mem_insert (hv.fitMap hv') values)

theorem MapValue.mem_erase {e : Atom × Value} (he : e ∈ (m.erase key).entries) : e ∈ m.entries := by
  rw [MapValue.erase] at he
  split at he
  · exact Keyed.mem_of_mem_erase he
  · exact he

theorem MapValue.ascending_erase (h : Keyed.Ascending (fun e => e.1.keyText) m.entries) :
    Keyed.Ascending (fun e => e.1.keyText) (m.erase key).entries := by
  rw [MapValue.erase]
  split
  · exact h.erase _
  · exact h

theorem MapValue.keyType_erase : (m.erase key).keyType = m.keyType := by
  rw [MapValue.erase]
  split <;> rfl

theorem Value.Trusted.mapErase (hm : (Value.map m).Trusted S) (key : Value) :
    (Value.map (m.erase key)).Trusted S := by
  cases hm with
  | map ascending keys values =>
    refine .map (MapValue.ascending_erase ascending) (fun e he => ?_) fun e he =>
      values e (MapValue.mem_erase he)
    rw [MapValue.keyType_erase]
    exact keys e (MapValue.mem_erase he)

end

section

variable {S : Snapshot} {key : Scalar} {t : FieldType} {map map' : MapValue}

/-- An open map takes only what fits it. -/
theorem MapValue.fills_set (h : (Value.map map).Fills S (.map key) t) {k v : Value}
    (hv : v.Trusted S) (hset : map.set k v = .ok map') : (Value.map map').Fills S (.map key) t := by
  obtain ⟨k', v', hk', hv', rfl⟩ := MapValue.set_eq_ok hset
  cases h with
  | map ascending keys values =>
    exact MapValue.fills_insert (.map ascending keys values) hk' (hv.fit hv')

theorem MapValue.fills_erase (h : (Value.map map).Fills S (.map key) t) (k : Value) :
    (Value.map (map.erase k)).Fills S (.map key) t := by
  cases h with
  | @map _ _ entries ascending keys values =>
    have herase : MapValue.erase ⟨key, t, some S, entries⟩ k =
        ⟨key, t, some S, (MapValue.erase ⟨key, t, some S, entries⟩ k).entries⟩ := by
      rw [MapValue.erase]
      split <;> rfl
    rw [herase]
    exact .map (MapValue.ascending_erase ascending) (fun e he => keys e (MapValue.mem_erase he))
      fun e he => values e (MapValue.mem_erase he)

theorem MapValue.fills_clear (h : (Value.map map).Fills S (.map key) t) :
    (Value.map map.clear).Fills S (.map key) t := by
  cases h with
  | map _ _ _ => exact MapValue.fills_empty

/-- A map is put into a message entry by entry. The keys stay, the values are checked. -/
theorem MapValue.attach_eq_ok (h : map.attach S = .ok map') :
    ∃ entries, map' = ⟨map.keyType, map.valueType, some S, entries⟩ ∧
      entries.map (fun e => e.1.keyText) = map.entries.map (fun e => e.1.keyText) ∧
      ∀ e' ∈ entries, ∃ e ∈ map.entries, e'.1 = e.1 ∧ S.fit map.valueType e.2 = .ok e'.2 := by
  obtain ⟨entries, hentries, h⟩ := bind_eq_ok.mp h
  cases h
  have hentry : ∀ (e e' : Atom × Value), (do
        let v ← S.fit map.valueType e.2
        return (e.1, v)) = Except.ok e' →
      e'.1 = e.1 ∧ S.fit map.valueType e.2 = .ok e'.2 := by
    intro e e' he
    obtain ⟨v, hv, he⟩ := bind_eq_ok.mp he
    cases he
    exact ⟨rfl, hv⟩
  refine ⟨entries, rfl, ?_, fun e' he' => ?_⟩
  · exact map_eq_of_mapM (fun e e' he => congrArg Atom.keyText (hentry e e' he).1) hentries
  · obtain ⟨e, he, hfit⟩ := exists_of_mem_mapM hentries he'
    exact ⟨e, he, hentry e e' hfit⟩

/-- A map is put into a message as it was, once all of its values have been checked. -/
theorem Value.Trusted.attach (hm : (Value.map map).Trusted S) (h : map.attach S = .ok map') :
    (Value.map map').Fills S (.map map.keyType) map.valueType := by
  obtain ⟨entries, rfl, hkeys, hback⟩ := MapValue.attach_eq_ok h
  cases hm with
  | map ascending keys values =>
    refine .map ?_ (fun e' he' => ?_) fun e' he' => ?_
    · rw [Keyed.ascending_iff, hkeys, ← Keyed.ascending_iff]
      exact ascending
    · obtain ⟨e, he, hkey, -⟩ := hback e' he'
      rw [hkey]
      exact keys e he
    · obtain ⟨e, he, -, hfit⟩ := hback e' he'
      exact (values e he).fit hfit

/-- What is let into a field is of the shape of the field, and has been checked part by part. -/
theorem Snapshot.fitField_eq_ok {s : Slot} {v v' : Value} (h : S.fitField s v = .ok v') :
    (s.shape = .single ∧ S.fit s.type v = .ok v') ∨
    (∃ items items', s.shape = .list ∧ v = .list items ∧ v' = .list items' ∧
      items.mapM (S.fit s.type) = .ok items') ∨
    ∃ map map' : MapValue, s.shape = .map map.keyType ∧ s.type = map.valueType ∧ v = .map map ∧
      v' = .map map' ∧ MapValue.attach map S = .ok map' := by
  simp only [fitField] at h
  cases hshape : s.shape with
  | single =>
    simp only [hshape] at h
    exact .inl ⟨rfl, h⟩
  | list =>
    cases v with
    | list items =>
      simp only [hshape] at h
      obtain ⟨items', hfit, rfl⟩ := map_eq_ok.mp h
      exact .inr (.inl ⟨items, items', rfl, rfl, rfl, hfit⟩)
    | _ => simp [hshape] at h
  | map key =>
    cases v with
    | map map =>
      simp only [hshape] at h
      split at h
      · rename_i htypes
        obtain ⟨map', hattach, rfl⟩ := map_eq_ok.mp h
        exact .inr (.inr ⟨map, map', by rw [htypes.1], htypes.2.symm, rfl, rfl, hattach⟩)
      · cases h
    | _ => simp [hshape] at h

/-- A list or a map that is let in has been checked element by element. -/
theorem Value.Trusted.fitField {s : Slot} {v v' : Value} (hv : v.Trusted S)
    (h : S.fitField s v = .ok v') : v'.Fills S s.shape s.type := by
  rcases Snapshot.fitField_eq_ok h with ⟨hshape, hfit⟩ |
    ⟨items, items', hshape, rfl, rfl, hfit⟩ | ⟨map, map', hshape, htype, rfl, rfl, hattach⟩
  · rw [hshape]
    exact hv.fit hfit
  · rw [hshape]
    cases hv with
    | list hitems =>
      refine .list fun w hw => ?_
      obtain ⟨w', hw', hfit⟩ := exists_of_mem_mapM hfit hw
      exact (hitems w' hw').fit hfit
  · rw [hshape, htype]
    exact hv.attach hattach

end

/-! ### Messages -/

namespace Message

theorem mem_of_node {m : Message} {name : String} {f : NodeId} (h : m.node name = .ok f) :
    f ∈ m.graph.allFields m.type.node := by
  rw [node] at h
  split at h
  · rename_i f' hf
    cases h
    exact Graph.mem_of_fieldByName? hf
  · cases h

section

variable {m m' : Message} {name : String} {v : Value}

theorem set_eq_ok (h : m.set name v = .ok m') : ∃ f s v', m.node name = .ok f ∧
    m.graph.slot? f = some s ∧ m.type.snapshot.fitField s v = .ok v' ∧ m' = m.put f v' := by
  rw [Message.set] at h
  obtain ⟨f, hf, h⟩ := bind_eq_ok.mp h
  cases hs : m.graph.slot? f with
  | none =>
    rw [hs] at h
    cases h
  | some s =>
    rw [hs] at h
    obtain ⟨v', hv', h⟩ := bind_eq_ok.mp h
    cases h
    exact ⟨f, s, v', hf, hs, mapError_eq_ok.mp hv', rfl⟩

theorem add_eq_ok (h : m.add name v = .ok m') : ∃ f s v', m.node name = .ok f ∧
    m.graph.slot? f = some s ∧ s.shape = .list ∧ m.type.snapshot.fit s.type v = .ok v' ∧
    m' = m.insert f (.list (((m.value? f).bind Value.list?).getD [] ++ [v'])) := by
  rw [Message.add] at h
  obtain ⟨f, hf, h⟩ := bind_eq_ok.mp h
  cases hs : m.graph.slot? f with
  | none =>
    rw [hs] at h
    cases h
  | some s =>
    rw [hs] at h
    simp only at h
    split at h
    · rename_i hshape
      obtain ⟨v', hv', h⟩ := bind_eq_ok.mp h
      cases h
      exact ⟨f, s, v', hf, hs, hshape, mapError_eq_ok.mp hv', rfl⟩
    · cases h

theorem clear_eq_ok (h : m.clear name = .ok m') : ∃ f, m' = m.erase f := by
  rw [Message.clear] at h
  obtain ⟨f, -, h⟩ := bind_eq_ok.mp h
  cases h
  exact ⟨f, rfl⟩

theorem openMap_eq_ok {map : MapValue} (h : m.openMap name = .ok (map, m')) :
    ∃ f s key, m.node name = .ok f ∧ m.graph.slot? f = some s ∧ s.shape = .map key ∧
      (m.value? f = none ∧ map = m.emptyMap s key ∧ m' = m.insert f (.map map) ∨
        m.value? f = some (.map map) ∧ m' = m) := by
  rw [openMap] at h
  obtain ⟨f, hf, h⟩ := bind_eq_ok.mp h
  cases hs : m.graph.slot? f with
  | none =>
    rw [hs] at h
    cases h
  | some s =>
    rw [hs] at h
    cases hshape : s.shape with
    | single => simp [hshape] at h
    | list => simp [hshape] at h
    | map key =>
      refine ⟨f, s, key, hf, hs, hshape, ?_⟩
      simp only [hshape] at h
      split at h
      · rename_i hv
        cases h
        exact .inl ⟨hv, rfl, rfl⟩
      · rename_i hv
        cases h
        exact .inr ⟨hv, rfl⟩
      · cases h

theorem update?_eq_some {change : Value → Option Value} (h : m.update? name change = some m') :
    ∃ f v', m.node name = .ok f ∧ (m.value? f).bind change = some v' ∧ m' = m.insert f v' := by
  rw [update?] at h
  obtain ⟨f, hf, h⟩ := Option.bind_eq_some_iff.mp h
  obtain ⟨v, hv, h⟩ := Option.bind_eq_some_iff.mp h
  obtain ⟨v', hv', h⟩ := Option.bind_eq_some_iff.mp h
  cases h
  refine ⟨f, v', ?_, Option.bind_eq_some_iff.mpr ⟨v, hv, hv'⟩, rfl⟩
  rw [node, hf]

end

namespace WellTyped

variable {S : Snapshot} {m m' m'' : Message} {name : String} {v : Value}

theorem set (hg : S.graph.Linked) (hm : m.WellTyped S) (hv : v.Trusted S)
    (h : m.set name v = .ok m') : m'.WellTyped S := by
  obtain ⟨f, s, v', hf, hs, hfit, rfl⟩ := set_eq_ok h
  rw [hm.graph] at hs
  rw [hm.snapshot] at hfit
  exact hm.put hg.toSound (hm.graph ▸ mem_of_node hf) hs (hv.fitField hfit)

theorem add (hg : S.graph.Linked) (hm : m.WellTyped S) (hv : v.Trusted S)
    (h : m.add name v = .ok m') : m'.WellTyped S := by
  obtain ⟨f, s, v', hf, hs, hshape, hfit, rfl⟩ := add_eq_ok h
  rw [hm.graph] at hs
  rw [hm.snapshot] at hfit
  refine hm.insert_collection hg (hm.graph ▸ mem_of_node hf) hs (by simp [hshape]) ?_
  rw [hshape]
  refine .list fun w hw => ?_
  rcases List.mem_append.mp hw with hw | hw
  · exact hm.items hs hshape w hw
  · rw [List.mem_singleton.mp hw]
    exact hv.fit hfit

/-- A map is opened in a field that has one, or is put in there empty. -/
theorem openMap (hg : S.graph.Linked) (hm : m.WellTyped S) {map : MapValue}
    (h : m.openMap name = .ok (map, m')) :
    m'.WellTyped S ∧ m'.type = m.type ∧ ∃ f s key, m.node name = .ok f ∧
      S.graph.slot? f = some s ∧ s.shape = .map key ∧
      (Value.map map).Fills S (.map key) s.type := by
  obtain ⟨f, s, key, hf, hs, hshape, hcases⟩ := openMap_eq_ok h
  rw [hm.graph] at hs
  rcases hcases with ⟨-, rfl, rfl⟩ | ⟨hv, rfl⟩
  · have hfills : (Value.map (m.emptyMap s key)).Fills S (.map key) s.type := by
      rw [emptyMap, hm.snapshot]
      exact MapValue.fills_empty
    refine ⟨?_, rfl, f, s, key, hf, hs, hshape, hfills⟩
    exact hm.insert_collection hg (hm.graph ▸ mem_of_node hf) hs (by simp [hshape])
      (hshape ▸ hfills)
  · exact ⟨hm, rfl, f, s, key, hf, hs, hshape, hshape ▸ hm.fills hv hs⟩

/-- An open map may be exchanged for another one that fits as well. -/
theorem changeMap (hg : S.graph.Linked) (hm : m.WellTyped S) {map map' : MapValue}
    (h : m.openMap name = .ok (map, m'))
    (hmap : ∀ key t, (Value.map map).Fills S (.map key) t → (Value.map map').Fills S (.map key) t)
    (hput : m'.update? name (fun _ => some (.map map')) = some m'') : m''.WellTyped S := by
  obtain ⟨hm', htype, f, s, key, hf, hs, hshape, hfills⟩ := hm.openMap hg h
  obtain ⟨f', v', hf', hv', rfl⟩ := update?_eq_some hput
  obtain ⟨v, -, hv'⟩ := Option.bind_eq_some_iff.mp hv'
  cases hv'
  rw [node, htype, ← node, hf] at hf'
  cases hf'
  refine hm'.insert_collection hg ?_ hs (by simp [hshape]) (hshape ▸ hmap key s.type hfills)
  rw [htype, ← hm.graph]
  exact mem_of_node hf

end WellTyped

end Message

/-! ### Values that have been made -/

section

variable {S : Snapshot} {m m' m'' : Message}

theorem Value.Trusted.typed (h : (Value.message m).Trusted S)
    (hm : m.type.snapshot.stamp = S.stamp) : m.WellTyped S := by
  cases h with
  | message htyped => exact htyped hm

/-- A change leaves the type of a message alone, so it was one of the snapshot before. -/
theorem Value.Trusted.change (h : (Value.message m).Trusted S) (htype : m'.type = m.type)
    (hchange : m.WellTyped S → m'.WellTyped S) : (Value.message m').Trusted S :=
  .message fun hstamp => hchange (h.typed (htype ▸ hstamp))

theorem Message.type_openMap {name : String} {map : MapValue}
    (h : m.openMap name = .ok (map, m')) : m'.type = m.type := by
  obtain ⟨f, s, key, -, -, -, ⟨-, -, rfl⟩ | ⟨-, rfl⟩⟩ := openMap_eq_ok h
  · rfl
  · rfl

theorem Value.Trusted.changeMap (hg : S.graph.Linked) (hm : (Value.message m).Trusted S)
    {name : String} {map map' : MapValue} (h : m.openMap name = .ok (map, m'))
    (hmap : ∀ key t, (Value.map map).Fills S (.map key) t → (Value.map map').Fills S (.map key) t)
    (hput : m'.update? name (fun _ => some (.map map')) = some m'') :
    (Value.message m'').Trusted S := by
  refine hm.change ?_ fun htyped => htyped.changeMap hg h hmap hput
  obtain ⟨f, v', -, -, rfl⟩ := Message.update?_eq_some hput
  show m'.type = m.type
  exact Message.type_openMap h

/-- What a program comes by without unchecked changes can be trusted as far as this. -/
theorem Value.Given.trusted (hg : S.graph.Linked) {v : Value} (h : v.Given S) : v.Trusted S := by
  induction h with
  | atom a => exact .atom a
  | list _ ih => exact .list ih
  | element _ hmem ih =>
    cases ih with
    | list hitems => exact hitems _ hmem
  | emptyMap key type owner =>
    exact .map Keyed.ascending_nil (by simp [MapValue.empty]) (by simp [MapValue.empty])
  | mapSet _ _ hset ihm ihv => exact ihm.mapSet ihv hset
  | mapErase _ key ih => exact ih.mapErase key
  | mapClear _ _ =>
    exact .map Keyed.ascending_nil (by simp [MapValue.clear]) (by simp [MapValue.clear])
  | mapEntry _ hmem ih =>
    cases ih with
    | map _ _ hvalues => exact hvalues _ hmem
  | foreign hstamp => exact .message fun h => absurd h hstamp
  | new ht => exact .message fun _ => .new hg ht
  | decoded ht hread => exact .message fun _ => (Message.wellTyped_of_decode hg ht hread).2.1
  | decodedPart ht hread =>
    exact .message fun _ => (Message.wellTyped_of_decode_error hg ht hread).2
  | set _ _ hset ihm ihv =>
    refine ihm.change ?_ fun hm => hm.set hg ihv hset
    obtain ⟨f, s, v', -, -, -, rfl⟩ := Message.set_eq_ok hset
    exact Decoding.type_put _ f v'
  | add _ _ hadd ihm ihv =>
    refine ihm.change ?_ fun hm => hm.add hg ihv hadd
    obtain ⟨f, s, v', -, -, -, -, rfl⟩ := Message.add_eq_ok hadd
    rfl
  | clear _ hclear ihm =>
    obtain ⟨f, rfl⟩ := Message.clear_eq_ok hclear
    exact ihm.change rfl fun hm => hm.erase f
  | openMap _ hopen ihm =>
    exact ihm.change (Message.type_openMap hopen) fun hm => (hm.openMap hg hopen).1
  | openSet _ _ hopen hset hput ihm ihv =>
    exact ihm.changeMap hg hopen (fun _ _ h => MapValue.fills_set h ihv hset) hput
  | openErase _ hopen hput ihm =>
    exact ihm.changeMap hg hopen (fun _ _ h => MapValue.fills_erase h _) hput
  | openClear _ hopen hput ihm =>
    exact ihm.changeMap hg hopen (fun _ _ h => MapValue.fills_clear h) hput
  | field hsnapshot _ hget ihm =>
    obtain ⟨f, -, hv⟩ := Option.bind_eq_some_iff.mp hget
    have hm := ihm.typed (by rw [hsnapshot])
    obtain ⟨-, s, hs⟩ := hm.regular.known f _ hv
    rw [hm.graph] at hs
    exact (hm.fills hv hs).trusted

end

namespace Message.Made

variable {S : Snapshot} {m : Message}

/-- Messages that have been made without unchecked changes are well typed. -/
theorem wellTyped (hg : S.graph.Linked) (hm : m.Made S) : m.WellTyped S :=
  (hm.given.trusted hg).typed (by rw [hm.snapshot])

/-- Messages that are made from fields are made field by field. -/
theorem ofFields {t : MessageType} (ht : t.snapshot = S) {fields : List (String × Value)}
    (hfields : ∀ e ∈ fields, e.2.Given S) (h : Message.ofFields t fields = .ok m) :
    m.Made S := by
  have hrun : ∀ (fields : List (String × Value)) (m₀ : Message), m₀.type = t →
      (Value.message m₀).Given S → (∀ e ∈ fields, e.2.Given S) →
      fields.foldlM (fun m e => Message.set m e.1 e.2) m₀ = .ok m →
      m.type = t ∧ (Value.message m).Given S := by
    intro fields
    induction fields with
    | nil =>
      intro m₀ hm₀ hgiven _ hrun
      cases hrun
      exact ⟨hm₀, hgiven⟩
    | cons e more ih =>
      intro m₀ hm₀ hgiven hfields hrun
      rw [List.foldlM_cons] at hrun
      obtain ⟨m₁, hset, hrun⟩ := bind_eq_ok.mp hrun
      refine ih m₁ ?_ (.set hgiven (hfields e List.mem_cons_self) hset)
        (fun e' he' => hfields e' (List.mem_cons_of_mem _ he')) hrun
      obtain ⟨f, s, v', -, -, -, rfl⟩ := Message.set_eq_ok hset
      exact (Decoding.type_put m₀ f v').trans hm₀
  obtain ⟨htype, hgiven⟩ := hrun fields (Message.new t) (WellTyped.type_populate _) (.new ht)
    hfields h
  exact ⟨htype ▸ ht, hgiven⟩

end Message.Made

end Protobuf

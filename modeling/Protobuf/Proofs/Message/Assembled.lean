import Protobuf.Proofs.Message.Made
import Protobuf.Proofs.Message.Reencoded
import Protobuf.Proofs.Message.Replay

/-!
# Messages put together by setters

A program may put a message together from new messages by setters alone: it sets fields, adds
elements to lists and puts entries into maps, and the values that it uses have been put together in
the same way. It never clears a field and reads nothing from bytes. What it leaves out is left to
the defaults: a new message has them, and no setter takes one away, because the fields of a oneof,
which clear each other, have none. So no message in what has been put together lacks a default.

## Main definitions

* `Value.Assembled` — a value that has been put together by setters.
* `Value.Tended` — no message in the value lacks a default.

## Main results

* `Value.Assembled.tended` — what has been put together by setters is tended
* `Message.Assembled.made` — putting together is one of the ways of making a message
-/

namespace Protobuf

/-- A program that deals with messages of the snapshot `S` has put the value together from atoms and
new messages by setters. It may have used messages of other snapshots as well; these have other
stamps. -/
inductive Value.Assembled (S : Snapshot) : Value → Prop
  | atom (a : Atom) : Assembled S (.atom a)
  | list {items : List Value} (parts : ∀ v ∈ items, Assembled S v) : Assembled S (.list items)
  | element {items : List Value} {v : Value} (whole : Assembled S (.list items))
      (mem : v ∈ items) : Assembled S v
  | emptyMap (key : Scalar) (type : FieldType) (owner : Option Snapshot) :
      Assembled S (.map (MapValue.empty key type owner))
  | mapSet {m m' : MapValue} {key v : Value} (whole : Assembled S (.map m)) (part : Assembled S v)
      (set : m.set key v = .ok m') : Assembled S (.map m')
  | mapEntry {m : MapValue} {e : Atom × Value} (whole : Assembled S (.map m))
      (mem : e ∈ m.entries) : Assembled S e.2
  | new {t : MessageType} (loaded : t.snapshot.Loaded)
      (snapshot : t.snapshot = S ∨ t.snapshot.stamp ≠ S.stamp) :
      Assembled S (.message (Message.new t))
  | set {m m' : Message} {name : String} {v : Value} (whole : Assembled S (.message m))
      (part : Assembled S v) (set : m.set name v = .ok m') : Assembled S (.message m')
  | add {m m' : Message} {name : String} {v : Value} (whole : Assembled S (.message m))
      (part : Assembled S v) (add : m.add name v = .ok m') : Assembled S (.message m')
  | openMap {m m' : Message} {name : String} {map : MapValue} (whole : Assembled S (.message m))
      (opened : m.openMap name = .ok (map, m')) : Assembled S (.message m')
  | openSet {m m' m'' : Message} {name : String} {map map' : MapValue} {key v : Value}
      (whole : Assembled S (.message m)) (part : Assembled S v)
      (opened : m.openMap name = .ok (map, m')) (set : map.set key v = .ok map')
      (put : m'.update? name (fun _ => some (.map map')) = some m'') : Assembled S (.message m'')
  | field {m : Message} {name : String} {v : Value} (snapshot : m.type.snapshot = S)
      (whole : Assembled S (.message m)) (present : m.get? name = some v) : Assembled S v

/-- A message of the snapshot `S` that has been put together by setters. -/
structure Message.Assembled (S : Snapshot) (m : Message) : Prop where
  snapshot : m.type.snapshot = S
  assembled : Value.Assembled S (.message m)

/-- No message in the value lacks a default, and the definitions of each have been linked. -/
def Value.Tended (v : Value) : Prop :=
  ∀ k ∈ v.messages, k.graph.Linked ∧ k.Populated

/-! ### Ways of making -/

/-- Putting together is one of the ways of making values without unchecked changes. -/
theorem Value.Assembled.given {S : Snapshot} {v : Value} (h : v.Assembled S) : v.Given S := by
  induction h with
  | atom a => exact .atom a
  | list _ ih => exact .list ih
  | element _ hmem ih => exact .element ih hmem
  | emptyMap key type owner => exact .emptyMap key type owner
  | mapSet _ _ hset ihm ihv => exact .mapSet ihm ihv hset
  | mapEntry _ hmem ih => exact .mapEntry ih hmem
  | @new t _ hsnapshot =>
    rcases hsnapshot with hsame | hstamp
    · exact .new hsame
    · have htype : (Message.new t).type = t := Message.WellTyped.type_populate _
      exact .foreign (htype.symm ▸ hstamp)
  | set _ _ hset ihm ihv => exact .set ihm ihv hset
  | add _ _ hadd ihm ihv => exact .add ihm ihv hadd
  | openMap _ hopen ih => exact .openMap ih hopen
  | openSet _ _ hopen hset hput ihm ihv => exact .openSet ihm ihv hopen hset hput
  | field hsnapshot _ hget ih => exact .field hsnapshot ih hget

theorem Message.Assembled.made {S : Snapshot} {m : Message} (h : m.Assembled S) : m.Made S :=
  ⟨h.snapshot, h.assembled.given⟩

namespace Value

variable {S : Snapshot} {t : FieldType} {v v' : Value}

/-! ### Parts -/

theorem tended_atom (a : Atom) : (Value.atom a).Tended := by
  simp [Tended, messages]

theorem tended_list {items : List Value} : (Value.list items).Tended ↔ ∀ v ∈ items, v.Tended := by
  simp only [Tended, messages, messagesOfItems_eq, List.mem_flatMap]
  constructor
  · exact fun h v hv k hk => h k ⟨v, hv, hk⟩
  · rintro h k ⟨v, hv, hk⟩
    exact h v hv k hk

theorem tended_map {m : MapValue} : (Value.map m).Tended ↔ ∀ e ∈ m.entries, e.2.Tended := by
  obtain ⟨key, type, owner, entries⟩ := m
  simp only [Tended, messages, messagesOfEntries_eq, List.mem_flatMap]
  constructor
  · exact fun h e he k hk => h k ⟨e, he, hk⟩
  · rintro h k ⟨e, he, hk⟩
    exact h e he k hk

theorem tended_message {m : Message} :
    (Value.message m).Tended ↔
      (m.graph.Linked ∧ m.Populated) ∧ ∀ e ∈ m.entries, e.2.Tended := by
  simp only [Tended, Message.messages_message, Message.messages, messagesOfFields_eq,
    List.forall_mem_cons, List.mem_flatMap]
  refine and_congr_right' ⟨fun h e he k hk => h k ⟨e, he, hk⟩, ?_⟩
  rintro h k ⟨e, he, hk⟩
  exact h e he k hk

/-- A message in a value that is let in was in the value before. -/
theorem Tended.fit {owner : Snapshot} (hv : v.Tended) (h : owner.fit t v = .ok v') :
    v'.Tended := by
  rcases Snapshot.fit_eq_ok h with ⟨a, rfl, -⟩ | ⟨rfl, -⟩
  · exact tended_atom a
  · exact hv

theorem Tended.fitMap {m : MapValue} (hv : v.Tended) (h : MapValue.fit m v = .ok v') :
    v'.Tended := by
  rw [MapValue.fit] at h
  split at h
  · exact hv.fit h
  · rcases FieldType.fitDetached_eq_ok h with ⟨a, rfl⟩ | rfl
    · exact tended_atom a
    · exact hv

theorem Tended.fitField {owner : Snapshot} {s : Slot} (hv : v.Tended)
    (h : owner.fitField s v = .ok v') : v'.Tended := by
  rcases Snapshot.fitField_eq_ok h with ⟨-, hfit⟩ | ⟨items, items', -, rfl, rfl, hfit⟩ |
    ⟨map, map', -, -, rfl, rfl, hattach⟩
  · exact hv.fit hfit
  · refine tended_list.mpr fun w' hw' => ?_
    obtain ⟨w, hw, hfit⟩ := exists_of_mem_mapM hfit hw'
    exact (tended_list.mp hv w hw).fit hfit
  · obtain ⟨entries, rfl, -, hback⟩ := MapValue.attach_eq_ok hattach
    refine tended_map.mpr fun e' he' => ?_
    obtain ⟨e, he, -, hfit⟩ := hback e' he'
    exact (tended_map.mp hv e he).fit hfit

theorem Tended.mapSet {m m' : MapValue} {key : Value} (hm : (Value.map m).Tended)
    (hv : v.Tended) (h : m.set key v = .ok m') : (Value.map m').Tended := by
  obtain ⟨k, v', -, hfit, rfl⟩ := MapValue.set_eq_ok h
  exact tended_map.mpr (Keyed.forall_mem_insert (hv.fitMap hfit) (tended_map.mp hm))

/-! ### Setters -/

section

variable {m m' m'' : Message} {name : String} {n : NodeId}

theorem Tended.value? (hm : (Value.message m).Tended) (hv : m.value? n = some v) : v.Tended :=
  (tended_message.mp hm).2 _ (Message.mem_of_value? hv)

theorem Tended.insert (hm : (Value.message m).Tended) (hv : v.Tended) :
    (Value.message (m.insert n v)).Tended := by
  obtain ⟨⟨hg, hpopulated⟩, hentries⟩ := tended_message.mp hm
  exact tended_message.mpr ⟨⟨hg, hpopulated.insert n v⟩, Keyed.forall_mem_insert hv hentries⟩

theorem Tended.put (hm : (Value.message m).Tended) (hv : v.Tended) :
    (Value.message (m.put n v)).Tended := by
  obtain ⟨⟨hg, hpopulated⟩, hentries⟩ := tended_message.mp hm
  have herased : ∀ e ∈ ((m.rivals n).foldl Message.erase m).entries, e ∈ m.entries :=
    List.foldlRecOn (motive := fun m' : Message => ∀ e ∈ m'.entries, e ∈ m.entries) _ _
      (fun _ he => he) fun m' hm' n' _ e he => hm' e (Keyed.mem_of_mem_erase he)
  have hgraph : (m.put n v).graph = m.graph := by rw [Message.graph, Decoding.type_put]; rfl
  refine tended_message.mpr ⟨⟨hgraph ▸ hg, hpopulated.put hg n v⟩, fun e he => ?_⟩
  rcases Keyed.mem_insert he with rfl | he
  · exact hv
  · exact hentries e (herased e he)

/-- A map that is opened is part of the message or empty. -/
theorem Tended.openMap {map : MapValue} (hm : (Value.message m).Tended)
    (h : m.openMap name = .ok (map, m')) :
    (Value.message m').Tended ∧ (Value.map map).Tended := by
  obtain ⟨n, s, key, -, -, -, ⟨-, rfl, rfl⟩ | ⟨hv, rfl⟩⟩ := Message.openMap_eq_ok h
  · have hempty : (Value.map (m.emptyMap s key)).Tended :=
      tended_map.mpr (by simp [Message.emptyMap, MapValue.empty])
    exact ⟨hm.insert hempty, hempty⟩
  · exact ⟨hm, hm.value? hv⟩

/-- No message in what has been put together by setters lacks a default. -/
theorem Assembled.tended (h : v.Assembled S) : v.Tended := by
  induction h with
  | atom a => exact tended_atom a
  | list _ ih => exact tended_list.mpr ih
  | element _ hmem ih => exact tended_list.mp ih _ hmem
  | emptyMap => exact tended_map.mpr (by simp [MapValue.empty])
  | mapSet _ _ hset ihm ihv => exact ihm.mapSet ihv hset
  | mapEntry _ hmem ih => exact tended_map.mp ih _ hmem
  | @new t loaded _ =>
    intro k hk
    rw [Message.messages_message] at hk
    have htype : (Message.new t).type = t := Message.WellTyped.type_populate _
    rw [Message.eq_new_of_mem_messages loaded.linked rfl hk]
    refine ⟨?_, Message.WellTyped.populated_populate _⟩
    rw [Message.graph, htype]
    exact loaded.linked
  | set _ _ hset ihm ihv =>
    obtain ⟨n, s, v', -, -, hfit, rfl⟩ := Message.set_eq_ok hset
    exact ihm.put (ihv.fitField hfit)
  | @add m _ _ _ _ _ hadd ihm ihv =>
    obtain ⟨n, s, v', -, -, -, hfit, rfl⟩ := Message.add_eq_ok hadd
    refine ihm.insert (tended_list.mpr fun w hw => ?_)
    -- an element was in the list already, if there was one, or is the one that is added
    rcases List.mem_append.mp hw with hw | hw
    · cases hvalue : m.value? n with
      | none => simp [hvalue] at hw
      | some w' =>
        cases w' with
        | list items =>
          rw [hvalue] at hw
          exact tended_list.mp (ihm.value? hvalue) w hw
        | _ => simp [hvalue, Value.list?] at hw
    · rw [List.mem_singleton.mp hw]
      exact ihv.fit hfit
  | openMap _ hopen ih => exact (ih.openMap hopen).1
  | openSet _ _ hopen hset hput ihm ihv =>
    obtain ⟨n, v', -, hv', rfl⟩ := Message.update?_eq_some hput
    obtain ⟨w, -, hw⟩ := Option.bind_eq_some_iff.mp hv'
    cases hw
    exact (ihm.openMap hopen).1.insert ((ihm.openMap hopen).2.mapSet ihv hset)
  | field _ _ hget ih =>
    obtain ⟨n, -, hv⟩ := Option.bind_eq_some_iff.mp hget
    exact ih.value? hv

end

end Value

end Protobuf

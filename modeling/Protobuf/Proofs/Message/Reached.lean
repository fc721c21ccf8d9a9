import Protobuf.Proofs.Message.Sorted
import Protobuf.Message.Place

/-!
# Values that a program may come by

A program may change a value deep inside of a message without any check, so little can be said of
what the values of a message are. What it cannot do away with is order: the fields of a message and
the entries of a map stay in their places, the keys of a map stay keys of its type, and of the
fields of a oneof at most one is present.

## Main definitions

* `Value.Reached` — a program may have come by the value in any way.
* `Value.Orderly` — messages and maps are in order, and fields of a oneof do not compete.

## Main results

* `Value.Reached.orderly` — whatever is reached is orderly
* `Value.Given.reached`, `Message.Made.sorted` — what is made without unchecked changes is reached,
  so it is in order
-/

namespace Protobuf

/-- A program may have come by the value in any way, unchecked changes included. What is in messages
of snapshots that are not `known` is not looked into. -/
inductive Value.Reached (known : Snapshot → Prop) : Value → Prop
  | atom (a : Atom) : Reached known (.atom a)
  | list {items : List Value} (reached : ∀ v ∈ items, Reached known v) :
      Reached known (.list items)
  | element {items : List Value} {v : Value} (whole : Reached known (.list items))
      (mem : v ∈ items) : Reached known v
  | emptyMap (key : Scalar) (type : FieldType) (owner : Option Snapshot) :
      Reached known (.map (MapValue.empty key type owner))
  | mapSet {m m' : MapValue} {key v : Value} (whole : Reached known (.map m))
      (part : Reached known v) (set : m.set key v = .ok m') : Reached known (.map m')
  | mapErase {m : MapValue} (whole : Reached known (.map m)) (key : Value) :
      Reached known (.map (m.erase key))
  | mapClear {m : MapValue} (whole : Reached known (.map m)) : Reached known (.map m.clear)
  | mapReplaced {m m' : MapValue} {key v : Value} (whole : Reached known (.map m))
      (part : Reached known v) (replaced : m.update? key (fun _ => some v) = some m') :
      Reached known (.map m')
  | mapEntry {m : MapValue} {e : Atom × Value} (whole : Reached known (.map m))
      (mem : e ∈ m.entries) : Reached known e.2
  | foreign {m : Message} (unknown : ¬known m.type.snapshot) : Reached known (.message m)
  | new {t : MessageType} (built : t.snapshot.Built) : Reached known (.message (Message.new t))
  | read {t : MessageType} {bytes : List UInt8} {m : Message} (built : t.snapshot.Built)
      (read : m.IsReadFrom t bytes) : Reached known (.message m)
  | set {m m' : Message} {name : String} {v : Value} (whole : Reached known (.message m))
      (part : Reached known v) (set : m.set name v = .ok m') : Reached known (.message m')
  | add {m m' : Message} {name : String} {v : Value} (whole : Reached known (.message m))
      (part : Reached known v) (add : m.add name v = .ok m') : Reached known (.message m')
  | clear {m m' : Message} {name : String} (whole : Reached known (.message m))
      (clear : m.clear name = .ok m') : Reached known (.message m')
  | openMap {m m' : Message} {name : String} {map : MapValue} (whole : Reached known (.message m))
      (opened : m.openMap name = .ok (map, m')) : Reached known (.message m')
  | replaced {m m' : Message} {name : String} {v : Value} (whole : Reached known (.message m))
      (part : Reached known v) (replaced : m.update? name (fun _ => some v) = some m') :
      Reached known (.message m')
  | field {m : Message} {name : String} {v : Value} (inside : known m.type.snapshot)
      (whole : Reached known (.message m)) (present : m.get? name = some v) : Reached known v

/-- Messages and maps are in order, keys are of the types that maps say, and where the definitions
are linked at most one field of a oneof is present. -/
inductive Value.Orderly (known : Snapshot → Prop) : Value → Prop
  | atom (a : Atom) : Orderly known (.atom a)
  | list {items : List Value} (elements : ∀ v ∈ items, Orderly known v) :
      Orderly known (.list items)
  | map {m : MapValue} (ascending : Keyed.Ascending (fun e => e.1.keyText) m.entries)
      (keys : ∀ e ∈ m.entries, m.keyType.holds e.1)
      (values : ∀ e ∈ m.entries, Orderly known e.2) : Orderly known (.map m)
  | message {m : Message}
      (ascending : known m.type.snapshot → Keyed.Ascending Prod.fst m.entries)
      (apart : known m.type.snapshot → m.graph.Linked → m.Apart)
      (values : known m.type.snapshot → ∀ e ∈ m.entries, Orderly known e.2) :
      Orderly known (.message m)

namespace Value

variable {known : Snapshot → Prop} {S : Snapshot} {shape : Shape} {t : FieldType} {v v' : Value}

/-! ### Checked values -/

theorem Fills.orderly (h : v.Fills S shape t) : v.Orderly known := by
  induction h with
  | atom _ => exact .atom _
  | @message t m node snapshot regular fields ih =>
    refine .message (fun _ => regular.ascending) (fun _ _ => regular.apart) fun _ e he => ?_
    have hv := Message.value?_of_mem regular.ascending he
    obtain ⟨-, s, hs⟩ := regular.known e.1 e.2 hv
    rw [Message.graph_of_snapshot snapshot] at hs
    exact ih e.1 e.2 s hv hs
  | list _ ih => exact .list ih
  | map ascending keys _ ih => exact .map ascending keys ih

/-- Where definitions are not linked, nothing is said of the fields of oneofs. -/
theorem Typed.orderly (hS : ¬S.graph.Linked) (h : v.Typed S shape t) (hv : v.Sorted) :
    v.Orderly known := by
  induction h with
  | atom _ => exact .atom _
  | @message t m node snapshot present fields ih =>
    cases hv with
    | message ascending values =>
      refine .message (fun _ => ascending) (fun _ hlinked => ?_) fun _ e he => ?_
      · rw [Message.graph_of_snapshot snapshot] at hlinked
        exact absurd hlinked hS
      · obtain ⟨-, s, hs⟩ := present e he
        exact ih e he s hs (values e he)
  | list _ ih =>
    cases hv with
    | list elements => exact .list fun v hv => ih v hv (elements v hv)
  | map keys _ ih =>
    cases hv with
    | map ascending values => exact .map ascending keys fun e he => ih e he (values e he)

theorem Orderly.fit {owner : Snapshot} (hv : v.Orderly known) (h : owner.fit t v = .ok v') :
    v'.Orderly known := by
  rcases Snapshot.fit_eq_ok h with ⟨a, rfl, -⟩ | ⟨rfl, -⟩
  · exact .atom a
  · exact hv

theorem Orderly.fitMap {m : MapValue} (hv : v.Orderly known) (h : MapValue.fit m v = .ok v') :
    v'.Orderly known := by
  rw [MapValue.fit] at h
  split at h
  · exact hv.fit h
  · rcases FieldType.fitDetached_eq_ok h with ⟨a, rfl⟩ | rfl
    · exact .atom a
    · exact hv

end Value

/-! ### Maps -/

namespace MapValue

variable {known : Snapshot → Prop} {m m' : MapValue} {v : Value}

theorem orderly_empty (key : Scalar) (t : FieldType) (owner : Option Snapshot) :
    (Value.map (empty key t owner)).Orderly known :=
  .map Keyed.ascending_nil (by simp [empty]) (by simp [empty])

theorem orderly_clear : (Value.map m.clear).Orderly known :=
  .map Keyed.ascending_nil (by simp [clear]) (by simp [clear])

theorem orderly_insert (hm : (Value.map m).Orderly known) {k : Atom} (hk : m.keyType.holds k)
    (hv : v.Orderly known) : (Value.map (m.insert k v)).Orderly known := by
  cases hm with
  | map ascending keys values =>
    exact .map (ascending.insert _) (Keyed.forall_mem_insert hk keys)
      (Keyed.forall_mem_insert hv values)

theorem orderly_erase (hm : (Value.map m).Orderly known) (key : Value) :
    (Value.map (m.erase key)).Orderly known := by
  cases hm with
  | map ascending keys values =>
    refine .map (ascending_erase ascending) (fun e he => ?_) fun e he => values e (mem_erase he)
    rw [keyType_erase]
    exact keys e (mem_erase he)

/-- The key of a value that is replaced stays. -/
theorem update?_eq_some {key : Value} {change : Value → Option Value}
    (h : m.update? key change = some m') :
    ∃ e ∈ m.entries, ∃ v, change e.2 = some v ∧ m' = m.insert e.1 v := by
  rw [update?] at h
  obtain ⟨text, -, h⟩ := Option.bind_eq_some_iff.mp h
  obtain ⟨e, he, h⟩ := Option.bind_eq_some_iff.mp h
  obtain ⟨v, hv, h⟩ := Option.bind_eq_some_iff.mp h
  cases h
  exact ⟨e, Keyed.mem_of_find? he, v, hv, rfl⟩

theorem orderly_replaced (hm : (Value.map m).Orderly known) (hv : v.Orderly known) {key : Value}
    (h : m.update? key (fun _ => some v) = some m') : (Value.map m').Orderly known := by
  obtain ⟨e, he, v', hv', rfl⟩ := update?_eq_some h
  cases hv'
  refine orderly_insert hm ?_ hv
  cases hm with
  | map _ keys _ => exact keys e he

/-- A map that is put into a message keeps its keys. -/
theorem orderly_attach {owner : Snapshot} (hm : (Value.map m).Orderly known)
    (h : m.attach owner = .ok m') : (Value.map m').Orderly known := by
  obtain ⟨entries, rfl, hkeys, hback⟩ := attach_eq_ok h
  cases hm with
  | map ascending keys values =>
    refine .map ?_ (fun e' he' => ?_) fun e' he' => ?_
    · rw [Keyed.ascending_iff, hkeys, ← Keyed.ascending_iff]
      exact ascending
    · obtain ⟨e, he, hkey, -⟩ := hback e' he'
      rw [hkey]
      exact keys e he
    · obtain ⟨e, he, -, hfit⟩ := hback e' he'
      exact (values e he).fit hfit

end MapValue

theorem Value.Orderly.fitField {known : Snapshot → Prop} {owner : Snapshot} {s : Slot}
    {v v' : Value} (hv : v.Orderly known) (h : owner.fitField s v = .ok v') :
    v'.Orderly known := by
  rcases Snapshot.fitField_eq_ok h with ⟨-, hfit⟩ |
    ⟨items, items', -, rfl, rfl, hfit⟩ | ⟨map, map', -, -, rfl, rfl, hattach⟩
  · exact hv.fit hfit
  · cases hv with
    | list elements =>
      refine .list fun w hw => ?_
      obtain ⟨w', hw', hfit⟩ := exists_of_mem_mapM hfit hw
      exact (elements w' hw').fit hfit
  · exact MapValue.orderly_attach hv hattach

/-! ### Messages -/

namespace Message

/-- Setting a field leaves at most one field of each oneof, whatever is set. -/
theorem Apart.put {m : Message} (hg : m.graph.Sound) (hm : m.Apart) (f : NodeId) (v : Value) :
    (m.put f v).Apart := by
  have herase : ((m.rivals f).foldl Message.erase m).Apart :=
    List.foldlRecOn _ _ hm fun _ hm f _ => hm.erase f
  refine herase.insert v fun f' v' hv' hcompete => ?_
  rw [Message.graph, WellTyped.type_foldl_erase] at hcompete
  exact WellTyped.eq_of_compete (S := m.type.snapshot) hg rfl hv' hcompete

/-- A value that is present may be replaced freely. -/
theorem Apart.replace {m : Message} (hm : m.Apart) {f : NodeId} {w : Value}
    (hw : m.value? f = some w) (v : Value) : (m.insert f v).Apart :=
  hm.insert v fun f' v' hv' hcompete => hm f f' w v' hw hv' hcompete

/-- So may that of a field of lists or maps. -/
theorem Apart.insert_collection {m : Message} (hg : m.graph.Linked) (hm : m.Apart) {f : NodeId}
    {s : Slot} (hs : m.graph.slot? f = some s) (hshape : s.shape ≠ .single) (v : Value) :
    (m.insert f v).Apart :=
  hm.insert v fun _ _ _ hcompete => absurd hcompete (hg.not_compete hs hshape)

end Message

namespace Value.Orderly

variable {known : Snapshot → Prop} {m m' : Message} {f : NodeId} {v : Value}

theorem apart (hm : (Value.message m).Orderly known) (hknown : known m.type.snapshot)
    (hg : m.graph.Linked) : m.Apart := by
  cases hm with
  | message _ apart _ => exact apart hknown hg

theorem value (hm : (Value.message m).Orderly known) (hknown : known m.type.snapshot)
    (hv : m.value? f = some v) : v.Orderly known := by
  cases hm with
  | message _ _ values => exact values hknown _ (Message.mem_of_value? hv)

/-- A value is put in where the fields of oneofs stay apart. -/
theorem insert (hm : (Value.message m).Orderly known) (hv : known m.type.snapshot → v.Orderly known)
    (hapart : known m.type.snapshot → m.graph.Linked → (m.insert f v).Apart) :
    (Value.message (m.insert f v)).Orderly known := by
  cases hm with
  | message ascending _ values =>
    refine .message (fun hknown => (ascending hknown).insert _) hapart fun hknown e he => ?_
    rcases Keyed.mem_insert he with rfl | he
    · exact hv hknown
    · exact values hknown e he

theorem erase (hm : (Value.message m).Orderly known) (f : NodeId) :
    (Value.message (m.erase f)).Orderly known := by
  cases hm with
  | message ascending apart values =>
    exact .message (fun hknown => (ascending hknown).erase f)
      (fun hknown hg => (apart hknown hg).erase f)
      fun hknown e he => values hknown e (Keyed.mem_of_mem_erase he)

theorem put (hm : (Value.message m).Orderly known) (hv : v.Orderly known) (f : NodeId) :
    (Value.message (m.put f v)).Orderly known := by
  have herase : (Value.message ((m.rivals f).foldl Message.erase m)).Orderly known :=
    List.foldlRecOn (motive := fun m => (Value.message m).Orderly known) _ _ hm
      fun _ hm f _ => hm.erase f
  have htype := Message.WellTyped.type_foldl_erase m (m.rivals f)
  refine herase.insert (fun _ => hv) fun hknown hg => ?_
  rw [htype] at hknown
  rw [Message.graph, htype] at hg
  exact (hm.apart hknown hg).put hg.toSound f v

/-- The elements of a list field are orderly, if there are any. -/
theorem items (hm : (Value.message m).Orderly known) (hknown : known m.type.snapshot) (f : NodeId) :
    ∀ v ∈ ((m.value? f).bind Value.list?).getD [], v.Orderly known := by
  cases hv : m.value? f with
  | none => simp
  | some w =>
    cases hm.value hknown hv with
    | list elements => exact elements
    | _ => simp [Value.list?]

end Value.Orderly

/-! ### Whatever is reached -/

/-- New messages and messages that have been read are orderly. Where definitions are linked these
messages are well typed; where they are not, they are in order all the same. -/
theorem Message.orderly_of_made {known : Snapshot → Prop} {S : Snapshot} {m : Message}
    (hsorted : m.Sorted) (htyped : m.Typed S) (hwell : S.graph.Linked → m.WellTyped S) :
    (Value.message m).Orderly known := by
  by_cases hlinked : S.graph.Linked
  · exact Value.Fills.orderly (hwell hlinked)
  · exact Value.Typed.orderly hlinked htyped hsorted

theorem Message.IsReadFrom.wellTyped {S : Snapshot} (hg : S.graph.Linked) {t : MessageType}
    (ht : t.snapshot = S) {bytes : List UInt8} {m : Message} (h : m.IsReadFrom t bytes) :
    m.WellTyped S := by
  rcases h with h | ⟨missing, consumed, h⟩
  · exact (wellTyped_of_decode hg ht h).2.1
  · exact (wellTyped_of_decode_error hg ht h).2

section

variable {known : Snapshot → Prop} {m m' : Message} {name : String} {v : Value}

namespace Value.Orderly

theorem set (hm : (Value.message m).Orderly known) (hv : v.Orderly known)
    (h : m.set name v = .ok m') : (Value.message m').Orderly known := by
  obtain ⟨f, s, v', -, -, hfit, rfl⟩ := Message.set_eq_ok h
  exact hm.put (hv.fitField hfit) f

theorem add (hm : (Value.message m).Orderly known) (hv : v.Orderly known)
    (h : m.add name v = .ok m') : (Value.message m').Orderly known := by
  obtain ⟨f, s, v', -, hs, hshape, hfit, rfl⟩ := Message.add_eq_ok h
  refine hm.insert (fun hknown => .list fun w hw => ?_) fun hknown hg => ?_
  · rcases List.mem_append.mp hw with hw | hw
    · exact hm.items hknown f w hw
    · rw [List.mem_singleton.mp hw]
      exact hv.fit hfit
  · exact (hm.apart hknown hg).insert_collection hg hs (by simp [hshape]) _

theorem openMap (hm : (Value.message m).Orderly known) {map : MapValue}
    (h : m.openMap name = .ok (map, m')) : (Value.message m').Orderly known := by
  obtain ⟨f, s, key, -, hs, hshape, ⟨-, rfl, rfl⟩ | ⟨-, rfl⟩⟩ := Message.openMap_eq_ok h
  · refine hm.insert (fun _ => MapValue.orderly_empty _ _ _) fun hknown hg => ?_
    exact (hm.apart hknown hg).insert_collection hg hs (by simp [hshape]) _
  · exact hm

/-- A change that is not checked cannot make a field present. -/
theorem replaced (hm : (Value.message m).Orderly known) (hv : v.Orderly known)
    (h : m.update? name (fun _ => some v) = some m') : (Value.message m').Orderly known := by
  obtain ⟨f, v', -, hpresent, rfl⟩ := Message.update?_eq_some h
  obtain ⟨w, hw, heq⟩ := Option.bind_eq_some_iff.mp hpresent
  cases heq
  exact hm.insert (fun _ => hv) fun hknown hg => (hm.apart hknown hg).replace hw v

end Value.Orderly

/-- Whatever a program comes by is orderly, one way of coming by it after the other. -/
theorem Value.Reached.orderly (h : v.Reached known) : v.Orderly known := by
  induction h with
  | atom a => exact .atom a
  | list _ ih => exact .list ih
  | element _ hmem ih =>
    cases ih with
    | list elements => exact elements _ hmem
  | emptyMap key type owner => exact MapValue.orderly_empty key type owner
  | mapSet _ _ hset ihm ihv =>
    obtain ⟨k, v', hk, hv', rfl⟩ := MapValue.set_eq_ok hset
    exact MapValue.orderly_insert ihm hk (ihv.fitMap hv')
  | mapErase _ key ih => exact MapValue.orderly_erase ih key
  | mapClear _ _ => exact MapValue.orderly_clear
  | mapReplaced _ _ hreplaced ihm ihv => exact MapValue.orderly_replaced ihm ihv hreplaced
  | mapEntry _ hmem ih =>
    cases ih with
    | map _ _ values => exact values _ hmem
  | foreign hunknown =>
    exact .message (fun h => absurd h hunknown) (fun h => absurd h hunknown)
      fun h => absurd h hunknown
  | new hbuilt =>
    exact Message.orderly_of_made (.new _) (.new hbuilt.defaultsHold rfl) fun hg => .new hg rfl
  | read hbuilt hread =>
    exact Message.orderly_of_made hread.sorted (hread.typed hbuilt.defaultsHold rfl)
      fun hg => hread.wellTyped hg rfl
  | set _ _ hset ihm ihv => exact ihm.set ihv hset
  | add _ _ hadd ihm ihv => exact ihm.add ihv hadd
  | clear _ hclear ihm =>
    obtain ⟨f, rfl⟩ := Message.clear_eq_ok hclear
    exact ihm.erase f
  | openMap _ hopen ihm => exact ihm.openMap hopen
  | replaced _ _ hreplaced ihm ihv => exact ihm.replaced ihv hreplaced
  | field hknown _ hget ihm =>
    obtain ⟨f, -, hv⟩ := Option.bind_eq_some_iff.mp hget
    exact ihm.value hknown hv

end

/-! ### Further ways -/

namespace Message

variable {m m' : Message} {name : String} {f : NodeId} {v w : Value}

theorem field?_of_node (h : m.node name = .ok f) : m.type.field? name = some f := by
  rw [node] at h
  split at h
  · rename_i f' hf
    cases h
    exact hf
  · cases h

theorem get?_of_node (h : m.node name = .ok f) : m.get? name = m.value? f := by
  rw [get?, field?_of_node h]
  rfl

/-- What a value is replaced by may depend on the value. -/
theorem exists_replaced {change : Value → Option Value} (h : m.update? name change = some m') :
    ∃ w v, m.get? name = some w ∧ change w = some v ∧
      m.update? name (fun _ => some v) = some m' := by
  obtain ⟨f, v, hf, hv, rfl⟩ := update?_eq_some h
  obtain ⟨w, hw, hv⟩ := Option.bind_eq_some_iff.mp hv
  refine ⟨w, v, (get?_of_node hf).trans hw, hv, ?_⟩
  rw [update?, field?_of_node hf]
  simp only [hw, Option.bind_eq_bind, Option.bind_some]
  rfl

end Message

/-- The same for the values of a map. -/
theorem MapValue.exists_replaced {m m' : MapValue} {key : Value} {change : Value → Option Value}
    (h : m.update? key change = some m') : ∃ e ∈ m.entries, ∃ v, change e.2 = some v ∧
      m.update? key (fun _ => some v) = some m' := by
  rw [update?] at h
  obtain ⟨text, htext, h⟩ := Option.bind_eq_some_iff.mp h
  obtain ⟨e, he, h⟩ := Option.bind_eq_some_iff.mp h
  obtain ⟨v, hv, h⟩ := Option.bind_eq_some_iff.mp h
  cases h
  refine ⟨e, Keyed.mem_of_find? he, v, hv, ?_⟩
  rw [update?, htext]
  simp only [he, Option.bind_eq_bind, Option.bind_some]
  rfl

namespace Value.Reached

variable {known : Snapshot → Prop} {m m' : Message} {name : String} {v : Value}

/-- The map that is opened in a message is that of the field. -/
theorem opened (hknown : known m.type.snapshot) (hm : (Value.message m).Reached known)
    {map : MapValue} (h : m.openMap name = .ok (map, m')) : (Value.map map).Reached known := by
  have htype := Message.type_openMap h
  have hget : m'.get? name = some (.map map) := by
    obtain ⟨f, s, key, hf, -, -, hcases⟩ := Message.openMap_eq_ok h
    have hf' : m'.node name = .ok f := by
      rw [Message.node, htype]
      exact hf
    rw [Message.get?_of_node hf']
    rcases hcases with ⟨-, rfl, rfl⟩ | ⟨hv, rfl⟩
    · rw [Message.value?_insert, if_pos rfl]
    · exact hv
  exact .field (htype ▸ hknown) (.openMap hm h) hget

/-- Making a message from its fields is making a new one and setting them. -/
theorem ofFields {t : MessageType} (ht : t.snapshot.Built) {fields : List (String × Value)}
    (hfields : ∀ e ∈ fields, e.2.Reached known) (h : Message.ofFields t fields = .ok m) :
    (Value.message m).Reached known := by
  have hrun : ∀ (fields : List (String × Value)) (m₀ : Message),
      (Value.message m₀).Reached known → (∀ e ∈ fields, e.2.Reached known) →
      fields.foldlM (fun m e => Message.set m e.1 e.2) m₀ = .ok m →
      (Value.message m).Reached known := by
    intro fields
    induction fields with
    | nil =>
      intro m₀ hm₀ _ hrun
      cases hrun
      exact hm₀
    | cons e more ih =>
      intro m₀ hm₀ hfields hrun
      rw [List.foldlM_cons] at hrun
      obtain ⟨m₁, hset, hrun⟩ := bind_eq_ok.mp hrun
      exact ih m₁ (.set hm₀ (hfields e List.mem_cons_self) hset)
        (fun e' he' => hfields e' (List.mem_cons_of_mem _ he')) hrun
  exact hrun fields _ (.new ht) hfields h

/-- A value may be replaced deep inside of another one. The induction is on the places that lead
there; messages that are not looked into are reached whatever is in them. -/
theorem replaceAt {whole whole' : Value} (hwhole : whole.Reached known) (hv : v.Reached known)
    {places : List Place} (h : whole.replaceAt places v = some whole') :
    whole'.Reached known := by
  induction places generalizing whole whole' with
  | nil =>
    rw [Value.replaceAt] at h
    cases h
    exact hv
  | cons place more ih =>
    cases place with
    | field name =>
      cases whole with
      | message m =>
        rw [Value.replaceAt] at h
        obtain ⟨m', hm', rfl⟩ := Option.map_eq_some_iff.mp h
        obtain ⟨inner, inner', hinner, hreplaced, hset⟩ := Message.exists_replaced hm'
        by_cases hknown : known m.type.snapshot
        · exact .replaced hwhole (ih (.field hknown hwhole hinner) hreplaced) hset
        · obtain ⟨f, v', -, -, rfl⟩ := Message.update?_eq_some hset
          exact .foreign hknown
      | _ => cases h
    | key key =>
      cases whole with
      | map m =>
        rw [Value.replaceAt] at h
        obtain ⟨m', hm', rfl⟩ := Option.map_eq_some_iff.mp h
        obtain ⟨e, he, inner', hreplaced, hset⟩ := MapValue.exists_replaced hm'
        exact .mapReplaced hwhole (ih (.mapEntry hwhole he) hreplaced) hset
      | _ => cases h
    | item index =>
      cases whole with
      | list items =>
        rw [Value.replaceAt] at h
        obtain ⟨inner, hinner, h⟩ := Option.bind_eq_some_iff.mp h
        obtain ⟨inner', hreplaced, h⟩ := Option.bind_eq_some_iff.mp h
        cases h
        refine .list fun w hw => ?_
        rcases List.mem_or_eq_of_mem_set hw with hw | rfl
        · exact .element hwhole hw
        · exact ih (.element hwhole (List.mem_of_getElem? hinner)) hreplaced
      | _ => cases h

end Value.Reached

/-! ### Without unchecked changes -/

section

variable {S : Snapshot} {m m' m'' : Message}

/-- The map of an open field may be exchanged for one that is reached. -/
theorem Value.Reached.changeMap {known : Snapshot → Prop} (hm : (Value.message m).Reached known)
    {name : String} {map map' : MapValue} (h : m.openMap name = .ok (map, m'))
    (hmap : (Value.map map).Reached known → (Value.map map').Reached known)
    (hput : m'.update? name (fun _ => some (.map map')) = some m'') :
    (Value.message m'').Reached known := by
  by_cases hknown : known m.type.snapshot
  · exact .replaced (.openMap hm h) (hmap (hm.opened hknown h)) hput
  · have htype : m''.type = m.type := by
      obtain ⟨f, v', -, -, rfl⟩ := Message.update?_eq_some hput
      show m'.type = m.type
      exact Message.type_openMap h
    exact .foreign (htype ▸ hknown)

/-- What is made without unchecked changes is reached, also if the definitions of other snapshots
are not looked into. -/
theorem Value.Given.reached (hS : S.Built) {v : Value} (h : v.Given S) :
    v.Reached (·.stamp = S.stamp) := by
  induction h with
  | atom a => exact .atom a
  | list _ ih => exact .list ih
  | element _ hmem ih => exact .element ih hmem
  | emptyMap key type owner => exact .emptyMap key type owner
  | mapSet _ _ hset ihm ihv => exact .mapSet ihm ihv hset
  | mapErase _ key ih => exact .mapErase ih key
  | mapClear _ ih => exact .mapClear ih
  | mapEntry _ hmem ih => exact .mapEntry ih hmem
  | foreign hstamp => exact .foreign hstamp
  | new ht => exact .new (ht ▸ hS)
  | decoded ht hread => exact .read (ht ▸ hS) (.inl hread)
  | decodedPart ht hread => exact .read (ht ▸ hS) (.inr ⟨_, _, hread⟩)
  | set _ _ hset ihm ihv => exact .set ihm ihv hset
  | add _ _ hadd ihm ihv => exact .add ihm ihv hadd
  | clear _ hclear ihm => exact .clear ihm hclear
  | openMap _ hopen ihm => exact .openMap ihm hopen
  | openSet _ _ hopen hset hput ihm ihv =>
    exact ihm.changeMap hopen (fun hmap => .mapSet hmap ihv hset) hput
  | openErase _ hopen hput ihm => exact ihm.changeMap hopen (fun hmap => .mapErase hmap _) hput
  | openClear _ hopen hput ihm => exact ihm.changeMap hopen (fun hmap => .mapClear hmap) hput
  | field hsnapshot _ hget ihm => exact .field (by rw [hsnapshot]) ihm hget

/-- All messages in a typed value are of its snapshot, so all of it is looked into. -/
theorem Value.Typed.sorted {shape : Shape} {t : FieldType} {v : Value} (h : v.Typed S shape t)
    (hv : v.Orderly (·.stamp = S.stamp)) : v.Sorted := by
  induction h with
  | atom _ => exact .atom _
  | @message t m node snapshot present fields ih =>
    have hknown : m.type.snapshot.stamp = S.stamp := by rw [snapshot]
    cases hv with
    | message ascending _ values =>
      refine .message (ascending hknown) fun e he => ?_
      obtain ⟨-, s, hs⟩ := present e he
      exact ih e he s hs (values hknown e he)
  | list _ ih =>
    cases hv with
    | list elements => exact .list fun v hv => ih v hv (elements v hv)
  | map keys _ ih =>
    cases hv with
    | map ascending _ values => exact .map ascending fun e he => ih e he (values e he)

/-- Messages that have been made without unchecked changes are in order. -/
theorem Message.Made.sorted (hS : S.Built) (hm : m.Made S) : m.Sorted :=
  Value.Typed.sorted (hm.typed hS.defaultsHold) (hm.given.reached hS).orderly

end

end Protobuf

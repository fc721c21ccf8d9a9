import Mathlib
import Protobuf.Proofs.Message.Conversion
import Protobuf.Proofs.Message.Typed
import Protobuf.Proofs.Message.Unordered

/-!
# What setters do

A setter is given here a second time, as a program that changes a message in place: it looks up the
field, converts the value part by part, and only then takes away the other fields of the oneof, one
after the other, and puts the value in. Being refused, it may in principle leave the message
halfway. It does not: whatever is refused is refused while the value is being converted, and
converting touches nothing. So the program and `Message.set`, which gives a new message or an error,
do the same.

What a setter does when it is not refused is said field by field.

## Main definitions

* `MessageEdit.set`, `MessageEdit.add` — setters as programs that change a message in place.
* `Message.SetTo` — one field is set, and its rivals are cleared.
* `Message.ExtendedBy` — one list has one more element.

## Main results

* `MessageEdit.run_set`, `MessageEdit.run_add` — the programs do what `Message.set` and
  `Message.add` say
* `Message.Made.set_add_effect` — when setters are refused, and what they do if they are not
-/

namespace Protobuf

/-- A program that changes a message in place, and that may be refused at any point. -/
abbrev MessageEdit (α : Type) := ExceptT ValueError (StateM Message) α

namespace MessageEdit

/-- What may be refused, but has no effect. -/
def attempt {α : Type} (x : Except ValueError α) : MessageEdit α :=
  match x with
  | .ok a => pure a
  | .error e => throw e

/-- A single value in the form of a type. -/
def convertPart (name : String) (t : FieldType) (v : Value) : MessageEdit Value := do
  let m ← get
  attempt ((m.type.snapshot.fit t v).mapError (.illegalValue name))

/-- A value in the form of a field, converted part by part. -/
def convert (name : String) (s : Slot) (v : Value) : MessageEdit Value := do
  match s.shape, v with
  | .single, v => convertPart name s.type v
  | .list, .list items => return .list (← items.mapM (convertPart name s.type))
  | .list, v => throw (.illegalValue name (.notAList v.kind))
  | .map key, .map ⟨keyType, valueType, _, entries⟩ =>
    if keyType = key ∧ valueType = s.type then
      let entries ← entries.mapM fun e => return (e.1, ← convertPart name s.type e.2)
      return .map ⟨key, s.type, some (← get).type.snapshot, entries⟩
    else throw (.illegalValue name .wrongEntryTypes)
  | .map _, v => throw (.illegalValue name (.notAMap v.kind))

/-- Sets a field in place. -/
def set (name : String) (v : Value) : MessageEdit PUnit := do
  let m ← get
  let f ← attempt (m.node name)
  match m.graph.slot? f with
  | none => throw (.illegalValue name .unlinked)
  | some s =>
    let v ← convert name s v
    (m.rivals f).forM fun rival => modify (·.erase rival)
    modify (·.insert f v)

/-- Appends an element to a list in place. A list that is absent is put in empty first. -/
def add (name : String) (v : Value) : MessageEdit PUnit := do
  let m ← get
  let f ← attempt (m.node name)
  match m.graph.slot? f with
  | none => throw (.illegalValue name .unlinked)
  | some s =>
    if s.shape = .list then
      let v ← convertPart name s.type v
      if (m.value? f).isNone then modify (·.insert f (.list []))
      modify fun m => m.insert f (.list ((((m.value? f).bind Value.list?).getD []) ++ [v]))
    else throw (.notRepeated name)

end MessageEdit

/-- The message `m'` is `m` with the field `n` set to `v`: other fields of its oneof are absent, and
all other fields are what they were. -/
structure Message.SetTo (m m' : Message) (n : NodeId) (v : Value) : Prop where
  type : m'.type = m.type
  value : m'.value? n = some v
  cleared : ∀ n', n' ≠ n → m.graph.Compete n n' → m'.value? n' = none
  kept : ∀ n', n' ≠ n → ¬m.graph.Compete n n' → m'.value? n' = m.value? n'

/-- The message `m'` is `m` with `v` as one more element at the end of the list `n`. All other
fields are what they were. -/
structure Message.ExtendedBy (m m' : Message) (n : NodeId) (v : Value) : Prop where
  type : m'.type = m.type
  value : ∃ items, (m.value? n = some (.list items) ∨ m.value? n = none ∧ items = []) ∧
    m'.value? n = some (.list (items ++ [v]))
  kept : ∀ n', n' ≠ n → m'.value? n' = m.value? n'

/-! ### Setters -/

namespace Message

variable {m : Message} {name : String} {f : NodeId}

theorem set_of_node (hf : m.node name = .ok f) (v : Value) :
    m.set name v = match m.graph.slot? f with
      | none => .error (.illegalValue name .unlinked)
      | some s => ((m.type.snapshot.fitField s v).mapError (.illegalValue name)).map (m.put f) := by
  rw [Message.set, hf]
  rfl

theorem add_of_node (hf : m.node name = .ok f) (v : Value) :
    m.add name v = match m.graph.slot? f with
      | none => .error (.illegalValue name .unlinked)
      | some s =>
        if s.shape = .list then
          ((m.type.snapshot.fit s.type v).mapError (.illegalValue name)).map fun v => m.append f [v]
        else .error (.notRepeated name) := by
  rw [Message.add, hf]
  show (match m.graph.slot? f with
    | none => _
    | some s => _) = _
  cases m.graph.slot? f with
  | none => rfl
  | some s =>
    dsimp only
    split <;> rfl

end Message

/-! ### Changes in place -/

/-- The error of a loop may be worded after the loop. -/
theorem mapM_mapError {ε ε' α β : Type} (f : α → Except ε β) (g : ε → ε') (items : List α) :
    (items.mapM fun a => (f a).mapError g) = (items.mapM f).mapError g := by
  induction items with
  | nil => rfl
  | cons a more ih =>
    rw [List.mapM_cons, List.mapM_cons, ih]
    cases f a with
    | error e => rfl
    | ok b => cases more.mapM f <;> rfl

namespace MessageEdit

variable {m : Message} {name : String} {s : Slot} {t : FieldType} {v : Value}

theorem run_attempt {α : Type} (x : Except ValueError α) (m : Message) :
    (ExceptT.run (attempt x)).run m = (x, m) := by
  cases x <;> rfl

/-- A loop whose steps have no effect has none, and stops at the first step that is refused. -/
theorem run_mapM {α β : Type} {step : α → MessageEdit β} {f : α → Except ValueError β} {m : Message}
    (hstep : ∀ a, (ExceptT.run (step a)).run m = (f a, m)) (items : List α) :
    (ExceptT.run (items.mapM step)).run m = (items.mapM f, m) := by
  induction items with
  | nil => rfl
  | cons a more ih =>
    rw [List.mapM_cons, List.mapM_cons, run_bind_eq, hstep]
    cases f a with
    | error e => rfl
    | ok b =>
      show (ExceptT.run (more.mapM step >>= _)).run m = _
      rw [run_bind_eq, ih]
      cases more.mapM f with
      | error e => rfl
      | ok bs => rfl

theorem run_forM_modify {α : Type} (change : Message → α → Message) (items : List α)
    (m : Message) :
    (ExceptT.run (items.forM fun a => (modify (change · a) : MessageEdit PUnit))).run m =
      (.ok ⟨⟩, items.foldl change m) := by
  induction items generalizing m with
  | nil => rfl
  | cons a more ih => exact ih (change m a)

theorem run_convertPart : (ExceptT.run (convertPart name t v)).run m =
    ((m.type.snapshot.fit t v).mapError (.illegalValue name), m) :=
  run_attempt _ m

/-- Converting a value has no effect on the message, wherever it is refused. -/
theorem run_convert : (ExceptT.run (convert name s v)).run m =
    ((m.type.snapshot.fitField s v).mapError (.illegalValue name), m) := by
  cases hshape : s.shape with
  | single =>
    simp only [convert, Snapshot.fitField, hshape]
    exact run_convertPart
  | list =>
    cases v with
    | list items =>
      simp only [convert, Snapshot.fitField, hshape]
      rw [run_bind_eq, run_mapM (fun _ => run_convertPart), mapM_mapError]
      cases items.mapM (m.type.snapshot.fit s.type) <;> rfl
    | _ =>
      simp only [convert, Snapshot.fitField, hshape]
      rfl
  | map key =>
    cases v with
    | map map =>
      obtain ⟨keyType, valueType, owner, entries⟩ := map
      simp only [convert, Snapshot.fitField, hshape]
      split
      · rename_i htypes
        obtain ⟨rfl, rfl⟩ := htypes
        have hentry : ∀ e : Atom × Value, (ExceptT.run (do
            let v ← convertPart name s.type e.2
            return (e.1, v))).run m = (Except.mapError (.illegalValue name) (do
              let v ← m.type.snapshot.fit s.type e.2
              return (e.1, v)), m) := by
          intro e
          rw [run_bind_eq, run_convertPart]
          cases m.type.snapshot.fit s.type e.2 <;> rfl
        have hloop := run_mapM hentry entries
        rw [mapM_mapError] at hloop
        rw [run_bind_eq, hloop, MapValue.attach]
        dsimp only
        cases List.mapM (m := Except ValueFault) _ entries <;> rfl
      · rfl
    | _ =>
      simp only [convert, Snapshot.fitField, hshape]
      rfl

/-- A list that is absent may be put in empty before its first element is appended. -/
theorem run_push (m : Message) (f : NodeId) (v : Value) :
    (ExceptT.run (do
        if (m.value? f).isNone then modify (·.insert f (.list []))
        modify fun m => m.insert f (.list ((((m.value? f).bind Value.list?).getD []) ++ [v])) :
      MessageEdit PUnit)).run m = (.ok ⟨⟩, m.append f [v]) := by
  have hins : ∀ w, (m.insert f (.list [])).insert f w = m.insert f w := by
    intro w
    have hentries : Keyed.insert Prod.fst (f, w) (Keyed.insert Prod.fst (f, .list []) m.entries) =
        Keyed.insert Prod.fst (f, w) m.entries := Keyed.insert_insert (by rfl) m.entries
    exact congrArg (MessageOf.mk m.type) hentries
  cases hv : m.value? f with
  | none =>
    show (Except.ok PUnit.unit, (m.insert f (.list [])).insert f (.list
      (((((m.insert f (.list [])).value? f).bind Value.list?).getD []) ++ [v]))) = _
    rw [Message.value?_insert, if_pos rfl, hins, Message.append, hv]
    rfl
  | some w =>
    show (Except.ok PUnit.unit, m.insert f (.list ((((m.value? f).bind Value.list?).getD []) ++
      [v]))) = _
    rfl

/-- Setting a field in place gives the message that `Message.set` gives. If it is refused, the
message is as it was. -/
theorem run_set (m : Message) (name : String) (v : Value) :
    (ExceptT.run (set name v)).run m = match m.set name v with
      | .ok m' => (.ok ⟨⟩, m')
      | .error e => (.error e, m) := by
  rw [set, run_get_bind, run_bind_eq, run_attempt]
  cases hnode : m.node name with
  | error e =>
    rw [Message.set, hnode]
    rfl
  | ok f =>
    rw [Message.set_of_node hnode]
    dsimp only
    cases m.graph.slot? f with
    | none => rfl
    | some s =>
      dsimp only
      rw [run_bind_eq, run_convert]
      cases m.type.snapshot.fitField s v with
      | error fault => rfl
      | ok v' =>
        dsimp only [Except.mapError]
        rw [run_bind_eq, run_forM_modify]
        rfl

/-- Appending an element in place gives the message that `Message.add` gives. If it is refused, the
message is as it was. -/
theorem run_add (m : Message) (name : String) (v : Value) :
    (ExceptT.run (add name v)).run m = match m.add name v with
      | .ok m' => (.ok ⟨⟩, m')
      | .error e => (.error e, m) := by
  rw [add, run_get_bind, run_bind_eq, run_attempt]
  cases hnode : m.node name with
  | error e =>
    rw [Message.add, hnode]
    rfl
  | ok f =>
    rw [Message.add_of_node hnode]
    dsimp only
    cases m.graph.slot? f with
    | none => rfl
    | some s =>
      dsimp only
      split
      · rw [run_bind_eq, run_convertPart]
        cases m.type.snapshot.fit s.type v with
        | error fault => rfl
        | ok v' =>
          dsimp only [Except.mapError]
          exact run_push m f v'
      · rfl

end MessageEdit

/-! ### Effects -/

/-- The fields that are cleared when a field is set are the others of its oneof. -/
theorem Graph.Faithful.mem_rivals {m : Message} (hg : m.graph.Faithful) {n n' : NodeId} :
    n' ∈ m.rivals n ↔ n' ≠ n ∧ m.graph.Compete n n' := by
  constructor
  · intro h
    exact ⟨of_decide_eq_true (List.mem_filter.mp h).2, hg.compete_of_mem_rivals h⟩
  · rintro ⟨hne, f, f', o, hf, hf', ho, ho'⟩
    obtain ⟨hsome, hparent⟩ := hg.member n' f' o hf' ho'
    obtain ⟨c, hc⟩ := Option.isSome_iff_exists.mp hsome
    obtain ⟨owner, content, howner, hcontent, hfields, -⟩ := hg.oneof o c hc
    -- The node is listed by its parent, which is the message that lists the oneof.
    have hchild : n' ∈ m.graph.children owner := by
      have hcount := hg.listed owner n'
      rw [if_pos ⟨hparent.trans howner, by rw [kind_of_message? hcontent]; rfl⟩] at hcount
      exact List.count_pos_iff.mp (by omega)
    have hmem : n' ∈ c.fields := by
      rw [hfields, (hg.message owner content hcontent).1]
      simp [hchild, hf', ho']
    rw [Message.rivals, List.mem_filter]
    refine ⟨?_, decide_eq_true hne⟩
    simpa only [hf, ho, hc, Option.bind_some, Option.elim_some] using hmem

namespace Message

variable {S : Snapshot} {m : Message} {n : NodeId} {s : Slot} {v : Value}

/-- Putting a value into a field sets the field. -/
theorem setTo_put (hg : m.graph.Faithful) (n : NodeId) (v : Value) :
    m.SetTo (m.put n v) n v where
  type := Decoding.type_put m n v
  value := value?_put_self m n v
  cleared n' hne hcompete := by
    rw [value?_put, if_neg hne.symm, if_pos (hg.mem_rivals.mpr ⟨hne, hcompete⟩)]
  kept n' hne hcompete := by
    rw [value?_put, if_neg hne.symm, if_neg fun h => hcompete (hg.mem_rivals.mp h).2]

/-- Appending a value to a list extends the list. -/
theorem Typed.extendedBy_append (hm : m.Typed S) (hs : S.graph.slot? n = some s)
    (hshape : s.shape = .list) (v : Value) : m.ExtendedBy (m.append n [v]) n v := by
  rw [append_eq m n (by simp)]
  refine ⟨rfl, ⟨Message.items m n, ?_, ?_⟩, fun n' hne => ?_⟩
  · rw [Message.items]
    cases hv : m.value? n with
    | none => exact .inr ⟨rfl, rfl⟩
    | some w =>
      have hw := hm.value hv hs
      rw [hshape] at hw
      cases hw with
      | list _ => exact .inl rfl
  · rw [value?_insert, if_pos rfl]
  · rw [value?_insert, if_neg hne.symm]

/-- A setter succeeds if the field exists and the value can be brought into its form. Then the field
has the value in that form, other fields of its oneof are absent, and the rest of the message is
what it was. An element is added under the same condition to a list, which it ends; nothing else
changes. Whenever a setter is refused, the message is as it was, even if it is the last element of a
list or the last value in a map that cannot be converted. -/
theorem Made.set_add_effect (hS : S.Built) (hm : m.Made S) (name : String) (v : Value) :
    (match (ExceptT.run (MessageEdit.set name v)).run m with
      | (.ok _, m') => m.set name v = .ok m' ∧ ∃ n s v', m.type.field? name = some n ∧
        S.graph.slot? n = some s ∧ S.FieldConverts s v v' ∧ m'.get? name = some v' ∧
        m.SetTo m' n v'
      | (.error e, m') => m.set name v = .error e ∧ m' = m ∧ ∀ n s v',
        m.type.field? name = some n → S.graph.slot? n = some s → ¬S.FieldConverts s v v') ∧
    (match (ExceptT.run (MessageEdit.add name v)).run m with
      | (.ok _, m') => m.add name v = .ok m' ∧ ∃ n s v', m.type.field? name = some n ∧
        S.graph.slot? n = some s ∧ s.shape = .list ∧ S.Converts s.type v v' ∧ m.ExtendedBy m' n v'
      | (.error e, m') => m.add name v = .error e ∧ m' = m ∧ ∀ n s v',
        m.type.field? name = some n → S.graph.slot? n = some s → s.shape = .list →
          ¬S.Converts s.type v v') := by
  have htyped := hm.typed hS.defaultsHold
  have hgraph : m.graph = S.graph := htyped.graph
  have hfaithful : m.graph.Faithful := by
    rw [hgraph]
    exact hS.graph_faithful
  constructor
  · rw [MessageEdit.run_set]
    cases hset : m.set name v with
    | ok m' =>
      obtain ⟨n, s, v', hn, hs, hfit, rfl⟩ := set_eq_ok hset
      have hfield := field?_of_node hn
      rw [hgraph] at hs
      rw [hm.snapshot] at hfit
      refine ⟨rfl, n, s, v', hfield, hs, Snapshot.fitField_eq_ok_iff.mp hfit, ?_,
        setTo_put hfaithful n v'⟩
      rw [get?, Decoding.type_put, hfield]
      exact value?_put_self m n v'
    | error e =>
      refine ⟨rfl, rfl, fun n s v' hn hs hconverts => ?_⟩
      rw [← hgraph] at hs
      rw [← hm.snapshot] at hconverts
      have hok := (set_eq_ok_iff hn hs).mpr ⟨v', Snapshot.fitField_eq_ok_iff.mpr hconverts, rfl⟩
      rw [hset] at hok
      cases hok
  · rw [MessageEdit.run_add]
    cases hadd : m.add name v with
    | ok m' =>
      obtain ⟨n, s, v', hn, hs, hshape, hfit, rfl⟩ := add_eq_ok hadd
      rw [hgraph] at hs
      rw [hm.snapshot] at hfit
      exact ⟨rfl, n, s, v', field?_of_node hn, hs, hshape, Snapshot.fit_eq_ok_iff.mp hfit,
        htyped.extendedBy_append hs hshape v'⟩
    | error e =>
      refine ⟨rfl, rfl, fun n s v' hn hs hshape hconverts => ?_⟩
      have hnode : m.node name = .ok n := by rw [node, hn]
      rw [← hgraph] at hs
      rw [← hm.snapshot] at hconverts
      rw [add_of_node hnode, hs] at hadd
      dsimp only at hadd
      rw [if_pos hshape, Snapshot.fit_eq_ok_iff.mpr hconverts] at hadd
      cases hadd

end Message

/-- Setting a field of a oneof, in another width, takes the other one away. A list that fails at its
last element changes nothing. -/
theorem Message.set_add_effect_mixed : ∃ m m' : Message, m.Made .mixed ∧
    m.get? "x" = some (.atom (.i32 1)) ∧
    (ExceptT.run (MessageEdit.set "y" (.atom (.u64 2)))).run m = (.ok ⟨⟩, m') ∧
    m'.get? "y" = some (.atom (.i32 2)) ∧ m'.get? "x" = none ∧
    ((ExceptT.run (MessageEdit.set "r" (.list [.atom (.i32 1), .atom (.bool true)]))).run m).2 =
      m := by
  have hset : (new ⟨⟨.mixed, 1⟩⟩).set "x" (.atom (.i32 1)) =
      .ok ⟨⟨⟨.mixed, 1⟩⟩, [(3, .atom (.i32 1))]⟩ := by
    cbv
  have hm : Made .mixed ⟨⟨⟨.mixed, 1⟩⟩, [(3, .atom (.i32 1))]⟩ :=
    ⟨rfl, .set (.new rfl) (.atom _) hset⟩
  have hbuilt := Snapshot.loaded_mixed.built
  have hrun : (ExceptT.run (MessageEdit.set "y" (.atom (.u64 2)))).run
      ⟨⟨⟨.mixed, 1⟩⟩, [(3, .atom (.i32 1))]⟩ =
        (.ok ⟨⟩, ⟨⟨⟨.mixed, 1⟩⟩, [(4, .atom (.i32 2))]⟩) := by
    cbv
  have hrefused : Message.set ⟨⟨⟨.mixed, 1⟩⟩, [(3, .atom (.i32 1))]⟩ "r"
      (.list [.atom (.i32 1), .atom (.bool true)]) =
        .error (.illegalValue "r" (.coercion (.mismatch .int32 "bool"))) := by
    cbv
  obtain ⟨-, n, s, v, hn, -, -, -, hset⟩ := hrun ▸ (hm.set_add_effect hbuilt "y" (.atom (.u64 2))).1
  have hnode : some n = some 4 := hn.symm.trans (by cbv)
  cases hnode
  refine ⟨_, _, hm, by cbv, hrun, by cbv, ?_, ?_⟩
  · exact hset.cleared 3 (by decide) ⟨_, _, 2, rfl, rfl, rfl, rfl⟩
  · rw [MessageEdit.run_set, hrefused]

end Protobuf

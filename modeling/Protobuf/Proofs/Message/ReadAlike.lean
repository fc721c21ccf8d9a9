import Mathlib
import Protobuf.Proofs.Message.Refilled

/-!
# Defaults that are filled in, and defaults that are read

A field that is absent reads as its default. So whoever reads messages in this way cannot tell
whether defaults were asked for: what is filled in is what would be read anyway, and whatever has no
default is not filled in. That goes for all messages inside of a message as well, also for those
that stand in for the absent half of a map entry.

## Main definitions

* `Value.ReadsAlike` — two values are the same to a reader who takes defaults for what is absent.
* `Message.DecodedAlike` — bytes are decoded to messages that read alike, or refused alike.
* `MessageType.ServesAlike` — two types decode alike, and new messages of them read alike.

## Main results

* `Value.readsAlike_refill` — filling up is not seen
* `Registry.populateDefaults_unseen` — neither is whether registries ask for defaults
-/

namespace Protobuf

variable {b : Bool}

/-- Whoever reads the two values finds the same in them: the same atom, elements and entries that
read alike, and fields that do, where an absent field reads as its default. -/
inductive Value.ReadsAlike : Value → Value → Prop
  | atom (a : Atom) : ReadsAlike (.atom a) (.atom a)
  | list {items items' : List Value} (elements : List.Forall₂ ReadsAlike items items') :
      ReadsAlike (.list items) (.list items')
  | map {m m' : MapValue} (keyType : m.keyType = m'.keyType)
      (valueType : m.valueType = m'.valueType) (keys : m.keys = m'.keys)
      (values : List.Forall₂ ReadsAlike m.values m'.values) :
      ReadsAlike (.map m) (.map m')
  | message {m m' : Message} (type : m.type.fqn = m'.type.fqn)
      (fields : ∀ name, Option.Rel ReadsAlike (m.getOrDefault? name) (m'.getOrDefault? name)) :
      ReadsAlike (.message m) (.message m')

namespace Message

variable {m : Message} {f : NodeId} {v : Value}

/-- What is filled in is what an absent field reads as. -/
theorem absentValue?_of_standIn? (h : m.standIn? f = some v) : m.absentValue? f = some v := by
  rw [standIn?] at h
  split at h
  · obtain ⟨fn, a, hfield, -, hdefault, rfl⟩ := Graph.filling?_eq_some.mp h
    simp only [absentValue?, hfield, Option.bind_eq_bind, Option.bind_some, hdefault]
    rfl
  · cases h

/-- An absent field reads alike. -/
theorem readsAlike_absentValue? {m m' : Message} (h : m'.type = m.type.asking b) (f : NodeId) :
    Option.Rel Value.ReadsAlike (m.absentValue? f) (m'.absentValue? f) := by
  have hslot : m'.graph.slot? f = m.graph.slot? f := by
    rw [graph, h]
    exact m.graph.slot?_asking b f
  have hfield : m'.graph.field? f = m.graph.field? f := by rw [graph, h]; rfl
  have hzero : m'.graph.zero? = m.graph.zero? := by rw [graph, h]; rfl
  simp only [absentValue?, hslot, hfield, hzero]
  cases m.graph.field? f with
  | none => exact .none
  | some fn =>
    cases hdefault : fn.default? with
    | some a =>
      simp only [Option.bind_eq_bind, Option.bind_some, hdefault]
      exact .some (.atom a)
    | none =>
      simp only [Option.bind_eq_bind, Option.bind_some, hdefault]
      cases m.graph.slot? f with
      | none => exact .none
      | some s =>
        simp only [Option.bind_some]
        cases s.shape with
        | single =>
          dsimp only
          cases m.graph.zero? s.type with
          | none => exact .none
          | some a => exact .some (.atom a)
        | list => exact .some (.list .nil)
        | map key => exact .some (.map rfl rfl rfl .nil)

/-- A message reads alike if the values in it do: what is filled in besides is what would have been
read instead. -/
theorem readsAlike_refill (m : Message)
    (h : ∀ e ∈ m.entries, e.2.ReadsAlike (e.2.refill b)) :
    (Value.message m).ReadsAlike (.message (m.refill b)) := by
  have htype : (m.refill b).type = m.type.asking b := WellTyped.type_populate _
  refine .message ?_ fun name => ?_
  · rw [htype]
    exact (m.type.graph.fqn_asking b m.type.node).symm
  · have hfield : (m.refill b).type.field? name = m.type.field? name := by
      rw [htype]
      exact m.type.graph.fieldByName?_asking b m.type.node name
    have hvalue : ∀ f, (m.refill b).value? f =
        ((m.value? f).map (Value.refill b)).or ((m.carry b).standIn? f) := fun f => by
      rw [refill, WellTyped.value?_populate, value?_carry]
    simp only [getOrDefault?, hfield, hvalue, Option.bind_eq_bind]
    cases m.type.field? name with
    | none => exact .none
    | some f =>
      rw [Option.bind_some, Option.bind_some]
      cases hpresent : m.value? f with
      | some v =>
        obtain ⟨e, he, rfl⟩ := Option.map_eq_some_iff.mp hpresent
        exact .some (h e (Keyed.mem_of_find? he))
      | none =>
        cases hfilled : (m.carry b).standIn? f with
        | none => exact readsAlike_absentValue? htype f
        | some v =>
          have hcarry : (m.carry b).type = m.type.asking b := rfl
          have habsent := readsAlike_absentValue? hcarry f
          rw [absentValue?_of_standIn? hfilled] at habsent
          exact habsent

end Message

mutual

/-- A value reads alike where defaults are filled in. -/
theorem Value.readsAlike_refill (v : Value) : v.ReadsAlike (v.refill b) := by
  match v with
  | .atom a =>
    rw [Value.refill_atom]
    exact .atom a
  | .list items =>
    rw [Value.refill_list]
    exact .list (List.forall₂_map_right_iff.mpr
      (List.forall₂_same.mpr (Value.readsAlike_refillItems items)))
  | .map ⟨keyType, valueType, owner, entries⟩ =>
    rw [Value.refill_map]
    refine .map rfl rfl ?_ ?_
    · simp only [MapValue.keys, MapValue.refill, Value.refillEntries_eq, List.map_map]
      rfl
    · simp only [MapValue.values, MapValue.refill, Value.refillEntries_eq, List.map_map]
      exact List.forall₂_map_left_iff.mpr (List.forall₂_map_right_iff.mpr
        (List.forall₂_same.mpr (Value.readsAlike_refillEntries entries)))
  | .message ⟨type, entries⟩ =>
    rw [Value.refill_message]
    exact Message.readsAlike_refill _ (Value.readsAlike_refillFields entries)

theorem Value.readsAlike_refillItems (items : List Value) :
    ∀ v ∈ items, v.ReadsAlike (v.refill b) := by
  match items with
  | [] => exact nofun
  | v :: more =>
    exact List.forall_mem_cons.mpr ⟨Value.readsAlike_refill v, Value.readsAlike_refillItems more⟩

theorem Value.readsAlike_refillEntries (entries : List (Atom × Value)) :
    ∀ e ∈ entries, e.2.ReadsAlike (e.2.refill b) := by
  match entries with
  | [] => exact nofun
  | (key, v) :: more =>
    exact List.forall_mem_cons.mpr ⟨Value.readsAlike_refill v, Value.readsAlike_refillEntries more⟩

theorem Value.readsAlike_refillFields (entries : List (NodeId × Value)) :
    ∀ e ∈ entries, e.2.ReadsAlike (e.2.refill b) := by
  match entries with
  | [] => exact nofun
  | (f, v) :: more =>
    exact List.forall_mem_cons.mpr ⟨Value.readsAlike_refill v, Value.readsAlike_refillFields more⟩

end

/-! ### Messages -/

/-- Bytes are decoded alike: to messages that read alike, though the same required fields may be
absent from both, or not at all for the same reason. -/
inductive Message.DecodedAlike : Except DecodeError Message → Except DecodeError Message → Prop
  | ok {m m' : Message} (h : (Value.message m).ReadsAlike (.message m')) :
      DecodedAlike (.ok m) (.ok m')
  | missing {missing : List String} {consumed : Option Nat} {m m' : Message}
      (h : (Value.message m).ReadsAlike (.message m')) :
      DecodedAlike (.error (.missingRequired missing m consumed))
        (.error (.missingRequired missing m' consumed))
  | refused {e : DecodeError} (h : e.isRefusal) : DecodedAlike (.error e) (.error e)

/-- Bytes are decoded alike by both types, and new messages of them read alike. -/
structure MessageType.ServesAlike (t t' : MessageType) : Prop where
  fqn : t.fqn = t'.fqn
  decode : ∀ bytes, Message.DecodedAlike (Message.decode t bytes) (Message.decode t' bytes)
  new : (Value.message (Message.new t)).ReadsAlike (.message (Message.new t'))

/-- Of two types that differ in whether defaults are asked for, where one does not ask for them, the
messages read alike. -/
theorem MessageType.servesAlike_asking {t : MessageType}
    (hoff : t.graph.settings.populateDefaults = false) : t.ServesAlike (t.asking b) where
  fqn := (t.graph.fqn_asking b t.node).symm
  decode bytes := by
    have hrun := congrArg (fun p => StateT.run p [])
      (Decoding.message_asking (b := b) recursionLimit hoff (.ofBytes bytes))
    rw [StateT.run_map] at hrun
    rw [Message.decode_eq, Message.decode_eq, hrun]
    cases hread : (Decoding.message recursionLimit t (.ofBytes bytes)).run [] with
    | error e => exact .refused ((Decoding.steady_message _ _ _).refusal e hread)
    | ok r =>
      obtain ⟨m, noted⟩ := r
      have hm : (Value.message m).ReadsAlike (.message (m.refill b)) := by
        rw [← Value.refill_message]
        exact Value.readsAlike_refill _
      show Message.DecodedAlike (if noted = [] then .ok m else _)
        (if noted = [] then .ok (m.refill b) else _)
      split
      · exact .ok hm
      · exact .missing hm
  new := by
    rw [← Message.refill_new hoff, ← Value.refill_message]
    exact Value.readsAlike_refill _

namespace Registry

/-- Two registries name fields in the same way, one of them asks for defaults and the other one does
not, and the same calls are made on both. Then every further call has the same outcome, and whatever
type is taken, by its path or by its number, bytes are decoded alike and new messages read alike:
whoever reads with defaults cannot tell the registries apart. -/
theorem populateDefaults_unseen (camelCase : Bool) (calls : List Call) :
    let off := ofCalls { camelCase, populateDefaults := false } calls
    let on := ofCalls { camelCase, populateDefaults := true } calls
    (∀ call : Call, off.outcome call.edit = on.outcome call.edit) ∧
    Option.Rel (fun S S' => ∀ n, MessageType.ServesAlike ⟨⟨S, n⟩⟩ ⟨⟨S', n⟩⟩)
      off.snapshot on.snapshot ∧
    ∀ path, (∃ t t', off.messageType path = .ok t ∧ on.messageType path = .ok t' ∧
        t.ServesAlike t') ∨
      ∃ e, off.messageType path = .error e ∧ on.messageType path = .error e := by
  intro off on
  have hon : on = off.asking true :=
    ofCalls_asking true { camelCase, populateDefaults := false } calls
  -- Not to ask for defaults changes nothing where none are asked for, and shows that none are.
  have hoff : off.asking false = off :=
    (ofCalls_asking false { camelCase, populateDefaults := false } calls).symm
  rw [hon]
  refine ⟨fun call => (outcome_asking true call off).symm, ?_, fun path => ?_⟩
  · show Option.Rel _ off.snapshot (off.snapshot.map (Snapshot.asking true))
    have hsnapshot : off.snapshot.map (Snapshot.asking false) = off.snapshot :=
      congrArg Registry.snapshot hoff
    cases hS : off.snapshot with
    | none => exact .none
    | some S =>
      rw [hS, Option.map_some, Option.some_inj] at hsnapshot
      have hsettings := congrArg (fun S => S.graph.settings.populateDefaults) hsnapshot
      exact .some fun n => MessageType.servesAlike_asking hsettings.symm
  · have htype : MessageType.asking false <$> off.messageType path = off.messageType path := by
      rw [← messageType_asking, hoff]
    rw [messageType_asking]
    cases ht : off.messageType path with
    | error e => exact .inr ⟨e, rfl, rfl⟩
    | ok t =>
      rw [ht] at htype
      have hsettings := congrArg (fun t : MessageType => t.graph.settings.populateDefaults)
        (Except.ok.inj htype)
      exact .inl ⟨t, t.asking true, rfl, rfl, MessageType.servesAlike_asking hsettings.symm⟩

end Registry

end Protobuf

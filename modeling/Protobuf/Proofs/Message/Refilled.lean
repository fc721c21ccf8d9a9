import Mathlib
import Protobuf.Proofs.Message.Defaults
import Protobuf.Proofs.Registry.Asking

/-!
# Messages that are filled up later

A message that is read where defaults are asked for is filled up when its last record has been taken
in, and so is every message inside of it before that. Nothing that happens to a message while it is
being read depends on what is filled in. So it can be read where no defaults are asked for, and all
messages in it can be filled up afterwards: the outcome is the same. It does not go the other way,
since a default that has been filled in cannot be told from one that was there.

## Main definitions

* `Value.refill`, `Message.refill`, `MapValue.refill` — the same where defaults are asked for, or
  not.
* `Message.carry` — the message there, before it is filled up itself.

## Main results

* `Change.carry_foldl` — a message is changed alike
* `Decoding.message_asking` — a message is read alike, and its required fields are missed alike
-/

namespace Protobuf

section Refill

variable (b : Bool)

mutual

/-- The value among definitions where defaults are asked for, or not. The messages in it are filled
up as the settings say there. -/
def Value.refill : Value → Value
  | .atom a => .atom a
  | .message ⟨type, entries⟩ =>
    .message (Message.populate ⟨type.asking b, Value.refillFields entries⟩)
  | .list items => .list (Value.refillItems items)
  | .map ⟨keyType, valueType, owner, entries⟩ =>
    .map ⟨keyType, valueType, owner.map (Snapshot.asking b), Value.refillEntries entries⟩

/-- The elements of a list there. -/
def Value.refillItems : List Value → List Value
  | [] => []
  | v :: more => v.refill :: Value.refillItems more

/-- The entries of a map there. -/
def Value.refillEntries : List (Atom × Value) → List (Atom × Value)
  | [] => []
  | (key, v) :: more => (key, v.refill) :: Value.refillEntries more

/-- The fields of a message there. -/
def Value.refillFields : List (NodeId × Value) → List (NodeId × Value)
  | [] => []
  | (f, v) :: more => (f, v.refill) :: Value.refillFields more

end

namespace Message

/-- The message there, before it is filled up: the messages inside of it have been. -/
def carry (m : Message) : Message :=
  ⟨m.type.asking b, Value.refillFields b m.entries⟩

/-- The message there. -/
def refill (m : Message) : Message :=
  (m.carry b).populate

end Message

/-- The map there. -/
def MapValue.refill (m : MapValue) : MapValue :=
  ⟨m.keyType, m.valueType, m.owner.map (Snapshot.asking b), Value.refillEntries b m.entries⟩

end Refill

variable {b : Bool}

namespace Value

theorem refill_atom (a : Atom) : (Value.atom a).refill b = .atom a := by
  rw [refill]

theorem refill_message (m : Message) : (Value.message m).refill b = .message (m.refill b) := by
  cases m
  rw [refill]
  rfl

theorem refillItems_eq (items : List Value) : refillItems b items = items.map (refill b) := by
  induction items with
  | nil => rw [refillItems, List.map_nil]
  | cons v more ih => rw [refillItems, List.map_cons, ih]

theorem refillEntries_eq (entries : List (Atom × Value)) :
    refillEntries b entries = entries.map (Prod.map id (refill b)) := by
  induction entries with
  | nil => rw [refillEntries, List.map_nil]
  | cons e more ih => rw [refillEntries, List.map_cons, ih]; rfl

theorem refillFields_eq (entries : List (NodeId × Value)) :
    refillFields b entries = entries.map (Prod.map id (refill b)) := by
  induction entries with
  | nil => rw [refillFields, List.map_nil]
  | cons e more ih => rw [refillFields, List.map_cons, ih]; rfl

theorem refill_list (items : List Value) :
    (Value.list items).refill b = .list (items.map (refill b)) := by
  rw [refill, refillItems_eq]

theorem refill_map (m : MapValue) : (Value.map m).refill b = .map (m.refill b) := by
  cases m
  rw [refill]
  rfl

theorem list?_refill (v : Value) : (v.refill b).list? = v.list?.map (List.map (refill b)) := by
  cases v with
  | atom a => rw [refill]; rfl
  | message m => rw [refill_message]; rfl
  | list items => rw [refill_list]; rfl
  | map m => rw [refill_map]; rfl

end Value

theorem MapValue.insert_refill (m : MapValue) (key : Atom) (v : Value) :
    MapValue.refill b (MapValue.insert m key v) =
      MapValue.insert (MapValue.refill b m) key (v.refill b) := by
  let text (e : Atom × Value) : String := e.1.keyText
  have htext : ∀ e, text (Prod.map id (Value.refill b) e) = text e := fun _ => rfl
  simp only [refill, insert, Value.refillEntries_eq]
  exact congrArg (MapOf.mk _ _ _) (Keyed.insert_map text htext (key, v) m.entries).symm

namespace Message

variable (m : Message) (f : NodeId) (v : Value)

theorem fst_refill (e : NodeId × Value) : (Prod.map id (Value.refill b) e).1 = e.1 :=
  rfl

theorem value?_carry : (m.carry b).value? f = (m.value? f).map (Value.refill b) := by
  simp only [value?, carry, Value.refillFields_eq, Keyed.find?_map Prod.fst fst_refill,
    Option.map_map]
  rfl

theorem insert_carry : (m.insert f v).carry b = (m.carry b).insert f (v.refill b) := by
  simp only [carry, insert, Value.refillFields_eq]
  exact congrArg (MessageOf.mk _) (Keyed.insert_map Prod.fst fst_refill (f, v) m.entries).symm

theorem erase_carry : (m.erase f).carry b = (m.carry b).erase f := by
  simp only [carry, erase, Keyed.erase, Value.refillFields_eq, List.filter_map]
  rfl

theorem foldl_erase_carry (fields : List NodeId) :
    (fields.foldl erase m).carry b = fields.foldl erase (m.carry b) :=
  (List.foldl_hom (carry b) fun m f => (m.erase_carry f).symm).symm

theorem put_carry : (m.put f v).carry b = (m.carry b).put f (v.refill b) := by
  rw [put, put, insert_carry, foldl_erase_carry]
  rfl

theorem append_carry (items : List Value) :
    (m.append f items).carry b = (m.carry b).append f (items.map (Value.refill b)) := by
  rw [append, append, List.isEmpty_map]
  split
  · rfl
  · rw [insert_carry, Value.refill_list, value?_carry, List.map_append]
    cases m.value? f with
    | none => rfl
    | some v =>
      rw [Option.map_some, Option.bind_some, Option.bind_some, Value.list?_refill]
      cases v.list? <;> rfl

theorem putEntry_carry (s : Slot) (keyType : Scalar) (key : Atom) :
    (m.putEntry f s keyType key v).carry b =
      (m.carry b).putEntry f s keyType key (v.refill b) := by
  rw [putEntry, putEntry, value?_carry]
  cases m.value? f with
  | none => rw [insert_carry, Value.refill_map, MapValue.insert_refill]; rfl
  | some w =>
    rw [Option.map_some]
    cases w with
    | map entries => rw [insert_carry, Value.refill_map, Value.refill_map, MapValue.insert_refill]
    | atom a => rw [Value.refill]
    | list items => rw [Value.refill_list]
    | message n => rw [Value.refill_message]

/-- Required fields are missed before anything is filled in. -/
theorem missingFields_carry : (m.carry b).missingFields = m.missingFields := by
  have hfqn : ∀ n, (m.carry b).graph.fqn n = m.graph.fqn n := fun n => m.graph.fqn_asking b n
  simp only [missingFields, value?_carry, Option.isNone_map]
  exact List.map_congr_left fun n _ => hfqn n

/-- A message that was made where no defaults are asked for is filled up as if it were new. -/
theorem refill_new {t : MessageType} (hoff : t.graph.settings.populateDefaults = false) :
    (Message.new t).refill b = Message.new (t.asking b) := by
  have hempty : Message.new t = Message.empty t := Change.populate_foldl hoff []
  rw [hempty, refill, carry]
  rfl

end Message

/-! ### Changes -/

/-- The change there. -/
def Change.refill (b : Bool) : Change → Change
  | keep => keep
  | put f v => put f (v.refill b)
  | append f items => append f (items.map (Value.refill b))
  | putEntry f s keyType key v => putEntry f s keyType key (v.refill b)

namespace Change

/-- A change does to the message there what it does to the message. -/
theorem carry_apply (m : Message) (c : Change) :
    (c.apply m).carry b = (c.refill b).apply (m.carry b) := by
  cases c with
  | keep => rfl
  | put f v => exact m.put_carry f v
  | append f items => exact m.append_carry f items
  | putEntry f s keyType key v => exact m.putEntry_carry f v s keyType key

theorem carry_foldl (m : Message) (cs : List Change) :
    (cs.foldl apply m).carry b = (cs.map (refill b)).foldl apply (m.carry b) := by
  rw [List.foldl_map]
  exact (List.foldl_hom (Message.carry b) fun m c => (carry_apply m c).symm).symm

end Change

/-! ### Reading -/

namespace Decoding

theorem slot_asking (g : Graph) (f : NodeId) : slot (g.asking b) f = slot g f := by
  rw [slot, slot, g.slot?_asking, g.fieldLabel_asking]

theorem known_asking (t : MessageType) : known (t.asking b) = known t := by
  funext id
  have hslot : ∀ f, slot (t.asking b).graph f = slot t.graph f := slot_asking t.graph
  simp only [known, hslot]
  rfl

/-- Single values that share a key are atoms. -/
theorem packed_refill (s : Slot) (content : List UInt8) :
    List.map (Value.refill b) <$> packed s content = packed s content := by
  have hatoms : Yields (packed s content) fun items => items.map (Value.refill b) = id items := by
    rw [packed]
    split
    · refine (Yields.mapM fun p _ => (Yields.trivial.mono fun a _ => ?_).map).mono
        fun items (h : ∀ v ∈ items, v.refill b = v) => ?_
      · exact Value.refill_atom a
      · rw [List.map_congr_left h, List.map_id']
        rfl
    · exact Yields.throw _
  rw [Yields.map_congr hatoms, id_map]

theorem absentHalf_asking {t : MessageType} (hoff : t.graph.settings.populateDefaults = false)
    (type : FieldType) : absentHalf (t.asking b) type = (absentHalf t type).refill b := by
  have hnew : ∀ node, Value.message (Message.new ((t.asking b).sibling node)) =
      (Value.message (Message.new (t.sibling node))).refill b := fun node => by
    rw [Value.refill_message, Message.refill_new (t := t.sibling node) hoff]
    rfl
  cases type with
  | scalar s => rw [absentHalf, absentHalf, Value.refill]
  | enumeration e => rw [absentHalf, absentHalf, Value.refill]; rfl
  | message node => exact hnew node
  | group node => exact hnew node

section

variable {inner inner' : Inner} {levels : Nat} {t : MessageType}
  (hinner : ∀ node stream, inner' ((t.asking b).sibling node) stream =
    Message.refill b <$> inner (t.sibling node) stream)

include hinner

theorem value_asking (s : Slot) (p : Wire.Payload) :
    value inner' (t.asking b) s p = Value.refill b <$> value inner t s p := by
  have hmessage : ∀ node stream, Value.message <$> inner' ((t.asking b).sibling node) stream =
      Value.refill b <$> Value.message <$> inner (t.sibling node) stream := by
    intro node stream
    simp only [hinner, Functor.map_map, Value.refill_message]
  simp only [value]
  split
  · exact hmessage _ _
  · exact hmessage _ _
  · simp only [Functor.map_map, Value.refill_atom]

theorem finish_asking {known : UInt32 → Decoding (Option Slot)} {closed : UInt32 → Decoding Unit}
    (ending : Wire.Ending) :
    finish inner' levels (t.asking b) known closed ending =
      finish inner levels t known closed ending := by
  cases ending with
  | openGroup id records ending =>
    have hdiscard : ∀ node stream, discard (inner' ((t.asking b).sibling node) stream) =
        discard (inner (t.sibling node) stream) := by
      intro node stream
      simp only [hinner, discard, Functor.discard, map_const, Function.comp_apply, Functor.map_map]
    simp only [finish, hdiscard]
  | _ => rfl

theorem half_asking (s : Slot) (key : Scalar) (read : Option Atom × Option Value)
    (r : Wire.Record) :
    half inner' levels (t.asking b) s key (Prod.map id (Option.map (Value.refill b)) read) r =
      Prod.map id (Option.map (Value.refill b)) <$> half inner levels t s key read r := by
  obtain ⟨n, p⟩ := r
  simp only [half, value_asking hinner]
  split
  · simp only [map_bind, map_pure]
    rfl
  · split
    · simp only [map_bind, map_pure, bind_map_left]
      rfl
    · simp only [map_bind, map_pure]

theorem entry_asking (hoff : t.graph.settings.populateDefaults = false) (s : Slot) (key : Scalar)
    (content : List UInt8) :
    entry inner' levels (t.asking b) s key content =
      Prod.map id (Value.refill b) <$> entry inner levels t s key content := by
  have hhalf : ∀ read r, half inner' levels (t.asking b) s key
      (Prod.map id (Option.map (Value.refill b)) read) r =
        Prod.map id (Option.map (Value.refill b)) <$> half inner levels t s key read r :=
    half_asking hinner s key
  have hread := foldlM_of_map hhalf (Wire.Stream.ofBytes content).records (none, none)
  rw [Prod.map_apply, Option.map_none, id] at hread
  have habsent : ∀ v : Option Value, (v.map (Value.refill b)).getD
      (absentHalf (t.asking b) s.type) = (v.getD (absentHalf t s.type)).refill b := by
    intro v
    rw [absentHalf_asking hoff, Option.getD_map]
  simp only [entry, hread, finish_asking hinner, bind_map_left, map_bind, map_pure, Prod.map_fst,
    Prod.map_snd, habsent]
  rfl

variable (hoff : t.graph.settings.populateDefaults = false)

include hoff

theorem shapedChange_asking (f : NodeId) (s : Slot) (shape : Shape) (p : Wire.Payload) :
    shapedChange inner' levels (t.asking b) f s shape p =
      Change.refill b <$> shapedChange inner levels t f s shape p := by
  have hvalue := value_asking hinner s
  cases shape with
  | single =>
    simp only [shapedChange, hvalue, bind_map_left, map_bind, map_pure, Change.refill]
  | list =>
    cases p with
    | bytes content =>
      simp only [shapedChange]
      split
      · -- Values that share a key are atoms, so they are the same already.
        simp only [map_bind, map_pure, Change.refill]
        rw [← bind_map_left (List.map (Value.refill b)) (packed s content) fun items =>
          (Pure.pure (Change.append f items) : Decoding Change), packed_refill]
      · simp only [hvalue, bind_map_left, map_bind, map_pure, Change.refill, List.map_cons,
          List.map_nil]
    | _ =>
      simp only [shapedChange, hvalue, bind_map_left, map_bind, map_pure, Change.refill,
        List.map_cons, List.map_nil]
  | map key =>
    cases p with
    | bytes content =>
      simp only [shapedChange, entry_asking hinner hoff, bind_map_left, map_bind, map_pure]
      rfl
    | _ => rfl

theorem change_asking (r : Wire.Record) :
    change inner' levels (t.asking b) r = Change.refill b <$> change inner levels t r := by
  obtain ⟨n, p⟩ := r
  have hslot : ∀ f, slot (t.asking b).graph f = slot t.graph f := slot_asking t.graph
  have hfield : (t.asking b).fieldById? n = t.fieldById? n := rfl
  simp only [change, hfield]
  cases t.fieldById? n with
  | some f =>
    simp only [hslot, fieldChange, shapedChange_asking hinner hoff, map_bind]
  | none => simp only [map_bind, map_pure, Change.refill]

theorem messageWith_asking (stream : Wire.Stream) :
    messageWith inner' levels (t.asking b) stream =
      Message.refill b <$> messageWith inner levels t stream := by
  have hchange : ∀ r, change inner' levels (t.asking b) r =
      Change.refill b <$> change inner levels t r := change_asking hinner hoff
  have hempty : Message.empty (t.asking b) = (Message.empty t).carry b := rfl
  -- Both readers make their changes before anything is filled in, so these are compared first.
  rw [messageWith_eq, messageWith_eq, mapM_of_map hchange, bind_map_left, map_bind]
  congr 1
  funext cs
  rw [hempty, ← Change.carry_foldl]
  simp only [conclude, finish_asking hinner, known_asking, Message.missingFields_carry, map_bind,
    map_pure, Change.populate_foldl hoff]
  rfl

end

/-- Reading where defaults are asked for gives what is read without them, filled up afterwards. What
is refused, and which required fields are missed, is the same. -/
theorem message_asking (levels : Nat) {t : MessageType}
    (hoff : t.graph.settings.populateDefaults = false) (stream : Wire.Stream) :
    message levels (t.asking b) stream = Message.refill b <$> message levels t stream := by
  induction levels generalizing t stream with
  | zero => exact messageWith_asking (fun _ _ => rfl) hoff stream
  | succ levels ih =>
    exact messageWith_asking (fun node _ => ih (t := t.sibling node) hoff _) hoff stream

end Decoding

end Protobuf

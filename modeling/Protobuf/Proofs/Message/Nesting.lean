import Protobuf.Message.Basic

/-!
# Messages inside of messages

Messages nest, directly and in lists and maps. What is said of a message at every level is said of
the messages in it, which are listed here with the message itself in front.

## Main definitions

* `Message.messages` — the messages in a message, itself included.
* `Message.depth` — how many levels of messages lie below a message.
* `Message.absentRequired`, `Message.missingExtensions` — required fields that are absent.
-/

namespace Protobuf

/-! ### Levels -/

mutual

/-- How many levels of messages there are in a value. -/
def Value.levels : Value → Nat
  | .atom _ => 0
  | .message ⟨_, entries⟩ => Value.levelsOfFields entries + 1
  | .list items => Value.levelsOfItems items
  | .map ⟨_, _, _, entries⟩ => Value.levelsOfEntries entries

/-- How many levels of messages there are in the elements of a list. -/
def Value.levelsOfItems : List Value → Nat
  | [] => 0
  | v :: more => max v.levels (Value.levelsOfItems more)

/-- How many levels of messages there are in the values of a map. -/
def Value.levelsOfEntries : List (Atom × Value) → Nat
  | [] => 0
  | (_, v) :: more => max v.levels (Value.levelsOfEntries more)

/-- How many levels of messages there are in the fields of a message. -/
def Value.levelsOfFields : List (NodeId × Value) → Nat
  | [] => 0
  | (_, v) :: more => max v.levels (Value.levelsOfFields more)

end

mutual

/-- The messages in a value. -/
def Value.messages : Value → List Message
  | .atom _ => []
  | .message ⟨type, entries⟩ => ⟨type, entries⟩ :: Value.messagesOfFields entries
  | .list items => Value.messagesOfItems items
  | .map ⟨_, _, _, entries⟩ => Value.messagesOfEntries entries

/-- The messages in the elements of a list. -/
def Value.messagesOfItems : List Value → List Message
  | [] => []
  | v :: more => v.messages ++ Value.messagesOfItems more

/-- The messages in the values of a map. -/
def Value.messagesOfEntries : List (Atom × Value) → List Message
  | [] => []
  | (_, v) :: more => v.messages ++ Value.messagesOfEntries more

/-- The messages in the fields of a message. -/
def Value.messagesOfFields : List (NodeId × Value) → List Message
  | [] => []
  | (_, v) :: more => v.messages ++ Value.messagesOfFields more

end

namespace Message

variable (m : Message)

/-- How many levels of messages lie below a message. -/
def depth : Nat :=
  Value.levelsOfFields m.entries

/-- The messages in a message, itself first. -/
def messages : List Message :=
  m :: Value.messagesOfFields m.entries

theorem levels_message : (Value.message m).levels = m.depth + 1 := by
  cases m
  rw [Value.levels]
  rfl

theorem messages_message : (Value.message m).messages = m.messages := by
  cases m
  rw [Value.messages]
  rfl

end Message

theorem Value.levelsOfItems_le_iff {items : List Value} {n : Nat} :
    Value.levelsOfItems items ≤ n ↔ ∀ v ∈ items, v.levels ≤ n := by
  induction items with
  | nil => simp [Value.levelsOfItems]
  | cons v more ih => rw [Value.levelsOfItems, Nat.max_le, ih, List.forall_mem_cons]

theorem Value.levelsOfEntries_le_iff {entries : List (Atom × Value)} {n : Nat} :
    Value.levelsOfEntries entries ≤ n ↔ ∀ e ∈ entries, e.2.levels ≤ n := by
  induction entries with
  | nil => simp [Value.levelsOfEntries]
  | cons e more ih => rw [Value.levelsOfEntries, Nat.max_le, ih, List.forall_mem_cons]

theorem Value.levelsOfFields_le_iff {entries : List (NodeId × Value)} {n : Nat} :
    Value.levelsOfFields entries ≤ n ↔ ∀ e ∈ entries, e.2.levels ≤ n := by
  induction entries with
  | nil => simp [Value.levelsOfFields]
  | cons e more ih => rw [Value.levelsOfFields, Nat.max_le, ih, List.forall_mem_cons]

theorem Value.messagesOfItems_eq (items : List Value) :
    Value.messagesOfItems items = items.flatMap Value.messages := by
  induction items with
  | nil => rw [Value.messagesOfItems, List.flatMap_nil]
  | cons v more ih => rw [Value.messagesOfItems, List.flatMap_cons, ih]

theorem Value.messagesOfEntries_eq (entries : List (Atom × Value)) :
    Value.messagesOfEntries entries = entries.flatMap fun e => e.2.messages := by
  induction entries with
  | nil => rw [Value.messagesOfEntries, List.flatMap_nil]
  | cons e more ih => rw [Value.messagesOfEntries, List.flatMap_cons, ih]

theorem Value.messagesOfFields_eq (entries : List (NodeId × Value)) :
    Value.messagesOfFields entries = entries.flatMap fun e => e.2.messages := by
  induction entries with
  | nil => rw [Value.messagesOfFields, List.flatMap_nil]
  | cons e more ih => rw [Value.messagesOfFields, List.flatMap_cons, ih]

/-! ### Required fields -/

namespace Message

variable (m : Message)

/-- The paths of those of the given fields that are required but absent. -/
def absentRequired (fields : List NodeId) : List String :=
  let isMissing (field : NodeId) : Bool :=
    ((m.graph.field? field).any fun f => f.rule = .required) && (m.value? field).isNone
  (fields.filter isMissing).map m.graph.fqn

/-- The paths of the extensions that are required but absent. -/
def missingExtensions : List String :=
  m.absentRequired (m.graph.extensionsOf m.type.node)

/-- The paths of all fields, own or extensions, that are required but absent. -/
def allMissing : List String :=
  m.missingFields ++ m.missingExtensions

theorem missingFields_eq : m.missingFields = m.absentRequired (m.graph.ownFields m.type.node) :=
  rfl

theorem absentRequired_append (fields fields' : List NodeId) :
    m.absentRequired (fields ++ fields') = m.absentRequired fields ++ m.absentRequired fields' := by
  simp only [absentRequired, List.filter_append, List.map_append]

end Message

end Protobuf

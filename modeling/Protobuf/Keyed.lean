/-!
# Lists ordered by a key

Options, the fields of a message and the entries of a map are all kept as lists whose items have a
key: the list ascends by the key, and no two items have the same one. So equal contents are equal
lists, whatever the order in which they were put in.

## Main definitions

* `Keyed.insert`, `Keyed.find?`, `Keyed.erase` — what is done to such lists.

A function that keeps the keys of the items may be applied before or after.
-/

namespace Protobuf.Keyed

variable {α κ : Type} [LT κ] [DecidableEq κ] [DecidableLT κ] (key : α → κ)

/-- Puts an item into its place; an item of the same key gives way. -/
def insert (x : α) : List α → List α
  | [] => [x]
  | y :: more =>
    if key x = key y then x :: more
    else if key x < key y then x :: y :: more
    else y :: insert x more

theorem insert_map {β : Type} {key' : β → κ} {g : α → β} (h : ∀ x, key' (g x) = key x) (x : α)
    (items : List α) : insert key' (g x) (items.map g) = (insert key x items).map g := by
  induction items with
  | nil => rfl
  | cons y more ih =>
    simp only [insert, List.map_cons, h]
    split
    · rfl
    · split
      · rfl
      · rw [ih, List.map_cons]

omit [LT κ] [DecidableLT κ]

/-- The item that has a key. -/
def find? (k : κ) (items : List α) : Option α :=
  items.find? fun x => key x = k

theorem find?_map {β : Type} {key' : β → κ} {g : α → β} (h : ∀ x, key' (g x) = key x) (k : κ)
    (items : List α) : find? key' k (items.map g) = (find? key k items).map g := by
  simp only [find?, List.find?_map, Function.comp_def, h]

/-- The items without the one that has a key. -/
def erase (k : κ) (items : List α) : List α :=
  items.filter fun x => key x ≠ k

end Protobuf.Keyed

import Mathlib.Data.String.Basic
import Protobuf.Keyed

/-!
# Laws of lists ordered by a key

A list ordered by a key is a finite map. The laws come in two groups: how looking up sees the
operations, which holds for any list, and what the order adds, namely that a list is determined by
what can be looked up in it.

## Main definitions

* `Keyed.Ascending` — the keys of a list ascend, so that none occurs twice.
* `Keyed.insertAll` — a list with the items of another one put in.

## Main results

* `Keyed.find?_insert`, `Keyed.find?_erase` — looking up after a change
* `Keyed.Ascending.insert`, `Keyed.Ascending.erase` — changes keep the order
* `Keyed.Ascending.ext` — equal look-ups make equal lists
* `Keyed.insert_eq_append` — an item beyond all others is put at the end
* `Keyed.find?_insertAll` — looking up after many items have been put in
-/

namespace Protobuf.Keyed

variable {α κ : Type} {key : α → κ}

/-- The keys of a list ascend. -/
def Ascending [LT κ] (key : α → κ) (items : List α) : Prop :=
  items.Pairwise fun x y => key x < key y

theorem ascending_nil [LT κ] : Ascending key [] :=
  List.Pairwise.nil

theorem ascending_iff [LT κ] {items : List α} :
    Ascending key items ↔ (items.map key).Pairwise (· < ·) := by
  rw [Ascending, List.pairwise_map]

theorem Ascending.map [LT κ] {β : Type} {key' : β → κ} {f : α → β} (hf : ∀ x, key' (f x) = key x)
    {items : List α} (h : Ascending key items) : Ascending key' (items.map f) :=
  List.Pairwise.map f (fun x y hxy => by rwa [hf, hf]) h

variable [DecidableEq κ]

theorem Ascending.erase [LT κ] {items : List α} (h : Ascending key items) (k : κ) :
    Ascending key (erase key k items) :=
  List.Pairwise.filter _ h

/-! ### Looking up -/

theorem key_of_find? {k : κ} {items : List α} {x : α} (h : find? key k items = some x) :
    key x = k := by
  simpa using List.find?_some h

theorem mem_of_find? {k : κ} {items : List α} {x : α} (h : find? key k items = some x) :
    x ∈ items :=
  List.mem_of_find?_eq_some h

theorem find?_eq_none_iff {k : κ} {items : List α} :
    find? key k items = none ↔ ∀ x ∈ items, key x ≠ k := by
  simp [find?]

@[simp] theorem find?_nil (k : κ) : find? key k [] = none :=
  rfl

theorem find?_cons (k : κ) (x : α) (items : List α) :
    find? key k (x :: items) = if key x = k then some x else find? key k items := by
  by_cases h : key x = k <;> simp [find?, h]

theorem find?_erase (k l : κ) (items : List α) :
    find? key k (erase key l items) = if k = l then none else find? key k items := by
  induction items with
  | nil => simp [erase]
  | cons y more ih =>
    rw [erase] at ih ⊢
    by_cases hy : key y = l
    · rw [List.filter_cons_of_neg (by simpa using hy), ih, find?_cons]
      by_cases hk : k = l
      · simp [hk]
      · rw [if_neg hk, if_neg hk, if_neg (hy.trans_ne (Ne.symm hk))]
    · rw [List.filter_cons_of_pos (by simpa using hy), find?_cons, find?_cons, ih]
      by_cases hk : k = l
      · subst hk
        rw [if_neg hy, if_pos rfl, if_pos rfl]
      · rw [if_neg hk, if_neg hk]

/-- Erasing what is not there changes nothing. -/
theorem erase_of_find?_eq_none {k : κ} {items : List α} (h : find? key k items = none) :
    erase key k items = items := by
  refine List.filter_eq_self.mpr fun x hx => ?_
  simpa using find?_eq_none_iff.mp h x hx

theorem mem_of_mem_erase {k : κ} {items : List α} {x : α} (h : x ∈ erase key k items) :
    x ∈ items :=
  List.mem_of_mem_filter h

variable [LT κ] [DecidableLT κ]

theorem find?_insert (k : κ) (x : α) (items : List α) :
    find? key k (insert key x items) = if key x = k then some x else find? key k items := by
  induction items with
  | nil => rw [insert, find?_cons]
  | cons y more ih =>
    rw [insert]
    split
    · rename_i hxy
      rw [find?_cons, find?_cons, ← hxy]
      split <;> rfl
    · split
      · rw [find?_cons]
      · rename_i hne _
        rw [find?_cons, find?_cons, ih]
        by_cases hy : key y = k
        · rw [if_pos hy, if_pos hy, if_neg (by rw [← hy]; exact hne)]
        · rw [if_neg hy, if_neg hy]

/-- Of two items of the same key the second one stays. -/
theorem insert_insert {x y : α} (h : key x = key y) (items : List α) :
    insert key y (insert key x items) = insert key y items := by
  induction items with
  | nil => rw [insert, insert, insert, if_pos h.symm]
  | cons z more ih =>
    simp only [insert]
    by_cases hxz : key x = key z
    · rw [if_pos hxz, insert, if_pos h.symm, if_pos (h.symm.trans hxz)]
    · by_cases hlt : key x < key z
      · rw [if_neg hxz, if_pos hlt, insert, if_pos h.symm, if_neg (h ▸ hxz), if_pos (h ▸ hlt)]
      · rw [if_neg hxz, if_neg hlt, insert, if_neg (h ▸ hxz), if_neg (h ▸ hlt), if_neg (h ▸ hxz),
          if_neg (h ▸ hlt), ih]

theorem mem_insert {x y : α} {items : List α} (h : y ∈ insert key x items) : y = x ∨ y ∈ items := by
  induction items with
  | nil => simpa [insert] using h
  | cons z more ih =>
    rw [insert] at h
    split at h
    · rcases List.mem_cons.mp h with rfl | h
      · exact .inl rfl
      · exact .inr (List.mem_cons_of_mem _ h)
    · split at h
      · exact List.mem_cons.mp h
      · rcases List.mem_cons.mp h with rfl | h
        · exact .inr List.mem_cons_self
        · exact (ih h).imp_right (List.mem_cons_of_mem _)

/-- What holds of an element and of all those in a list holds of all of them once it is put there. -/
theorem forall_mem_insert {P : α → Prop} {x : α} {items : List α} (hx : P x)
    (h : ∀ y ∈ items, P y) : ∀ y ∈ insert key x items, P y := by
  intro y hy
  rcases mem_insert hy with rfl | hy
  · exact hx
  · exact h y hy

/-- A list with the items of another one put in one after the other. -/
def insertAll (key : α → κ) (later items : List α) : List α :=
  later.foldl (fun items x => insert key x items) items

/-! ### Order -/

section Order

variable [IsStrictTotalOrder κ (· < ·)]

theorem Ascending.insert {items : List α} (h : Ascending key items) (x : α) :
    Ascending key (insert key x items) := by
  induction items with
  | nil => exact List.pairwise_singleton _ _
  | cons y more ih =>
    obtain ⟨hy, hmore⟩ := List.pairwise_cons.mp h
    rw [Keyed.insert]
    split
    · rename_i hxy
      exact List.pairwise_cons.mpr ⟨fun z hz => by rw [hxy]; exact hy z hz, hmore⟩
    · split
      · rename_i hlt
        refine List.pairwise_cons.mpr ⟨fun z hz => ?_, h⟩
        rcases List.mem_cons.mp hz with rfl | hz
        · exact hlt
        · exact trans_of (· < ·) hlt (hy z hz)
      · rename_i hne hnlt
        refine List.pairwise_cons.mpr ⟨fun z hz => ?_, ih hmore⟩
        rcases mem_insert hz with rfl | hz
        · rcases trichotomous_of (· < ·) (key y) (key z) with hlt | heq | hgt
          · exact hlt
          · exact absurd heq.symm hne
          · exact absurd hgt hnlt
        · exact hy z hz

/-- An item whose key lies beyond all others is put at the end. -/
theorem insert_eq_append {x : α} {items : List α} (h : ∀ y ∈ items, key y < key x) :
    insert key x items = items ++ [x] := by
  induction items with
  | nil => rfl
  | cons y more ih =>
    have hlt := h y List.mem_cons_self
    rw [insert, if_neg, if_neg (asymm_of (· < ·) hlt),
      ih fun z hz => h z (List.mem_cons_of_mem _ hz), List.cons_append]
    intro heq
    exact irrefl _ (heq ▸ hlt)

omit [DecidableLT κ]

/-- An item is what its own key leads to. -/
theorem Ascending.find?_of_mem {items : List α} (h : Ascending key items) {x : α}
    (hx : x ∈ items) : find? key (key x) items = some x := by
  induction items with
  | nil => simp at hx
  | cons y more ih =>
    obtain ⟨hy, hmore⟩ := List.pairwise_cons.mp h
    rw [find?_cons]
    rcases List.mem_cons.mp hx with rfl | hx
    · rw [if_pos rfl]
    · rw [if_neg, ih hmore hx]
      intro heq
      have hlt := hy x hx
      rw [heq] at hlt
      exact irrefl _ hlt

/-- Among some of the items a key leads to the same item as before, or to none. -/
theorem Ascending.find?_filter {items : List α} (h : Ascending key items) (p : α → Bool) (k : κ) :
    find? key k (items.filter p) = (find? key k items).filter p := by
  induction items with
  | nil => rfl
  | cons y more ih =>
    obtain ⟨hy, hmore⟩ := List.pairwise_cons.mp h
    have hnone : key y = k → find? key k (more.filter p) = none := by
      intro heq
      refine find?_eq_none_iff.mpr fun x hx hxk => ?_
      have hlt := hy x (List.mem_of_mem_filter hx)
      rw [heq, hxk] at hlt
      exact irrefl _ hlt
    by_cases hp : p y
    · rw [List.filter_cons_of_pos hp, find?_cons, find?_cons]
      split
      · rw [Option.filter_some, if_pos hp]
      · exact ih hmore
    · rw [List.filter_cons_of_neg hp, find?_cons]
      split
      · rename_i heq
        rw [hnone heq, Option.filter_some, if_neg hp]
      · exact ih hmore

omit [DecidableEq κ] in
theorem Ascending.nodup {items : List α} (h : Ascending key items) : items.Nodup := by
  refine List.Pairwise.imp (fun {x y} hlt heq => ?_) h
  rw [heq] at hlt
  exact irrefl _ hlt

/-- Lists in which the same can be looked up are equal. -/
theorem Ascending.ext {xs ys : List α} (hx : Ascending key xs) (hy : Ascending key ys)
    (h : ∀ k, find? key k xs = find? key k ys) : xs = ys := by
  have hmem : ∀ z, z ∈ xs ↔ z ∈ ys := by
    intro z
    constructor
    · intro hz
      exact mem_of_find? ((h _).symm.trans (hx.find?_of_mem hz))
    · intro hz
      exact mem_of_find? ((h _).trans (hy.find?_of_mem hz))
  have hperm : xs.Perm ys := (List.perm_ext_iff_of_nodup hx.nodup hy.nodup).mpr hmem
  exact hperm.eq_of_pairwise (fun a b _ _ hab hba => absurd hba (asymm_of (· < ·) hab)) hx hy

end Order

/-! ### Many items -/

section InsertAll

variable [IsStrictTotalOrder κ (· < ·)] {items later : List α}

/-- Items of different keys are put in in any order. -/
theorem insert_comm {x y : α} (hne : key x ≠ key y) (h : Ascending key items) :
    insert key y (insert key x items) = insert key x (insert key y items) := by
  refine Ascending.ext ((h.insert x).insert y) ((h.insert y).insert x) fun k => ?_
  rw [find?_insert, find?_insert, find?_insert, find?_insert]
  by_cases hx : key x = k
  · rw [if_pos hx, if_pos hx, if_neg fun hy => hne (hx.trans hy.symm)]
  · rw [if_neg hx, if_neg hx]

theorem Ascending.insertAll (h : Ascending key items) (later : List α) :
    Ascending key (insertAll key later items) := by
  induction later generalizing items with
  | nil => exact h
  | cons x more ih => exact ih (h.insert x)

/-- Looking up finds what was put in, or else what was there. -/
theorem find?_insertAll (h : Ascending key later) (k : κ) (items : List α) :
    find? key k (insertAll key later items) = (find? key k later).or (find? key k items) := by
  induction later generalizing items with
  | nil => rfl
  | cons x more ih =>
    obtain ⟨hx, hmore⟩ := List.pairwise_cons.mp h
    show find? key k (insertAll key more (Keyed.insert key x items)) = _
    rw [ih hmore, find?_insert, find?_cons]
    by_cases heq : key x = k
    · have hnone : find? key k more = none := find?_eq_none_iff.mpr fun y hy hyk => by
        have hlt := hx y hy
        rw [heq, hyk] at hlt
        exact irrefl _ hlt
      rw [hnone, if_pos heq, if_pos heq]
      rfl
    · rw [if_neg heq, if_neg heq]

/-- What is put in last may be put among the others first. -/
theorem insertAll_insert (hlater : Ascending key later) (hitems : Ascending key items) (x : α) :
    insertAll key (insert key x later) items = insert key x (insertAll key later items) := by
  refine Ascending.ext (hitems.insertAll _) ((hitems.insertAll _).insert _) fun k => ?_
  rw [find?_insertAll (hlater.insert x), find?_insert, find?_insert, find?_insertAll hlater]
  split <;> rfl

end InsertAll

end Protobuf.Keyed

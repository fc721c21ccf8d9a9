import Mathlib
import Protobuf.Proofs.Message.Reached

/-!
# Maps are finite maps

A map keeps its entries under the texts of their keys, and its keys are given as values that are
brought into the form of the key type first. To a program it is a finite map from the keys of that
type to values all the same: whatever is done to it, what can be seen of it is what the same calls
would have made of a finite map.

The texts of keys do not get in the way because they tell the keys of one type apart, which would
not be so for floating-point numbers.

## Main definitions

* `Dictionary` — finite maps from keys to values.
* `MapValue.content` — the finite map that the entries of a map describe.
* `MapValue.Call`, `MapValue.run` — what a program does to a map, one call after the other.
* `MapValue.Call.effect` — what a call does to a finite map.
* `MapValue.Refines` — what can be seen of a map is in a finite map.

## Main results

* `Scalar.keyText_inj` — the text of a key tells which key it is
* `MapValue.Tidy.content_call` — a call does to a map what it does to the finite map
* `Value.Reached.map_refines` — so maps are finite maps, whatever is done to them
-/

namespace Protobuf

/-- A finite map from keys to values. -/
abbrev Dictionary := Finmap fun _ : Atom => Value

namespace MapValue

/-- The finite map that the entries describe. -/
def content (m : MapValue) : Dictionary :=
  (m.entries.map fun e => (⟨e.1, e.2⟩ : Σ _ : Atom, Value)).toFinmap

/-- What a program does to a map. -/
inductive Call where
  | set (key v : Value)
  | erase (key : Value)
  | clear

/-- The map after a call. What is refused leaves the map as it was. -/
def call (m : MapValue) : Call → MapValue
  | .set key v => (m.set key v).toOption.getD m
  | .erase key => m.erase key
  | .clear => m.clear

/-- The map after some calls. -/
def run (m : MapValue) (calls : List Call) : MapValue :=
  calls.foldl call m

/-- What a call does to a finite map from the keys of a type to values that fit. -/
def Call.effect (keyType : Scalar) (fit : Value → Except ValueFault Value) (s : Dictionary) :
    Call → Dictionary
  | .set key v =>
    match key.coerce keyType, fit v with
    | .ok k, .ok v => s.insert k v
    | _, _ => s
  | .erase key =>
    match key.coerce keyType with
    | .ok k => s.erase k
    | .error _ => s
  | .clear => ∅

/-- What can be seen of the map is what is in a finite map, and entries ascend by the texts of their
keys. -/
structure Refines (m : MapValue) (s : Dictionary) : Prop where
  typed : ∀ k ∈ s, m.keyType.holds k
  get : ∀ key, m.get? key = (key.coerce m.keyType).toOption.bind s.lookup
  has : ∀ key, m.has key ↔ ∃ k ∈ s, key.coerce m.keyType = .ok k
  size : m.size = s.keys.card
  keys : m.keys.Nodup ∧ m.keys.toFinset = s.keys
  values : m.values.map some = m.keys.map s.lookup
  entries : ∀ k v, (k, v) ∈ m.entries ↔ s.lookup k = some v
  ascending : (m.keys.map Atom.keyText).Pairwise (· < ·)

/-- The two keys lead to the same entry: whatever is done with one of them might be done with the
other. -/
def SameKey (m : MapValue) (key key' : Value) : Prop :=
  m.get? key = m.get? key' ∧ m.erase key = m.erase key' ∧
    ∀ v, m.call (.set key v) = m.call (.set key' v)

/-- The two keys lead to different entries: nothing that is done with the first one shows under the
second one. -/
def OtherKey (m : MapValue) (key key' : Value) : Prop :=
  (m.erase key).get? key' = m.get? key' ∧
    ∀ v, (m.call (.set key v)).get? key' = m.get? key'

end MapValue

/-! ### Keys -/

namespace Atom

/-- An integer is written the same way whatever its width. -/
theorem keyText_of_integer? {a : Atom} {n : Int} (h : a.integer? = some n) :
    a.keyText = toString n := by
  cases a <;> cases h <;> rfl

end Atom

namespace Scalar

variable {s : Scalar} {a b : Atom} {n : Int}

/-- Integers that are equal are the same key. -/
theorem toOption_coerce (hs : s.isMapKey) (ha : a.integer? = some n) (hb : b.integer? = some n) :
    (s.coerce a).toOption = (s.coerce b).toOption := by
  cases s <;> cases hs <;> simp only [coerce, coerceInteger, ha, hb]
  all_goals
    cases a <;> cases ha <;> cases b <;> first | rfl | cases hb

/-- A key stands for the integer that it was made from. -/
theorem integer?_of_coerce (hs : s.isMapKey) (ha : a.integer? = some n) (h : s.coerce a = .ok b) :
    b.integer? = some n := by
  have hmade : ∀ {range : IntRange} {make : Int → Atom},
      s.coerceInteger range make a = .ok b → n ∈ range ∧ make n = b := by
    intro range make hb
    rw [coerceInteger, ha] at hb
    simp only at hb
    split at hb
    · rename_i hn
      exact ⟨hn, Except.ok.inj hb⟩
    · cases hb
  cases s <;> cases hs
  case int32 | sint32 | sfixed32 =>
    obtain ⟨hn, rfl⟩ := hmade h
    exact congrArg some (IntRange.toInt_toInt32 hn)
  case int64 | sint64 | sfixed64 =>
    obtain ⟨hn, rfl⟩ := hmade h
    exact congrArg some (IntRange.toInt_toInt64 hn)
  case uint32 | fixed32 =>
    obtain ⟨hn, rfl⟩ := hmade h
    exact congrArg some (IntRange.toNat_toUInt32 hn)
  case uint64 | fixed64 =>
    obtain ⟨hn, rfl⟩ := hmade h
    exact congrArg some (IntRange.toNat_toUInt64 hn)
  all_goals
    cases a <;> cases ha <;> cases h

/-- The text of a key tells which key of its type it is. -/
theorem keyText_inj (hs : s.isMapKey) (ha : s.holds a) (hb : s.holds b)
    (h : a.keyText = b.keyText) : a = b := by
  have hinteger : ∀ {n n'}, a.integer? = some n → b.integer? = some n' → a = b := by
    intro n n' hn hn'
    rw [Atom.keyText_of_integer? hn, Atom.keyText_of_integer? hn'] at h
    obtain rfl := Int.repr_injective h
    have hcoerce := toOption_coerce hs hn hn'
    rw [coerce_of_holds ha, coerce_of_holds hb] at hcoerce
    exact Option.some.inj hcoerce
  cases s <;> cases hs <;> cases a <;> cases ha <;> cases b <;> cases hb
  any_goals exact hinteger rfl rfl
  · rename_i v w
    cases v <;> cases w <;> first | rfl | exact absurd h (by decide)
  · exact congrArg Atom.string h

end Scalar

/-! ### What is in a map -/

namespace MapValue

variable {m : MapValue}

/-- The key type is one for maps, entries ascend, and keys are of the key type. -/
structure Tidy (m : MapValue) : Prop where
  mapKey : m.keyType.isMapKey
  ascending : Keyed.Ascending (fun e => e.1.keyText) m.entries
  holds : ∀ e ∈ m.entries, m.keyType.holds e.1

/-- The key that a value stands for. -/
def key? (m : MapValue) (key : Value) : Option Atom :=
  (key.coerce m.keyType).toOption

theorem holds_of_key? {key : Value} {k : Atom} (h : m.key? key = some k) : m.keyType.holds k := by
  rw [key?] at h
  cases hcoerce : key.coerce m.keyType with
  | error e =>
    rw [hcoerce] at h
    cases h
  | ok k' =>
    rw [hcoerce] at h
    cases h
    exact Value.holds_of_coerce hcoerce

theorem keyText?_eq (key : Value) : m.keyText? key = (m.key? key).map Atom.keyText := by
  rw [keyText?, key?]
  cases key.coerce m.keyType <;> rfl

theorem content_empty (keyType : Scalar) (t : FieldType) (owner : Option Snapshot) :
    (empty keyType t owner).content = ∅ :=
  rfl

theorem content_clear : m.clear.content = ∅ :=
  rfl

theorem mem_content {k : Atom} : k ∈ m.content ↔ k ∈ m.keys := by
  rw [content, Finmap.mem_list_toFinmap, keys]
  simp

/-- No key is in a map that is not of the key type. -/
theorem lookup_content_of_not_holds (hm : m.Tidy) {k : Atom} (hk : ¬m.keyType.holds k) :
    m.content.lookup k = none := by
  refine Finmap.lookup_eq_none.mpr fun hmem => hk ?_
  obtain ⟨e, he, rfl⟩ := List.mem_map.mp (mem_content.mp hmem)
  exact hm.holds e he

/-- Keys of the key type are looked up by their texts. -/
theorem lookup_content (hm : m.Tidy) {k : Atom} (hk : m.keyType.holds k) :
    m.content.lookup k = (Keyed.find? (fun e => e.1.keyText) k.keyText m.entries).map Prod.snd := by
  rw [content, Finmap.dlookup_list_toFinmap]
  have hholds := hm.holds
  generalize m.entries = entries at hholds ⊢
  induction entries with
  | nil => rfl
  | cons e more ih =>
    have hmore := ih fun e he => hholds e (List.mem_cons_of_mem _ he)
    rw [Keyed.find?_cons, List.map_cons]
    by_cases heq : e.1 = k
    · subst heq
      rw [if_pos rfl, List.dlookup_cons_eq]
      rfl
    · have htext : ¬e.1.keyText = k.keyText := fun h =>
        heq (Scalar.keyText_inj hm.mapKey (hholds e List.mem_cons_self) hk h)
      rw [if_neg htext, List.dlookup_cons_ne _ _ (Ne.symm heq), hmore]

theorem get?_eq (hm : m.Tidy) (key : Value) : m.get? key = (m.key? key).bind m.content.lookup := by
  rw [get?, keyText?_eq]
  cases hkey : m.key? key with
  | none => rfl
  | some k =>
    show _ = m.content.lookup k
    rw [lookup_content hm (holds_of_key? hkey)]
    simp only [Option.map_some, Option.bind_eq_bind, Option.bind_some]
    cases Keyed.find? (fun e => e.1.keyText) k.keyText m.entries <;> rfl

/-! ### What a program sees -/

theorem mem_entries (hm : m.Tidy) {k : Atom} {v : Value} :
    (k, v) ∈ m.entries ↔ m.content.lookup k = some v := by
  constructor
  · intro hmem
    rw [lookup_content hm (hm.holds _ hmem), hm.ascending.find?_of_mem hmem]
    rfl
  · intro hlookup
    have hk : m.keyType.holds k := by
      by_contra hk
      rw [lookup_content_of_not_holds hm hk] at hlookup
      cases hlookup
    rw [lookup_content hm hk] at hlookup
    obtain ⟨e, he, rfl⟩ := Option.map_eq_some_iff.mp hlookup
    have hmem := Keyed.mem_of_find? he
    have htext := Keyed.key_of_find? he
    have hkey := Scalar.keyText_inj hm.mapKey (hm.holds e hmem) hk htext
    exact hkey ▸ hmem

theorem Tidy.keyTexts (hm : m.Tidy) : (m.keys.map Atom.keyText).Pairwise (· < ·) := by
  rw [keys, List.map_map]
  exact Keyed.ascending_iff.mp hm.ascending

theorem Tidy.nodup_keys (hm : m.Tidy) : m.keys.Nodup :=
  List.Nodup.of_map Atom.keyText (hm.keyTexts.imp ne_of_lt)

/-- What can be seen of a map is what is in it. -/
theorem Tidy.refines (hm : m.Tidy) : m.Refines m.content where
  typed k hk := by
    by_contra hholds
    exact Finmap.lookup_eq_none.mp (lookup_content_of_not_holds hm hholds) hk
  get := get?_eq hm
  has key := by
    rw [has, get?_eq hm, key?]
    cases key.coerce m.keyType with
    | error e => simp [Except.toOption]
    | ok k => simp [Except.toOption, Finmap.lookup_isSome]
  size := by
    have hkeys : m.keys.toFinset = m.content.keys := by
      ext k
      rw [List.mem_toFinset, Finmap.mem_keys, mem_content]
    rw [← hkeys, List.toFinset_card_of_nodup hm.nodup_keys, keys, List.length_map, size]
  keys := by
    refine ⟨hm.nodup_keys, ?_⟩
    ext k
    rw [List.mem_toFinset, Finmap.mem_keys, mem_content]
  values := by
    rw [values, keys, List.map_map, List.map_map]
    exact List.map_congr_left fun e he => ((mem_entries hm).mp he).symm
  entries k v := mem_entries hm
  ascending := hm.keyTexts

/-! ### Calls -/

theorem call_set (key v : Value) : m.call (.set key v) =
    match m.key? key, (m.fit v).toOption with
    | some k, some v => m.insert k v
    | _, _ => m := by
  rw [call, set, key?]
  cases key.coerce m.keyType with
  | error e => rfl
  | ok k => cases m.fit v <;> rfl

theorem call_erase (key : Value) : m.call (.erase key) =
    match m.key? key with
    | some k => { m with entries := Keyed.erase (fun e => e.1.keyText) k.keyText m.entries }
    | none => m := by
  rw [call, erase, keyText?_eq]
  cases m.key? key <;> rfl

/-- What fits does not change. -/
theorem call_types (c : Call) :
    (m.call c).keyType = m.keyType ∧ (m.call c).fit = m.fit := by
  cases c with
  | set key v =>
    rw [call_set]
    split <;> exact ⟨rfl, rfl⟩
  | erase key =>
    rw [call_erase]
    split <;> exact ⟨rfl, rfl⟩
  | clear => exact ⟨rfl, rfl⟩

theorem Tidy.insert (hm : m.Tidy) {k : Atom} (hk : m.keyType.holds k) (v : Value) :
    (m.insert k v).Tidy :=
  ⟨hm.mapKey, hm.ascending.insert _, Keyed.forall_mem_insert hk hm.holds⟩

theorem Tidy.eraseText (hm : m.Tidy) (text : String) :
    Tidy { m with entries := Keyed.erase (fun e => e.1.keyText) text m.entries } :=
  ⟨hm.mapKey, hm.ascending.erase text, fun e he => hm.holds e (Keyed.mem_of_mem_erase he)⟩

theorem Tidy.clear (hm : m.Tidy) : m.clear.Tidy :=
  ⟨hm.mapKey, Keyed.ascending_nil, by simp [MapValue.clear]⟩

theorem Tidy.call (hm : m.Tidy) (c : Call) : (m.call c).Tidy := by
  cases c with
  | set key v =>
    rw [call_set]
    split
    · rename_i hk _
      exact hm.insert (holds_of_key? hk) _
    · exact hm
  | erase key =>
    rw [call_erase]
    split
    · exact hm.eraseText _
    · exact hm
  | clear => exact hm.clear

theorem content_insert (hm : m.Tidy) {k : Atom} (hk : m.keyType.holds k) (v : Value) :
    (m.insert k v).content = m.content.insert k v := by
  have hm' := hm.insert hk v
  refine Finmap.ext_lookup fun l => ?_
  by_cases hl : m.keyType.holds l
  · rw [lookup_content hm' hl, insert, Keyed.find?_insert]
    by_cases heq : l = k
    · subst heq
      rw [if_pos rfl, Finmap.lookup_insert]
      rfl
    · have htext : ¬k.keyText = l.keyText := fun h =>
        heq (Scalar.keyText_inj hm.mapKey hk hl h).symm
      rw [if_neg htext, Finmap.lookup_insert_of_ne _ heq, lookup_content hm hl]
  · have hne : l ≠ k := fun h => hl (h ▸ hk)
    rw [lookup_content_of_not_holds hm' hl, Finmap.lookup_insert_of_ne _ hne,
      lookup_content_of_not_holds hm hl]

theorem content_erase (hm : m.Tidy) {k : Atom} (hk : m.keyType.holds k) :
    content { m with entries := Keyed.erase (fun e => e.1.keyText) k.keyText m.entries } =
      m.content.erase k := by
  have hm' := hm.eraseText k.keyText
  refine Finmap.ext_lookup fun l => ?_
  by_cases hl : m.keyType.holds l
  · rw [lookup_content hm' hl, Keyed.find?_erase]
    by_cases heq : l = k
    · subst heq
      rw [if_pos rfl, Finmap.lookup_erase]
      rfl
    · have htext : ¬l.keyText = k.keyText := fun h =>
        heq (Scalar.keyText_inj hm.mapKey hl hk h)
      rw [if_neg htext, Finmap.lookup_erase_ne heq, lookup_content hm hl]
  · have hne : l ≠ k := fun h => hl (h ▸ hk)
    rw [lookup_content_of_not_holds hm' hl, Finmap.lookup_erase_ne hne,
      lookup_content_of_not_holds hm hl]

/-- A call does to a map what it does to the finite map. -/
theorem Tidy.content_call (hm : m.Tidy) (c : Call) :
    (m.call c).content = Call.effect m.keyType m.fit m.content c := by
  cases c with
  | set key v =>
    rw [call_set, Call.effect]
    cases hkey : key.coerce m.keyType with
    | error e => simp [key?, hkey, Except.toOption]
    | ok k =>
      cases m.fit v with
      | error e => simp [Except.toOption]
      | ok w =>
        simp only [key?, hkey, Except.toOption]
        exact content_insert hm (Value.holds_of_coerce hkey) w
  | erase key =>
    rw [call_erase, Call.effect]
    cases hkey : key.coerce m.keyType with
    | error e => simp [key?, hkey, Except.toOption]
    | ok k =>
      simp only [key?, hkey, Except.toOption]
      exact content_erase hm (Value.holds_of_coerce hkey)
  | clear => exact content_clear

/-- So do all calls, one after the other. -/
theorem Tidy.run (hm : m.Tidy) (calls : List Call) :
    (m.run calls).Tidy ∧ (m.run calls).keyType = m.keyType ∧
      (m.run calls).content = calls.foldl (Call.effect m.keyType m.fit) m.content := by
  induction calls generalizing m with
  | nil => exact ⟨hm, rfl, rfl⟩
  | cons c more ih =>
    obtain ⟨htidy, htype, hcontent⟩ := ih (hm.call c)
    obtain ⟨hkeyType, hfit⟩ := m.call_types c
    refine ⟨htidy, htype.trans hkeyType, ?_⟩
    rw [List.foldl_cons, ← hm.content_call, ← hkeyType, ← hfit]
    exact hcontent

/-! ### Integer keys -/

variable {key key' : Value}

theorem sameKey_of_key?_eq (h : m.key? key = m.key? key') : m.SameKey key key' := by
  refine ⟨?_, ?_, fun v => ?_⟩
  · rw [get?, get?, keyText?_eq, keyText?_eq, h]
  · rw [erase, erase, keyText?_eq, keyText?_eq, h]
  · rw [call_set, call_set, h]

theorem Tidy.otherKey (hm : m.Tidy)
    (h : ∀ k l, m.key? key = some k → m.key? key' = some l → l ≠ k) : m.OtherKey key key' := by
  constructor
  · show (m.call (.erase key)).get? key' = m.get? key'
    rw [call_erase]
    cases hk : m.key? key with
    | none => rfl
    | some k =>
      rw [get?_eq (hm.eraseText _), get?_eq hm, content_erase hm (holds_of_key? hk)]
      exact Option.bind_congr fun l hl => Finmap.lookup_erase_ne (h k l hk hl)
  · intro v
    rw [call_set]
    cases hk : m.key? key with
    | none => rfl
    | some k =>
      cases (m.fit v).toOption with
      | none => rfl
      | some w =>
        have hholds := holds_of_key? hk
        rw [get?_eq (hm.insert hholds w), get?_eq hm, content_insert hm hholds]
        exact Option.bind_congr fun l hl => Finmap.lookup_insert_of_ne _ (h k l hk hl)

/-- Integers lead to the same entry if they are equal, whatever their widths, and to different ones
otherwise. -/
theorem Tidy.integerKeys (hm : m.Tidy) {a b : Atom} {x y : Int} (ha : a.integer? = some x)
    (hb : b.integer? = some y) : (x = y → m.SameKey (.atom a) (.atom b)) ∧
      (x ≠ y → m.OtherKey (.atom a) (.atom b)) := by
  constructor
  · rintro rfl
    exact sameKey_of_key?_eq (Scalar.toOption_coerce hm.mapKey ha hb)
  · intro hne
    have hinteger : ∀ {a k : Atom} {x : Int}, a.integer? = some x → m.key? (.atom a) = some k →
        k.integer? = some x := by
      intro a k x ha hk
      refine Scalar.integer?_of_coerce hm.mapKey ha ?_
      change (m.keyType.coerce a).toOption = some k at hk
      cases hcoerce : m.keyType.coerce a with
      | error e =>
        rw [hcoerce] at hk
        cases hk
      | ok k' =>
        rw [hcoerce] at hk
        cases hk
        rfl
    refine hm.otherKey fun k l hk hl heq => hne ?_
    have hsame := hinteger hb hl
    rw [heq, hinteger ha hk] at hsame
    exact Option.some.inj hsame

end MapValue

/-! ### Whatever is done to a map -/

/-- Whatever is done to a map that a program comes by, a new one or one that is opened in a message,
what can be seen of it is what the same calls make of the finite map that it was. A call that is
refused changes nothing. Integers of different widths are the same key if they are equal, and they
never are if they are not. -/
theorem Value.Reached.map_refines {known : Snapshot → Prop} {m : MapValue}
    (hm : (Value.map m).Reached known) (hkey : m.keyType.isMapKey) (calls : List MapValue.Call) :
    (m.run calls).keyType = m.keyType ∧
      (m.run calls).Refines (calls.foldl (MapValue.Call.effect m.keyType m.fit) m.content) ∧
      (∀ key v e, (m.run calls).set key v = .error e →
        (m.run calls).call (.set key v) = m.run calls) ∧
      ∀ a b x y, a.integer? = some x → b.integer? = some y →
        (x = y → (m.run calls).SameKey (.atom a) (.atom b)) ∧
        (x ≠ y → (m.run calls).OtherKey (.atom a) (.atom b)) := by
  have htidy : m.Tidy := by
    cases hm.orderly with
    | map ascending keys _ => exact ⟨hkey, ascending, keys⟩
  obtain ⟨hrun, htype, hcontent⟩ := htidy.run calls
  refine ⟨htype, hcontent ▸ hrun.refines, fun key v e h => ?_,
    fun a b x y ha hb => hrun.integerKeys ha hb⟩
  rw [MapValue.call, h]
  rfl

/-- A new map from integers to texts. -/
def MapValue.newTexts : MapValue :=
  .empty .int32 (.scalar .string) none

/-- Calls in which one key is given twice, in two widths, and one that is refused. -/
def MapValue.Call.integers : List Call :=
  [.set (.atom (.i64 2)) (.atom (.string "a")), .set (.atom (.string "2")) (.atom (.string "b")),
    .set (.atom (.u32 10)) (.atom (.string "c")), .set (.atom (.u64 2)) (.atom (.string "d"))]

/-- Integers of any width are keys, a text is none, and ten is written with a smaller text than
two. -/
theorem MapValue.map_refines_newTexts :
    (newTexts.run Call.integers).Refines ((((∅ : Dictionary).insert (.i32 2)
        (.atom (.string "a"))).insert (.i32 10) (.atom (.string "c"))).insert (.i32 2)
        (.atom (.string "d"))) ∧
      (newTexts.run Call.integers).keys = [.i32 10, .i32 2] ∧
      (newTexts.run Call.integers).SameKey (.atom (.i32 2)) (.atom (.u64 2)) ∧
      (newTexts.run Call.integers).OtherKey (.atom (.i32 2)) (.atom (.u32 10)) := by
  have hreached : (Value.map newTexts).Reached fun _ => True := .emptyMap _ _ _
  obtain ⟨-, hrefines, -, hintegers⟩ := hreached.map_refines rfl Call.integers
  have hempty : newTexts.content = ∅ := content_empty _ _ _
  rw [hempty] at hrefines
  exact ⟨hrefines, by cbv, (hintegers _ _ 2 2 rfl rfl).1 rfl,
    (hintegers _ _ 2 10 rfl rfl).2 (by decide)⟩

end Protobuf

import Mathlib
import Protobuf.Proofs.Registry.Closed
import Protobuf.Proofs.Registry.Default
import Protobuf.Proofs.Value.FiniteMap

/-!
# What values become

A value that is let into a field is kept in the form of the field. What that form is, is said here
without the checks that produce it: an integer stays the same integer, a list is converted element
by element, the entries of a map keep their keys, and enum values and messages stay what they are.
The checks give exactly what is said here, and refuse everything else.

## Main definitions

* `Scalar.Converts` — an atom in the form of a scalar type.
* `Snapshot.Converts` — a single value in the form of a type.
* `Snapshot.FieldConverts` — a value in the form of a field.

## Main results

* `Scalar.coerce_eq_ok`, `Snapshot.fit_eq_ok_iff`, `Snapshot.fitField_eq_ok_iff` — the checks
  convert what can be converted, and refuse the rest
* `Snapshot.FieldConverts.idem` — what has been converted stays as it is
-/

namespace Protobuf

/-- The atom `b` is `a` in the form in which the scalar type keeps it. Integers become
floating-point numbers and these change their width by rounding; everything else is exact. -/
inductive Scalar.Converts : Scalar → Atom → Atom → Prop
  | kept {s : Scalar} {a : Atom} (holds : s.holds a) : Converts s a a
  | integer {s : Scalar} {a b : Atom} {z : Int} (value : a.integer? = some z)
      (keeps : s.Keeps b z) : Converts s a b
  | single {a : Atom} {z : Int} (value : a.integer? = some z) :
      Converts .float a (.f32 (FloatFormat.single.ofInt z).toUInt32)
  | double {a : Atom} {z : Int} (value : a.integer? = some z) :
      Converts .double a (.f64 (FloatFormat.double.ofInt z).toUInt64)
  | narrow (bits : UInt64) : Converts .float (.f64 bits) (.f32 (narrow bits))
  | widen (bits : UInt32) : Converts .double (.f32 bits) (.f64 (widen bits))
  | utf8 (text : String) : Converts .bytes (.string text) (.bytes (Utf8.encode text))

/-- The single value `v'` is `v` in the form in which values of the type are kept. An enum value is
given by its name or by its number; a message stays what it is, and has to be of the type itself. -/
inductive Snapshot.Converts (S : Snapshot) : FieldType → Value → Value → Prop
  | scalar {s : Scalar} {a b : Atom} (converts : s.Converts a b) :
      Converts S (.scalar s) (.atom a) (.atom b)
  | named {e : NodeId} {name : String} {id : Int32} (found : S.graph.enumId? e name = some id) :
      Converts S (.enumeration e) (.atom (.string name)) (.atom (.enumeration id))
  | numbered {e : NodeId} {a : Atom} {id : Int32} (value : a.integer? = some id.toInt)
      (declared : S.graph.dialectOf e = .proto2 → S.graph.enumHas e id = true) :
      Converts S (.enumeration e) (.atom a) (.atom (.enumeration id))
  | message {t : FieldType} {m : Message} {node : NodeId} (type : t.message? = some node)
      (same : m.type.sameAs ⟨⟨S, node⟩⟩ = true) : Converts S t (.message m) (.message m)

/-- An entry of a map in the form of the type of its values. The key stays. -/
def Snapshot.EntryConverts (S : Snapshot) (t : FieldType) (e e' : Atom × Value) : Prop :=
  e'.1 = e.1 ∧ S.Converts t e.2 e'.2

/-- The value `v'` is `v` in the form in which it is kept in a field: each element of a list and
each value in a map is converted. -/
inductive Snapshot.FieldConverts (S : Snapshot) (s : Slot) : Value → Value → Prop
  | single {v v' : Value} (shape : s.shape = .single) (converts : S.Converts s.type v v') :
      FieldConverts S s v v'
  | list {items items' : List Value} (shape : s.shape = .list)
      (converts : List.Forall₂ (S.Converts s.type) items items') :
      FieldConverts S s (.list items) (.list items')
  | map {key : Scalar} {owner : Option Snapshot} {entries entries' : List (Atom × Value)}
      (shape : s.shape = .map key)
      (converts : List.Forall₂ (S.EntryConverts s.type) entries entries') :
      FieldConverts S s (.map ⟨key, s.type, owner, entries⟩)
        (.map ⟨key, s.type, some S, entries'⟩)

/-- A loop gives what relates to its elements one by one, if a step does so. -/
theorem mapM_eq_ok_iff_forall₂ {ε α β : Type} {f : α → Except ε β} {R : α → β → Prop}
    (h : ∀ a b, f a = .ok b ↔ R a b) {as : List α} {bs : List β} :
    as.mapM f = .ok bs ↔ List.Forall₂ R as bs := by
  induction as generalizing bs with
  | nil =>
    rw [List.forall₂_nil_left_iff]
    exact Except.ok.injEq [] bs ▸ eq_comm
  | cons a more ih =>
    rw [mapM_cons_eq_ok, List.forall₂_cons_left_iff]
    simp only [h, ih, exists_and_left]

/-- What a relation leads to is related to itself, if it is so element by element. -/
theorem forall₂_self {α β : Type} {R : α → β → Prop} {R' : β → β → Prop} {as : List α}
    {bs : List β} (h : List.Forall₂ R as bs) (hself : ∀ a b, R a b → R' b b) :
    List.Forall₂ R' bs bs := by
  induction h with
  | nil => exact .nil
  | cons hr _ ih => exact .cons (hself _ _ hr) ih

/-! ### Atoms -/

namespace Scalar

variable {s : Scalar} {a b : Atom} {z : Int}

/-- A type that keeps an integer is one for integers, and these are keys of maps. -/
theorem Keeps.isMapKey (h : s.Keeps b z) : s.isMapKey = true := by
  obtain ⟨hholds, hb⟩ := h
  cases s <;> first | rfl | (cases b <;> cases hholds; cases hb)

/-- Whatever stands for an integer is coerced to the atom in which the type keeps it. -/
theorem coerce_of_keeps (ha : a.integer? = some z) (hb : s.Keeps b z) : s.coerce a = .ok b := by
  have hoption := toOption_coerce hb.isMapKey ha hb.2
  rw [coerce_of_holds hb.1] at hoption
  cases h : s.coerce a with
  | error e =>
    rw [h] at hoption
    cases hoption
  | ok b' =>
    rw [h] at hoption
    exact congrArg Except.ok (Option.some.inj hoption)

/-- A type for integers takes nothing else. -/
theorem exists_keeps_of_coerce {range : IntRange} (hs : s.range? = some range)
    (h : s.coerce a = .ok b) : ∃ z, a.integer? = some z ∧ s.Keeps b z := by
  cases ha : a.integer? with
  | none =>
    cases s <;> cases hs
    all_goals
      rw [coerce, coerceInteger, ha] at h
      cases h
  | some z =>
    have hcoerce := coerce_integer hs ha
    split at hcoerce
    · obtain ⟨b', hb', hkeeps⟩ := hcoerce
      rw [hb'] at h
      cases h
      exact ⟨z, rfl, hkeeps⟩
    · rw [hcoerce] at h
      cases h

/-- Any other type takes what it keeps, and what the table of conversions names. -/
theorem converts_of_coerce (hs : s.range? = none) (h : s.coerce a = .ok b) : s.Converts a b := by
  cases s <;> cases hs
  case double =>
    cases a <;> cases h
    case f64 => exact .kept rfl
    case f32 bits => exact .widen bits
    all_goals exact .double rfl
  case float =>
    cases a <;> cases h
    case f32 => exact .kept rfl
    case f64 bits => exact .narrow bits
    all_goals exact .single rfl
  case bytes =>
    cases a <;> cases h
    case bytes => exact .kept rfl
    case string text => exact .utf8 text
  all_goals
    cases a <;> cases h
    exact .kept rfl

/-- Coercion converts what can be converted, and refuses the rest. -/
theorem coerce_eq_ok : s.coerce a = .ok b ↔ s.Converts a b := by
  constructor
  · intro h
    cases hs : s.range? with
    | some range =>
      obtain ⟨z, ha, hb⟩ := exists_keeps_of_coerce hs h
      exact .integer ha hb
    | none => exact converts_of_coerce hs h
  · intro h
    cases h with
    | kept holds => exact coerce_of_holds holds
    | integer value keeps => exact coerce_of_keeps value keeps
    | single value => cases a <;> cases value <;> rfl
    | double value => cases a <;> cases value <;> rfl
    | narrow bits => rfl
    | widen bits => rfl
    | utf8 text => rfl

end Scalar

/-! ### Single values -/

namespace Graph

variable {g : Graph} {e : NodeId} {a : Atom} {id : Int32}

/-- A number is taken for an enum value if it is one that enum values can have. -/
theorem enumNumber_eq_ok :
    Value.enumNumber (.atom a) = .ok id ↔ a.integer? = some id.toInt := by
  rw [Value.enumNumber, Value.atom?, Option.bind_some]
  cases ha : a.integer? with
  | none => simp
  | some n =>
    simp only [Option.some.injEq]
    constructor
    · intro h
      split at h
      · rename_i hn
        cases h
        exact (IntRange.toInt_toInt32 hn).symm
      · cases h
    · rintro rfl
      rw [if_pos (IntRange.mem_int32 id)]
      exact congrArg Except.ok (Int32.ofInt_toInt id)

theorem enumNumber_of_ne_string (h : ∀ name, a ≠ .string name) :
    g.enumNumber e (.atom a) = Value.enumNumber (.atom a) := by
  rw [enumNumber]
  intro name heq
  cases heq
  exact h name rfl

/-- The name of an enum value is looked up; anything else is taken for a number. -/
theorem enumNumber_atom_eq_ok : g.enumNumber e (.atom a) = .ok id ↔
    (∃ name, a = .string name ∧ g.enumId? e name = some id) ∨ a.integer? = some id.toInt := by
  cases a with
  | string name =>
    rw [enumNumber]
    cases h : g.enumId? e name with
    | none => simp [h, Atom.integer?]
    | some id' => simp [h, Atom.integer?]
  | _ =>
    rw [enumNumber_of_ne_string (by simp), enumNumber_eq_ok]
    simp

/-- A name is one of a declared value. -/
theorem fitEnum_atom_eq_ok : g.fitEnum e (.atom a) = .ok id ↔
    (∃ name, a = .string name ∧ g.enumId? e name = some id) ∨
      a.integer? = some id.toInt ∧ (g.dialectOf e = .proto2 → g.enumHas e id = true) := by
  have hfit : g.fitEnum e (.atom a) = .ok id ↔ g.enumNumber e (.atom a) = .ok id ∧
      (g.dialectOf e = .proto2 → g.enumHas e id = true) := by
    rw [fitEnum, bind_eq_ok]
    constructor
    · rintro ⟨id', hid', h⟩
      split at h
      · cases h
      · rename_i hopen
        cases h
        exact ⟨hid', fun hclosed => by simpa [hclosed] using hopen⟩
    · rintro ⟨hid, hdeclared⟩
      refine ⟨id, hid, ?_⟩
      rw [if_neg fun h => by simp [hdeclared h.1] at h]
      rfl
  rw [hfit, enumNumber_atom_eq_ok]
  constructor
  · rintro ⟨hnamed | hvalue, hdeclared⟩
    · exact .inl hnamed
    · exact .inr ⟨hvalue, hdeclared⟩
  · rintro (⟨name, ha, hid⟩ | ⟨hvalue, hdeclared⟩)
    · exact ⟨.inl ⟨name, ha, hid⟩, fun _ => enumHas_of_enumId? hid⟩
    · exact ⟨.inr hvalue, hdeclared⟩

end Graph

namespace Snapshot

variable {S : Snapshot} {t : FieldType} {v v' : Value}

theorem fit_scalar_eq_ok_iff {s : Scalar} : S.fit (.scalar s) v = .ok v' ↔
    S.Converts (.scalar s) v v' := by
  rw [fit, mapError_eq_ok, map_eq_ok]
  constructor
  · rintro ⟨b, hb, rfl⟩
    cases v with
    | atom a => exact .scalar (Scalar.coerce_eq_ok.mp hb)
    | _ => cases hb
  · rintro (⟨hconverts⟩ | _ | _ | ⟨hnode⟩)
    · exact ⟨_, Scalar.coerce_eq_ok.mpr hconverts, rfl⟩
    · cases hnode

theorem fit_enumeration_eq_ok_iff {e : NodeId} : S.fit (.enumeration e) v = .ok v' ↔
    S.Converts (.enumeration e) v v' := by
  rw [fit, map_eq_ok]
  constructor
  · rintro ⟨id, hid, rfl⟩
    cases v with
    | atom a =>
      rcases Graph.fitEnum_atom_eq_ok.mp hid with ⟨name, rfl, hname⟩ | ⟨hvalue, hdeclared⟩
      · exact .named hname
      · exact .numbered hvalue hdeclared
    | _ => cases hid
  · rintro (_ | ⟨hname⟩ | ⟨hvalue, hdeclared⟩ | ⟨hnode⟩)
    · exact ⟨_, Graph.fitEnum_atom_eq_ok.mpr (.inl ⟨_, rfl, hname⟩), rfl⟩
    · exact ⟨_, Graph.fitEnum_atom_eq_ok.mpr (.inr ⟨hvalue, hdeclared⟩), rfl⟩
    · cases hnode

/-- What is converted for a field of messages is a message of the type, and stays as it is. -/
theorem Converts.message_eq {node : NodeId} (ht : t.message? = some node) (h : S.Converts t v v') :
    ∃ m : Message, v = .message m ∧ v' = v ∧ m.type.sameAs ⟨⟨S, node⟩⟩ = true := by
  cases h with
  | message hnode same =>
    cases ht.symm.trans hnode
    exact ⟨_, rfl, rfl, same⟩
  | _ => cases ht

theorem fit_message_eq_ok_iff {node : NodeId} (ht : t.message? = some node) :
    S.fit t v = .ok v' ↔ S.Converts t v v' := by
  have htype : t = .message node ∨ t = .group node := by
    cases t <;> cases ht
    · exact .inl rfl
    · exact .inr rfl
  cases v with
  | message m =>
    have hfit : S.fit t (.message m) = if m.type.sameAs ⟨⟨S, node⟩⟩ then .ok (.message m)
        else .error (.wrongMessage (S.graph.fqn node) m.type.fqn) := by
      rcases htype with rfl | rfl <;> rfl
    rw [hfit]
    constructor
    · intro h
      split at h
      · rename_i hsame
        cases h
        exact .message ht hsame
      · cases h
    · intro h
      obtain ⟨m', heq, rfl, hsame⟩ := h.message_eq ht
      cases heq
      rw [if_pos hsame]
  | _ =>
    constructor
    · intro h
      rcases htype with rfl | rfl <;> cases h
    · intro h
      obtain ⟨m, heq, -⟩ := h.message_eq ht
      cases heq

/-- The check of a single value converts what can be converted, and refuses the rest. -/
theorem fit_eq_ok_iff : S.fit t v = .ok v' ↔ S.Converts t v v' := by
  cases t with
  | scalar s => exact fit_scalar_eq_ok_iff
  | enumeration e => exact fit_enumeration_eq_ok_iff
  | message node => exact fit_message_eq_ok_iff rfl
  | group node => exact fit_message_eq_ok_iff rfl

/-- A single value that has been converted is not changed by another conversion. -/
theorem Converts.idem (h : S.Converts t v v') : S.Converts t v' v' := by
  cases h with
  | scalar converts =>
    exact .scalar (.kept (Scalar.holds_of_coerce (Scalar.coerce_eq_ok.mpr converts)))
  | named found => exact .numbered rfl fun _ => Graph.enumHas_of_enumId? found
  | numbered _ declared => exact .numbered rfl declared
  | message type same => exact .message type same

theorem EntryConverts.idem {e e' : Atom × Value} (h : S.EntryConverts t e e') :
    S.EntryConverts t e' e' :=
  ⟨rfl, h.2.idem⟩

/-- The entries of a map are converted one by one. -/
theorem attach_eq_ok_iff {m m' : MapValue} : m.attach S = .ok m' ↔
    ∃ entries, List.Forall₂ (S.EntryConverts m.valueType) m.entries entries ∧
      m' = ⟨m.keyType, m.valueType, some S, entries⟩ := by
  have hentry : ∀ e e' : Atom × Value, (do
        let v ← S.fit m.valueType e.2
        return (e.1, v)) = Except.ok e' ↔ S.EntryConverts m.valueType e e' := by
    intro e e'
    rw [bind_eq_ok]
    constructor
    · rintro ⟨v, hv, he⟩
      cases he
      exact ⟨rfl, fit_eq_ok_iff.mp hv⟩
    · rintro ⟨hkey, hconverts⟩
      exact ⟨e'.2, fit_eq_ok_iff.mpr hconverts, congrArg Except.ok (Prod.ext hkey.symm rfl)⟩
  rw [MapValue.attach, bind_eq_ok]
  constructor
  · rintro ⟨entries, hentries, h⟩
    cases h
    exact ⟨entries, (mapM_eq_ok_iff_forall₂ hentry).mp hentries, rfl⟩
  · rintro ⟨entries, hentries, rfl⟩
    exact ⟨entries, (mapM_eq_ok_iff_forall₂ hentry).mpr hentries, rfl⟩

/-! ### Values of fields -/

section

variable {s : Slot}

/-- The check of a field converts what can be converted, and refuses the rest. -/
theorem fitField_eq_ok_iff : S.fitField s v = .ok v' ↔ S.FieldConverts s v v' := by
  constructor
  · intro h
    rcases fitField_eq_ok h with ⟨hshape, hfit⟩ | ⟨items, items', hshape, rfl, rfl, hitems⟩ |
      ⟨map, map', hshape, htype, rfl, rfl, hattach⟩
    · exact .single hshape (fit_eq_ok_iff.mp hfit)
    · exact .list hshape ((mapM_eq_ok_iff_forall₂ fun _ _ => fit_eq_ok_iff).mp hitems)
    · obtain ⟨entries, hentries, rfl⟩ := attach_eq_ok_iff.mp hattach
      rw [← htype] at hentries ⊢
      obtain ⟨key, valueType, owner, entries₀⟩ := map
      cases htype
      exact .map hshape hentries
  · intro h
    cases h with
    | single shape converts =>
      simp only [fitField, shape]
      exact fit_eq_ok_iff.mpr converts
    | list shape converts =>
      simp only [fitField, shape]
      exact map_eq_ok.mpr
        ⟨_, (mapM_eq_ok_iff_forall₂ fun _ _ => fit_eq_ok_iff).mpr converts, rfl⟩
    | map shape converts =>
      simp only [fitField, shape, and_self, if_true]
      exact map_eq_ok.mpr ⟨_, attach_eq_ok_iff.mpr ⟨_, converts, rfl⟩, rfl⟩

/-- What has been converted is not changed by another conversion. -/
theorem FieldConverts.idem (h : S.FieldConverts s v v') : S.FieldConverts s v' v' := by
  cases h with
  | single shape converts => exact .single shape converts.idem
  | list shape converts => exact .list shape (forall₂_self converts fun _ _ h => h.idem)
  | map shape converts => exact .map shape (forall₂_self converts fun _ _ h => h.idem)

end

end Snapshot

end Protobuf

import Protobuf.Datum.Building
import Protobuf.Datum.Reading
import Protobuf.Proofs.Graph.Label
import Protobuf.Proofs.Message.Conversion
import Protobuf.Proofs.Number.Binary

/-!
# Data that is handed back as it came

A program that is prepared for anything is handed a value in its own form and may hand it over again
in the same form. On the way numbers become as wide as numbers are in plain data, and enum values
become names. Both ways lead back: an atom that has been widened is narrowed to what it was, unless
it is a signalling NaN, and a name stands for the number that it was given for.

## Main definitions

* `Reading.source` — what a program has been handed, handed over again.
* `Atom.wide` — an atom as it is told in plain data.
* `Atom.Portable` — the atom is not lost in plain data.

## Main results

* `Scalar.coerce_wide` — coercion gives the atom that has been widened
* `Graph.enumId?_of_enumName?` — the name of an enum value leads to its number
* `Value.read_atom`, `Value.read_list`, `Value.read_map`, `Value.read_message` — what a program is
  handed that is prepared for anything
-/

namespace Protobuf

/-! ### Handing over again -/

/-- An atom in its own form. -/
def Atom.source : Atom → Source
  | bool v => .bool v
  | i32 v => .int v.toInt64
  | i64 v => .int v
  | u32 v => .uint v.toUInt64
  | u64 v => .uint v
  | f32 bits => .single bits
  | f64 bits => .double bits
  | string text => .text text
  | bytes content => .bytes content
  | enumeration id => .int id.toInt64

mutual

/-- What a program has been handed, handed over again in the form in which it came. -/
def Reading.source : Reading → Source
  | .atom a => a.source
  | .byte b => .uint b.toUInt64
  | .nothing => .unit
  | .present inner => .wrapped inner.source
  | .wrapped inner => .wrapped inner.source
  | .sequence items => .sequence (Reading.sourceOfItems items)
  | .map entries => .map (Reading.sourceOfEntries entries)
  | .choice name => .variant name
  | .choiceNumber id => .uint id.toUInt64

/-- The items of a sequence, handed over again. -/
def Reading.sourceOfItems : List Reading → List Source
  | [] => []
  | r :: more => r.source :: Reading.sourceOfItems more

/-- The entries of a map, handed over again. -/
def Reading.sourceOfEntries : List (Reading × Reading) → List (Option Source × Source)
  | [] => []
  | (k, r) :: more => (some k.source, r.source) :: Reading.sourceOfEntries more

end

/-- An atom in plain data. -/
def Atom.datum : Atom → Datum
  | bool v => .bool v
  | i32 v => .int v.toInt64
  | i64 v => .int v
  | u32 v => .uint v.toUInt64
  | u64 v => .uint v
  | f32 bits => .float (widen bits)
  | f64 bits => .float bits
  | string text => .text text
  | bytes content => .bytes content
  | enumeration id => .int id.toInt64

/-- An atom with the width that numbers have in plain data. -/
def Atom.wide : Atom → Atom
  | i32 v => i64 v.toInt64
  | u32 v => u64 v.toUInt64
  | f32 bits => f64 (widen bits)
  | enumeration id => i64 id.toInt64
  | a => a

/-- The atom of a field of the type is not lost in plain data: if it is an enum value it has a name,
and it is no signalling NaN. -/
structure Atom.Portable (g : Graph) (t : FieldType) (a : Atom) : Prop where
  declared : ∀ e id, t = .enumeration e → a = .enumeration id → g.enumHas e id = true
  quiet : ∀ bits, a = .f32 bits → ¬IsSignalling bits

/-! ### Atoms -/

namespace Atom

/-- Whether an atom is portable, as a check. -/
def isPortable (g : Graph) (t : FieldType) : Atom → Bool
  | enumeration id =>
    match t with
    | .enumeration e => g.enumHas e id
    | _ => true
  | f32 bits => !decide (IsSignalling bits)
  | _ => true

theorem isPortable_iff {g : Graph} {t : FieldType} {a : Atom} :
    a.isPortable g t = true ↔ a.Portable g t := by
  constructor
  · intro h
    constructor
    · rintro e id rfl rfl
      exact h
    · rintro bits rfl
      simpa [isPortable] using h
  · rintro ⟨hdeclared, hquiet⟩
    cases a with
    | enumeration id =>
      cases t with
      | enumeration e => exact hdeclared e id rfl rfl
      | _ => rfl
    | f32 bits => simpa [isPortable] using hquiet bits rfl
    | _ => rfl

instance (g : Graph) (t : FieldType) (a : Atom) : Decidable (a.Portable g t) :=
  decidable_of_iff _ isPortable_iff

theorem datum_source (a : Atom) : a.source.datum = .ok a.datum := by
  cases a <;> simp only [source, Source.datum, datum]

theorem isAbsent_datum (a : Atom) : a.datum.isAbsent = false := by
  cases a <;> rfl

/-- A wider integer is the same integer. -/
theorem integer?_wide (a : Atom) : a.wide.integer? = a.integer? := by
  cases a with
  | i32 v => exact congrArg some v.toInt_toInt64
  | enumeration id => exact congrArg some id.toInt_toInt64
  | u32 v => exact congrArg some (congrArg Nat.cast v.toNat_toUInt64)
  | _ => rfl

end Atom

/-- Coercion gives the atom that has been widened. -/
theorem Scalar.coerce_wide {s : Scalar} {a : Atom} (h : s.holds a)
    (hquiet : ∀ bits, a = .f32 bits → ¬IsSignalling bits) : s.coerce a.wide = .ok a := by
  cases hz : a.integer? with
  | some z => exact coerce_of_keeps ((Atom.integer?_wide a).trans hz) ⟨h, hz⟩
  | none =>
    cases a with
    | f32 bits =>
      cases s <;> cases h
      show Except.ok (Atom.f32 (narrow (widen bits))) = _
      rw [narrow_widen (hquiet bits rfl)]
    | bool | f64 | string | bytes => exact coerce_of_holds h
    | _ => cases hz

/-! ### Names of enum values -/

namespace Graph

variable {g : Graph} {e : NodeId} {name : String} {id : Int32}

/-- The values of an enum have different names. -/
theorem Branching.enumValues_pairwise (hg : g.Branching) (e : NodeId) :
    (g.enumValues e).Pairwise fun v w => v.1 ≠ w.1 := by
  rw [enumValues, List.pairwise_filterMap]
  refine (hg.siblings e).imp fun {a b} hab v hv w hw => ?_
  split at hv
  · split at hw
    · cases hv
      cases hw
      exact hab
    · cases hw
  · cases hv

/-- The name of an enum value leads to its number. -/
theorem enumId?_of_enumName? (hg : g.Branching) (h : g.enumName? e id = some name) :
    g.enumId? e name = some id := by
  obtain ⟨v, hv, rfl⟩ := Option.map_eq_some_iff.mp h
  have hid := List.find?_some hv
  rw [decide_eq_true_eq] at hid
  obtain ⟨before, after, hsplit⟩ := List.append_of_mem (List.mem_of_find?_eq_some hv)
  have hdistinct := hg.enumValues_pairwise e
  rw [hsplit] at hdistinct
  obtain ⟨-, -, hbefore⟩ := List.pairwise_append.mp hdistinct
  refine List.lookup_eq_some_iff.mpr ⟨before, after, ?_, fun w hw => ?_⟩
  · rw [hsplit, ← hid]
  · simpa using (hbefore w hw v List.mem_cons_self).symm

/-- A number that is declared has a name. -/
theorem exists_enumName? (h : g.enumHas e id = true) : ∃ name, g.enumName? e id = some name := by
  obtain ⟨v, hv, hid⟩ := List.any_eq_true.mp h
  have hsome : ((g.enumValues e).find? fun v => v.2 = id).isSome = true :=
    List.find?_isSome.mpr ⟨v, hv, hid⟩
  obtain ⟨w, hw⟩ := Option.isSome_iff_exists.mp hsome
  exact ⟨w.1, by rw [enumName?, hw]; rfl⟩

end Graph

/-! ### Prepared for anything -/

section

variable {g : Graph} {type : Option FieldType} {t : FieldType} {a : Atom}

theorem Value.read_atom (a : Atom) :
    (Value.atom a).read g type .anything = .ok (Reading.ofAtom g type a) := by
  rw [Value.read]
  rfl

theorem Value.read_list (items : List Value) : (Value.list items).read g type .anything =
    (Value.readItems g type .anything items).map .sequence := by
  rw [Value.read]
  exact congrFun Except.map_id _

theorem Value.read_map (key : Scalar) (valueType : FieldType) (owner : Option Snapshot)
    (entries : List (Atom × Value)) :
    (Value.map ⟨key, valueType, owner, entries⟩).read g type .anything =
      (Value.readEntries g key valueType .anything .anything entries).map .map := by
  rw [Value.read]
  exact congrFun Except.map_id _

/-- Wherever it stands, a message is handed over as it is by itself. -/
theorem Value.read_message (m : Message) : (Value.message m).read g type .anything =
    m.read .anything := by
  cases m
  rw [Value.read]
  exact congrFun Except.map_id _

/-- An atom of a scalar type is handed over as it is. -/
theorem Reading.ofAtom_of_holds {s : Scalar} (h : s.holds a) :
    Reading.ofAtom g type a = .atom a := by
  cases a with
  | enumeration id => cases s <;> cases h
  | _ => rfl

end

end Protobuf

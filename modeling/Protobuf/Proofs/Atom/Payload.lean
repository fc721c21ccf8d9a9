import Protobuf.Atom.Payload
import Protobuf.Graph.Field
import Protobuf.Proofs.Text.Utf8
import Protobuf.Proofs.Wire.Zigzag

/-!
# Atoms are read back

A type holds its atoms in one kind each. What it holds is what coercion gives and leaves alone, what
reading gives, and what is written in the layout of the type and read back from there.

## Main definitions

* `Scalar.holds`, `FieldType.holds` — the atoms in which values of a type are kept.

## Main results

* `Scalar.coerce_of_holds`, `Scalar.holds_of_coerce` — coercion
* `FieldType.holds_of_ofPayload` — what is read is held
* `FieldType.payload?_of_holds` — what is held is written, and read back
-/

namespace Protobuf

/-- The scalar type keeps its values in atoms of this kind. -/
def Scalar.holds : Scalar → Atom → Bool
  | .double, .f64 _ => true
  | .float, .f32 _ => true
  | .int32, .i32 _ | .sint32, .i32 _ | .sfixed32, .i32 _ => true
  | .int64, .i64 _ | .sint64, .i64 _ | .sfixed64, .i64 _ => true
  | .uint32, .u32 _ | .fixed32, .u32 _ => true
  | .uint64, .u64 _ | .fixed64, .u64 _ => true
  | .bool, .bool _ => true
  | .string, .string _ => true
  | .bytes, .bytes _ => true
  | _, _ => false

/-- The type keeps its values in atoms of this kind. Messages are no atoms. -/
def FieldType.holds : FieldType → Atom → Bool
  | .scalar s, a => s.holds a
  | .enumeration _, .enumeration _ => true
  | _, _ => false

/-! ### Ranges -/

namespace IntRange

theorem mem_int32 (v : Int32) : v.toInt ∈ int32 :=
  ⟨v.le_toInt, Int.le_of_lt_add_one v.toInt_lt⟩

theorem mem_int64 (v : Int64) : v.toInt ∈ int64 :=
  ⟨v.le_toInt, Int.le_of_lt_add_one v.toInt_lt⟩

theorem mem_uint32 (v : UInt32) : (v.toNat : Int) ∈ uint32 :=
  ⟨Int.natCast_nonneg _, Int.le_of_lt_add_one (Int.ofNat_lt.mpr v.toNat_lt)⟩

theorem mem_uint64 (v : UInt64) : (v.toNat : Int) ∈ uint64 :=
  ⟨Int.natCast_nonneg _, Int.le_of_lt_add_one (Int.ofNat_lt.mpr v.toNat_lt)⟩

variable {v : Int}

theorem toInt_toInt32 (h : v ∈ int32) : v.toInt32.toInt = v :=
  Int32.toInt_ofInt_of_le h.1 (Int.lt_add_one_of_le h.2)

theorem toInt_toInt64 (h : v ∈ int64) : v.toInt64.toInt = v :=
  Int64.toInt_ofInt_of_le h.1 (Int.lt_add_one_of_le h.2)

theorem toNat_toUInt32 (h : v ∈ uint32) : (v.toNat.toUInt32.toNat : Int) = v := by
  obtain ⟨hlo, hhi⟩ := h
  have hlt : v.toNat < UInt32.size := (Int.toNat_lt hlo).mpr (Int.lt_add_one_of_le hhi)
  rw [UInt32.toNat_ofNat_of_lt' hlt]
  exact Int.toNat_of_nonneg hlo

theorem toNat_toUInt64 (h : v ∈ uint64) : (v.toNat.toUInt64.toNat : Int) = v := by
  obtain ⟨hlo, hhi⟩ := h
  have hlt : v.toNat < UInt64.size := (Int.toNat_lt hlo).mpr (Int.lt_add_one_of_le hhi)
  rw [UInt64.toNat_ofNat_of_lt' hlt]
  exact Int.toNat_of_nonneg hlo

end IntRange

/-! ### Coercion -/

namespace Scalar

theorem coerceInteger_of_mem {s : Scalar} {range : IntRange} {make : Int → Atom} {a : Atom}
    {v : Int} (ha : a.integer? = some v) (hv : v ∈ range) :
    s.coerceInteger range make a = .ok (make v) := by
  rw [coerceInteger, ha]
  exact if_pos hv

theorem coerceInteger_eq_ok {s : Scalar} {range : IntRange} {make : Int → Atom} {a b : Atom}
    (h : s.coerceInteger range make a = .ok b) : ∃ v, make v = b := by
  rw [coerceInteger] at h
  split at h
  · simp at h
  · rename_i v _
    split at h
    · exact ⟨v, by simpa using h⟩
    · simp at h

/-- Coercion leaves alone what the type holds. -/
theorem coerce_of_holds {s : Scalar} {a : Atom} (h : s.holds a) : s.coerce a = .ok a := by
  cases s <;> cases a <;> simp only [holds, Bool.false_eq_true] at h <;> try rfl
  case int32.i32 v | sint32.i32 v | sfixed32.i32 v =>
    have hv : (Atom.i32 v).integer? = some v.toInt := rfl
    rw [coerce, coerceInteger_of_mem hv (IntRange.mem_int32 v)]
    simp
  case int64.i64 v | sint64.i64 v | sfixed64.i64 v =>
    have hv : (Atom.i64 v).integer? = some v.toInt := rfl
    rw [coerce, coerceInteger_of_mem hv (IntRange.mem_int64 v)]
    simp
  case uint32.u32 v | fixed32.u32 v =>
    have hv : (Atom.u32 v).integer? = some (v.toNat : Int) := rfl
    rw [coerce, coerceInteger_of_mem hv (IntRange.mem_uint32 v)]
    simp
  case uint64.u64 v | fixed64.u64 v =>
    have hv : (Atom.u64 v).integer? = some (v.toNat : Int) := rfl
    rw [coerce, coerceInteger_of_mem hv (IntRange.mem_uint64 v)]
    simp

/-- Coercion gives what the type holds. -/
theorem holds_of_coerce {s : Scalar} {a b : Atom} (h : s.coerce a = .ok b) : s.holds b := by
  cases s <;> simp only [coerce] at h
  case int32 | int64 | uint32 | uint64 | sint32 | sint64 | fixed32 | fixed64 | sfixed32 |
      sfixed64 =>
    obtain ⟨v, rfl⟩ := coerceInteger_eq_ok h
    rfl
  all_goals
    split at h
    all_goals
      cases h
      try rfl

theorem holds_zero (s : Scalar) : s.holds s.zero := by
  cases s <;> rfl

/-! ### Payloads -/

/-- The sign that is spread over the upper half of a varint is cut off again. -/
theorem low32_ofInt32 (v : Int32) : v.toInt64.toUInt64.toUInt32.toInt32 = v := by
  refine Int32.toBitVec_inj.mp (BitVec.eq_of_getLsbD_eq fun i hi => ?_)
  simp [hi, Nat.lt_trans hi (by decide : 32 < 64), BitVec.getElem_signExtend]

/-- What the type holds is written in the layout of the type, never as a group, and read back. -/
theorem payload?_of_holds {s : Scalar} {a : Atom} (h : s.holds a) :
    ∃ p, s.payload? a = some p ∧ s.ofPayload p = .ok a ∧ p.wireType = s.wireType ∧
      ∀ records, p ≠ .group records := by
  cases s <;> cases a <;> simp only [holds, Bool.false_eq_true] at h <;>
    refine ⟨_, rfl, ?_, rfl, by simp [Wire.Payload.ofInt32]⟩
  case string.string text =>
    simp only [ofPayload, Utf8.decode_encode]
    rfl
  case sint32.i32 v => simp [ofPayload, Zigzag.decode32_encode32]
  case sint64.i64 v => simp [ofPayload, Zigzag.decode64_encode64]
  case bool.bool v => cases v <;> rfl
  all_goals simp [ofPayload, Wire.Payload.ofInt32, Wire.low32, low32_ofInt32]

/-- What is read is held. -/
theorem holds_of_ofPayload {s : Scalar} {p : Wire.Payload} {a : Atom} (h : s.ofPayload p = .ok a) :
    s.holds a := by
  cases s <;> cases p <;> simp only [ofPayload] at h <;> try cases h <;> rfl
  case string.bytes content =>
    cases hdecode : Utf8.decode content <;> rw [hdecode] at h <;> cases h
    rfl

end Scalar

namespace FieldType

/-- What is read is held. -/
theorem holds_of_ofPayload {t : FieldType} {p : Wire.Payload} {a : Atom}
    (h : t.ofPayload p = .ok a) : t.holds a := by
  cases t with
  | scalar s => exact Scalar.holds_of_ofPayload h
  | enumeration e =>
    cases p <;> cases h
    rfl
  | message node => cases h
  | group node => cases h

/-- What the type holds is written in the layout of the type, never as a group, and read back. -/
theorem payload?_of_holds {t : FieldType} {a : Atom} (h : t.holds a) :
    ∃ p, t.payload? a = some p ∧ t.ofPayload p = .ok a ∧ p.wireType = t.wireType ∧
      ∀ records, p ≠ .group records := by
  cases t with
  | scalar s =>
    obtain ⟨p, hp, hread, hwire, hgroup⟩ := Scalar.payload?_of_holds h
    refine ⟨p, ?_, hread, hwire, hgroup⟩
    rw [payload?, Scalar.coerce_of_holds h]
    exact hp
  | enumeration e =>
    cases a <;> try cases h
    rename_i id
    have hid : (Atom.enumeration id).integer? = some id.toInt := rfl
    refine ⟨.ofInt32 id, ?_, ?_, rfl, by simp [Wire.Payload.ofInt32]⟩
    · rw [payload?, hid, Option.filter_some, if_pos (decide_eq_true (IntRange.mem_int32 id))]
      simp
    · simp [ofPayload, Wire.Payload.ofInt32, Wire.low32, Scalar.low32_ofInt32]
  | message node => cases h
  | group node => cases h

/-- A type that holds atoms is no message. -/
theorem isMessage_of_holds {t : FieldType} {a : Atom} (h : t.holds a) : t.isMessage = false := by
  cases t with
  | message node => cases h
  | group node => cases h
  | _ => rfl

end FieldType

theorem Graph.holds_of_zero? {g : Graph} {t : FieldType} {a : Atom} (h : g.zero? t = some a) :
    t.holds a := by
  cases t with
  | scalar s =>
    rw [← Option.some.inj h]
    exact s.holds_zero
  | enumeration e =>
    rw [← Option.some.inj h]
    rfl
  | message node => cases h
  | group node => cases h

end Protobuf

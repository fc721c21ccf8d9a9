import Mathlib
import Protobuf.Proofs.Number.Shortest
import Protobuf.Proofs.Value.FiniteMap

/-!
# Texts of keys

A map that a program makes by itself may have keys of any scalar type. Its entries are kept under
the texts of their keys, so what counts is whether the texts tell the keys apart. They do for truth
values, integers and texts, and also for floating-point numbers, because the shortest decimal of a
number is that of no other number.

Two kinds of keys are left. Bytes are written as their count, and what stands for no number is
written in one way whatever its bits are. Keys of these kinds collide: they are different, and each
of them takes the place of the other. Maps of messages have no keys of such types.

## Main definitions

* `Atom.Collides` — different keys that have the same text.

## Main results

* `Scalar.keyText_eq_iff` — keys of one type have the same text if they are equal or collide
* `MapValue.set_of_coerce` — putting in an entry replaces that of another key exactly if they do
-/

namespace Protobuf

/-- Different keys of one type that have the same text. -/
inductive Atom.Collides : Atom → Atom → Prop
  | bytes {x y : List UInt8} (hne : x ≠ y) (h : x.length = y.length) :
      Collides (.bytes x) (.bytes y)
  | single {x y : UInt32} (hne : x ≠ y) (hx : FloatFormat.single.isNaN x.toNat)
      (hy : FloatFormat.single.isNaN y.toNat) : Collides (.f32 x) (.f32 y)
  | double {x y : UInt64} (hne : x ≠ y) (hx : FloatFormat.double.isNaN x.toNat)
      (hy : FloatFormat.double.isNaN y.toNat) : Collides (.f64 x) (.f64 y)

namespace Atom

/-- Bytes are written as their count. -/
theorem keyText_bytes_iff {x y : List UInt8} :
    (bytes x).keyText = (bytes y).keyText ↔ x.length = y.length := by
  constructor
  · intro h
    have hlist := congrArg String.toList h
    simp only [keyText, display, String.toList_append, List.append_cancel_right_eq,
      List.append_cancel_left_eq] at hlist
    exact Nat.repr_injective (String.toList_inj.mp hlist)
  · intro h
    show (bytes x).display = (bytes y).display
    rw [display, display, h]

theorem keyText_f32_iff {x y : UInt32} : (f32 x).keyText = (f32 y).keyText ↔
    x = y ∨ (FloatFormat.single.isNaN x.toNat ∧ FloatFormat.single.isNaN y.toNat) := by
  have hsign : 2 * FloatFormat.single.signBit = 2 ^ 32 := by decide
  have hplain := FloatFormat.plain_eq_plain_iff (f := .single) (by decide)
    (hsign ▸ x.toNat_lt) (hsign ▸ y.toNat_lt)
  rwa [UInt32.toNat_inj] at hplain

theorem keyText_f64_iff {x y : UInt64} : (f64 x).keyText = (f64 y).keyText ↔
    x = y ∨ (FloatFormat.double.isNaN x.toNat ∧ FloatFormat.double.isNaN y.toNat) := by
  have hsign : 2 * FloatFormat.double.signBit = 2 ^ 64 := by decide
  have hplain := FloatFormat.plain_eq_plain_iff (f := .double) (by decide)
    (hsign ▸ x.toNat_lt) (hsign ▸ y.toNat_lt)
  rwa [UInt64.toNat_inj] at hplain

theorem Collides.keyText_eq {a b : Atom} (h : a.Collides b) : a.keyText = b.keyText := by
  cases h with
  | bytes _ h => exact keyText_bytes_iff.mpr h
  | single _ hx hy => exact keyText_f32_iff.mpr (.inr ⟨hx, hy⟩)
  | double _ hx hy => exact keyText_f64_iff.mpr (.inr ⟨hx, hy⟩)

end Atom

namespace Scalar

variable {s : Scalar} {a b : Atom}

/-- Maps of messages have no keys that collide. -/
theorem not_collides (hs : s.isMapKey) (ha : s.holds a) : ¬a.Collides b := by
  intro h
  cases h <;> cases s <;> simp [isMapKey, holds] at hs ha

/-- Keys of one type have the same text if they are equal or collide. -/
theorem keyText_eq_iff (ha : s.holds a) (hb : s.holds b) :
    a.keyText = b.keyText ↔ a = b ∨ a.Collides b := by
  constructor
  · intro h
    by_cases hs : s.isMapKey
    · exact .inl (keyText_inj hs ha hb h)
    rw [or_iff_not_imp_left]
    intro hne
    cases s <;> first | exact absurd rfl hs | skip
    case double =>
      cases a <;> cases ha
      cases b <;> cases hb
      rcases Atom.keyText_f64_iff.mp h with rfl | ⟨hx, hy⟩
      · exact absurd rfl hne
      · exact .double (fun h => hne (congrArg Atom.f64 h)) hx hy
    case float =>
      cases a <;> cases ha
      cases b <;> cases hb
      rcases Atom.keyText_f32_iff.mp h with rfl | ⟨hx, hy⟩
      · exact absurd rfl hne
      · exact .single (fun h => hne (congrArg Atom.f32 h)) hx hy
    case bytes =>
      cases a <;> cases ha
      cases b <;> cases hb
      exact .bytes (fun h => hne (congrArg Atom.bytes h)) (Atom.keyText_bytes_iff.mp h)
  · rintro (rfl | h)
    · rfl
    · exact h.keyText_eq

end Scalar

/-! ### Entries -/

namespace MapValue

theorem keyText?_of_coerce {m : MapValue} {key : Value} {k : Atom}
    (h : key.coerce m.keyType = .ok k) : m.keyText? key = some k.keyText := by
  rw [keyText?, h]
  rfl

/-- An entry is found under the text of its key. -/
theorem get?_insert {m : MapValue} {key : Value} {k l : Atom} {v : Value}
    (h : key.coerce m.keyType = .ok l) : (m.insert k v).get? key =
      if k.keyText = l.keyText then some v else m.get? key := by
  have hinsert : (m.insert k v).keyText? key = some l.keyText := keyText?_of_coerce h
  rw [get?, hinsert, get?, keyText?_of_coerce h, insert]
  simp only [Option.bind_eq_bind, Option.bind_some, Keyed.find?_insert]
  split <;> rfl

/-- Two values that stand for keys of a map stand for keys with the same text exactly if these are
equal or collide, and then an entry that is put in under one of them is found under the other. All
other keys keep their entries. In a map that may be part of a message no keys collide. -/
theorem set_of_coerce (m : MapValue) {key key' : Value} {k k' : Atom}
    (hk : key.coerce m.keyType = .ok k) (hk' : key'.coerce m.keyType = .ok k') :
    (k.keyText = k'.keyText ↔ Value.same (.atom k) (.atom k') ∨ k.Collides k') ∧
      (m.keyType.isMapKey → ¬k.Collides k') ∧
      ∀ v w, m.fit v = .ok w → ∃ n, m.set key v = .ok n ∧
        (Value.same (.atom k) (.atom k') ∨ k.Collides k' → n.get? key' = some w) ∧
        (¬(Value.same (.atom k) (.atom k') ∨ k.Collides k') → n.get? key' = m.get? key') := by
  have hholds := Value.holds_of_coerce hk
  have hsame : Value.same (.atom k) (.atom k') = true ↔ k = k' := by simp [Value.same]
  have htext : k.keyText = k'.keyText ↔ Value.same (.atom k) (.atom k') ∨ k.Collides k' := by
    rw [hsame]
    exact Scalar.keyText_eq_iff hholds (Value.holds_of_coerce hk')
  refine ⟨htext, fun hs => Scalar.not_collides hs hholds, fun v w hv => ?_⟩
  refine ⟨m.insert k w, ?_, fun h => ?_, fun h => ?_⟩
  · rw [set, hk, hv]
    rfl
  · rw [get?_insert hk', if_pos (htext.mpr h)]
  · rw [get?_insert hk', if_neg fun heq => h (htext.mp heq)]

/-- A map from numbers of 64 bits with an entry under a tenth of 32 bits. -/
def tenths : MapValue :=
  (empty .double (.scalar .int32) none).insert (.f64 0x3fb99999a0000000) (.atom (.i32 1))

/-- A tenth of 64 bits is another key, and leaves the entry alone. -/
theorem set_of_coerce_tenths :
    Value.coerce .double (.atom (.f64 0x3fb999999999999a)) = .ok (.f64 0x3fb999999999999a) ∧
      Value.coerce .double (.atom (.f32 0x3dcccccd)) = .ok (.f64 0x3fb99999a0000000) ∧
      ∃ n, tenths.set (.atom (.f64 0x3fb999999999999a)) (.atom (.i32 2)) = .ok n ∧
        n.get? (.atom (.f32 0x3dcccccd)) = some (.atom (.i32 1)) := by
  have hdouble : Value.coerce .double (.atom (.f64 0x3fb999999999999a)) =
      .ok (.f64 0x3fb999999999999a) := rfl
  have hsingle : Value.coerce .double (.atom (.f32 0x3dcccccd)) =
      .ok (.f64 0x3fb99999a0000000) := by
    decide +kernel
  obtain ⟨-, -, hset⟩ := set_of_coerce tenths hdouble hsingle
  obtain ⟨n, hn, -, hkeep⟩ := hset (.atom (.i32 2)) (.atom (.i32 2)) (by rfl)
  refine ⟨hdouble, hsingle, n, hn, ?_⟩
  rw [hkeep, tenths, get?_insert hsingle, if_pos rfl]
  rintro (h | h)
  · exact absurd h (by simp [Value.same])
  · cases h with
    | double _ hx _ => exact absurd hx (by decide)

/-- Bytes of the same length are different keys with the same text: of two entries the second one is
left. -/
theorem set_of_coerce_bytes :
    Value.coerce .bytes (.atom (.bytes [1])) = .ok (.bytes [1]) ∧
      Value.coerce .bytes (.atom (.bytes [2])) = .ok (.bytes [2]) ∧
      Value.same (.atom (.bytes [1])) (.atom (.bytes [2])) = false ∧
      (Atom.bytes [1]).keyText = (Atom.bytes [2]).keyText ∧
      ((empty .bytes (.scalar .int32) none).run [.set (.atom (.bytes [1])) (.atom (.i32 1)),
        .set (.atom (.bytes [2])) (.atom (.i32 2))]).entries = [(.bytes [2], .atom (.i32 2))] := by
  refine ⟨rfl, rfl, by simp [Value.same], Atom.keyText_bytes_iff.mpr rfl, ?_⟩
  cbv

end MapValue

end Protobuf

import Mathlib.Algebra.Order.Group.Unbundled.Int
import Mathlib.Tactic.Ring
import Protobuf.Proofs.Wire.Varint
import Protobuf.Wire.Zigzag

/-!
# Zigzag numbers are undone

Both directions are computed on words, so that their laws hold for words of any width. A number and
its zigzag number are compared as natural numbers: with the sign spread over the word, the exclusive
or is either nothing or the complement. As integers they are compared by their distance from zero,
which decides on the length of a varint.

## Main definitions

* `Zigzag.Numbers` — words that count the integers by their distance from zero.

## Main results

* `Zigzag.toNat_interleave`, `Zigzag.toNat_separate` — the two directions in plain arithmetic
* `Zigzag.separate_interleave`, `Zigzag.interleave_separate` — each undoes the other
* `Zigzag.decode32_encode32`, `Zigzag.decode64_encode64` — one undoes the other
* `Zigzag.numbers_both` — what zigzag numbers are for
-/

namespace Protobuf.Zigzag

/-! ### Words of any width -/

variable {w : Nat}

/-- The arithmetic shift to the last bit spreads the sign. -/
theorem sshiftRight_last (x : BitVec w) :
    x.sshiftRight (w - 1) = if x.msb then BitVec.allOnes w else 0#w := by
  refine BitVec.eq_of_getLsbD_eq fun i hi => ?_
  have hlast : w - 1 + i < w → w - 1 + i = w - 1 := by omega
  rw [BitVec.getLsbD_sshiftRight, decide_eq_false (by omega : ¬w ≤ i), Bool.not_false,
    Bool.true_and]
  have hif : (if w - 1 + i < w then x.getLsbD (w - 1 + i) else x.msb) = x.msb := by
    split
    · rename_i h
      rw [hlast h, BitVec.msb_eq_getLsbD_last]
    · rfl
  rw [hif]
  cases x.msb <;> simp [hi]

/-- The doubled number, less the carry; its complement for a negative one. -/
theorem toNat_interleave (x : BitVec w) :
    ((x <<< 1) ^^^ x.sshiftRight (w - 1)).toNat =
      if x.msb then 2 ^ w - 1 - 2 * x.toNat % 2 ^ w else 2 * x.toNat % 2 ^ w := by
  have hshift : (x <<< 1).toNat = 2 * x.toNat % 2 ^ w := by
    rw [BitVec.toNat_shiftLeft, Nat.shiftLeft_eq, Nat.pow_one, Nat.mul_comm]
  rw [sshiftRight_last]
  cases x.msb
  · simp only [Bool.false_eq_true, if_false, BitVec.xor_zero, hshift]
  · simp only [if_true, BitVec.xor_allOnes, BitVec.toNat_not, hshift]

/-- Half the number; the complement for an odd one. -/
theorem toNat_separate (u : BitVec w) (hw : 0 < w) :
    ((u >>> 1) ^^^ -(u &&& 1#w)).toNat =
      if u.toNat % 2 = 1 then 2 ^ w - 1 - u.toNat / 2 else u.toNat / 2 := by
  have hhalf : (u >>> 1).toNat = u.toNat / 2 := by
    rw [BitVec.toNat_ushiftRight, Nat.shiftRight_eq_div_pow, Nat.pow_one]
  have hone : (1#w).toNat = 1 := by
    rw [BitVec.toNat_ofNat, Nat.mod_eq_of_lt (Nat.one_lt_two_pow (by omega))]
  have hlow : (u &&& 1#w).toNat = u.toNat % 2 := by
    rw [BitVec.toNat_and, hone, Nat.and_one_is_mod]
  rcases Nat.mod_two_eq_zero_or_one u.toNat with h | h
  · have hzero : u &&& 1#w = 0#w := BitVec.eq_of_toNat_eq (by rw [hlow, h]; simp)
    rw [if_neg (by omega), hzero, BitVec.neg_zero, BitVec.xor_zero, hhalf]
  · have hone' : u &&& 1#w = 1#w := BitVec.eq_of_toNat_eq (by rw [hlow, h, hone])
    rw [if_pos h, hone', BitVec.neg_one_eq_allOnes, BitVec.xor_allOnes, BitVec.toNat_not, hhalf]

theorem separate_interleave (x : BitVec w) (hw : 0 < w) :
    (((x <<< 1) ^^^ x.sshiftRight (w - 1)) >>> 1) ^^^
      -(((x <<< 1) ^^^ x.sshiftRight (w - 1)) &&& 1#w) = x := by
  have hx := x.isLt
  have hmsb := BitVec.msb_eq_decide x
  have hpow := Nat.two_pow_pred_add_two_pow_pred hw
  refine BitVec.eq_of_toNat_eq ?_
  rw [toNat_separate _ hw, toNat_interleave]
  rcases Nat.lt_or_ge x.toNat (2 ^ (w - 1)) with hlt | hge
  · have : x.msb = false := by rw [hmsb]; simpa using hlt
    rw [this, Nat.mod_eq_of_lt (by omega : 2 * x.toNat < 2 ^ w)]
    simp
  · have : x.msb = true := by rw [hmsb]; simpa using hge
    have hmod : 2 * x.toNat % 2 ^ w = 2 * x.toNat - 2 ^ w := by
      rw [Nat.mod_eq_sub_mod (by omega), Nat.mod_eq_of_lt (by omega)]
    rw [this, if_pos rfl, hmod, if_pos (by omega)]
    omega

theorem interleave_separate (u : BitVec w) (hw : 0 < w) :
    (((u >>> 1) ^^^ -(u &&& 1#w)) <<< 1) ^^^
      ((u >>> 1) ^^^ -(u &&& 1#w)).sshiftRight (w - 1) = u := by
  have hu := u.isLt
  have hpow := Nat.two_pow_pred_add_two_pow_pred hw
  have hseparate := toNat_separate u hw
  have hmsb := BitVec.msb_eq_decide ((u >>> 1) ^^^ -(u &&& 1#w))
  refine BitVec.eq_of_toNat_eq ?_
  rw [toNat_interleave]
  rcases Nat.mod_two_eq_zero_or_one u.toNat with heven | hodd
  · rw [if_neg (by omega)] at hseparate
    rw [hseparate, decide_eq_false (by omega)] at hmsb
    rw [hmsb, hseparate, Nat.mod_eq_of_lt (by omega)]
    simp only [Bool.false_eq_true, if_false]
    omega
  · rw [if_pos hodd] at hseparate
    rw [hseparate, decide_eq_true (by omega)] at hmsb
    have hmod : 2 * (2 ^ w - 1 - u.toNat / 2) % 2 ^ w = 2 * (2 ^ w - 1 - u.toNat / 2) - 2 ^ w := by
      rw [Nat.mod_eq_sub_mod (by omega), Nat.mod_eq_of_lt (by omega)]
    rw [hmsb, if_pos rfl, hseparate, hmod]
    omega

/-- In integers nothing wraps around: the double, and one less than that of the opposite. -/
theorem intCast_toNat_interleave (x : BitVec w) (hw : 0 < w) :
    (((x <<< 1) ^^^ x.sshiftRight (w - 1)).toNat : ℤ) =
      if 0 ≤ x.toInt then 2 * x.toInt else -2 * x.toInt - 1 := by
  have hx := x.isLt
  have hmsb := BitVec.msb_eq_decide x
  have hpow := Nat.two_pow_pred_add_two_pow_pred hw
  rw [toNat_interleave, BitVec.toInt_eq_msb_cond]
  rcases Nat.lt_or_ge x.toNat (2 ^ (w - 1)) with hlt | hge
  · rw [hmsb, decide_eq_false (by omega), Nat.mod_eq_of_lt (by omega)]
    simp only [Bool.false_eq_true, if_false]
    rw [if_pos (by omega)]
    omega
  · have hmod : 2 * x.toNat % 2 ^ w = 2 * x.toNat - 2 ^ w := by
      rw [Nat.mod_eq_sub_mod (by omega), Nat.mod_eq_of_lt (by omega)]
    rw [hmsb, decide_eq_true hge, hmod]
    simp only [if_true]
    rw [if_neg (by omega)]
    omega

/-! ### Integers -/

theorem decode32_encode32 (n : Int32) : decode32 (encode32 n) = n := by
  refine Int32.toBitVec_inj.mp ?_
  simpa [encode32, decode32] using separate_interleave n.toBitVec (by decide)

theorem decode64_encode64 (n : Int64) : decode64 (encode64 n) = n := by
  refine Int64.toBitVec_inj.mp ?_
  simpa [encode64, decode64] using separate_interleave n.toBitVec (by decide)

theorem encode32_decode32 (u : UInt32) : encode32 (decode32 u) = u := by
  refine UInt32.toBitVec_inj.mp ?_
  simpa [encode32, decode32] using interleave_separate u.toBitVec (by decide)

theorem encode64_decode64 (u : UInt64) : encode64 (decode64 u) = u := by
  refine UInt64.toBitVec_inj.mp ?_
  simpa [encode64, decode64] using interleave_separate u.toBitVec (by decide)

theorem intCast_toNat_encode32 (n : Int32) : ((encode32 n).toNat : ℤ) =
    if 0 ≤ n.toInt then 2 * n.toInt else -2 * n.toInt - 1 := by
  have hbits : (encode32 n).toBitVec = (n.toBitVec <<< 1) ^^^ n.toBitVec.sshiftRight 31 := by
    simp [encode32]
  rw [← UInt32.toNat_toBitVec, hbits]
  exact intCast_toNat_interleave n.toBitVec (by decide)

theorem intCast_toNat_encode64 (n : Int64) : ((encode64 n).toNat : ℤ) =
    if 0 ≤ n.toInt then 2 * n.toInt else -2 * n.toInt - 1 := by
  have hbits : (encode64 n).toBitVec = (n.toBitVec <<< 1) ^^^ n.toBitVec.sshiftRight 63 := by
    simp [encode64]
  rw [← UInt64.toNat_toBitVec, hbits]
  exact intCast_toNat_interleave n.toBitVec (by decide)

/-! ### Distance from zero -/

section

variable {S U : Type}

/-- The words of `U` count the integers of `S` by their distance from zero, a negative one before the
positive one at the same distance. As varints, which `word` makes of them, those that are closer to
zero are never longer. -/
structure Numbers (value : S → ℤ) (word : U → UInt64) (encode : S → U) (decode : U → S) : Prop where
  number : ∀ n, ((word (encode n)).toNat : ℤ) =
    if 0 ≤ value n then 2 * value n else -2 * value n - 1
  decode_encode : ∀ n, decode (encode n) = n
  encode_decode : ∀ u, encode (decode u) = u
  lt_of_closer : ∀ a b, |value a| < |value b| → word (encode a) < word (encode b)
  length_le_of_closer : ∀ a b, |value a| < |value b| →
    (Varint.encode (word (encode a))).length ≤ (Varint.encode (word (encode b))).length

variable {value : S → ℤ} {word : U → UInt64} {encode : S → U} {decode : U → S}

theorem lt_of_closer_of_number (hnumber : ∀ n, ((word (encode n)).toNat : ℤ) =
      if 0 ≤ value n then 2 * value n else -2 * value n - 1) {a b : S}
    (h : |value a| < |value b|) : word (encode a) < word (encode b) := by
  have ha : ((word (encode a)).toNat : ℤ) ≤ 2 * |value a| := by
    rw [hnumber a]
    rcases abs_cases (value a) with ⟨habs, _⟩ | ⟨habs, _⟩ <;> rw [habs] <;> split <;> omega
  have hb : 2 * |value b| - 1 ≤ ((word (encode b)).toNat : ℤ) := by
    rw [hnumber b]
    rcases abs_cases (value b) with ⟨habs, _⟩ | ⟨habs, _⟩ <;> rw [habs] <;> split <;> omega
  rw [UInt64.lt_iff_toNat_lt]
  omega

theorem Numbers.of_number (hnumber : ∀ n, ((word (encode n)).toNat : ℤ) =
      if 0 ≤ value n then 2 * value n else -2 * value n - 1)
    (hdecode : ∀ n, decode (encode n) = n) (hencode : ∀ u, encode (decode u) = u) :
    Numbers value word encode decode where
  number := hnumber
  decode_encode := hdecode
  encode_decode := hencode
  lt_of_closer _ _ := lt_of_closer_of_number hnumber
  length_le_of_closer a b h := by
    rw [Varint.length_encode, Varint.length_encode]
    exact Varint.length_mono (UInt64.le_of_lt (lt_of_closer_of_number hnumber h))

end

/-- **Zigzag numbers count the integers by their distance from zero**, in both widths. -/
theorem numbers_both : Numbers Int32.toInt UInt32.toUInt64 encode32 decode32 ∧
    Numbers Int64.toInt id encode64 decode64 :=
  ⟨.of_number (fun n => by rw [UInt32.toNat_toUInt64]; exact intCast_toNat_encode32 n)
      decode32_encode32 encode32_decode32,
    .of_number intCast_toNat_encode64 decode64_encode64 encode64_decode64⟩

end Protobuf.Zigzag

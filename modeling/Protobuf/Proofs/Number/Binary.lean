import Mathlib
import Protobuf.Number.Binary

/-!
# Floating-point numbers that change their width and back

A number of 32 bits is widened to one of 64 bits without loss, so narrowing it gives the number
back, bit by bit. What this comes down to is that rounding a quotient that a word stands for gives
the word, in either format, and that each finite word of 32 bits has a word of 64 bits that stands
for the same number. Only a signalling NaN does not come back: it has become quiet.

## Main definitions

* `FloatFormat.value` — the number that a finite word without sign stands for.
* `IsSignalling` — a word of 32 bits stands for no number, and is not quiet.

## Main results

* `FloatFormat.nearest_eq` — a word is the nearest one to the number that it stands for
* `narrow_widen` — words that are not signalling survive a change of width
-/

namespace Protobuf

namespace FloatFormat

variable {f : FloatFormat}

/-- The number that a finite word stands for, less its sign. -/
def value (f : FloatFormat) (bits : Nat) : ℚ :=
  (f.magnitude bits).1 * 2 ^ (f.magnitude bits).2

/-! ### Quotients and powers -/

theorem pow_toNat {b : ℚ} (hb : b ≠ 0) (u : ℤ) : b ^ u.toNat = b ^ u * b ^ (-u).toNat := by
  rcases Int.le_total 0 u with h | h
  · obtain ⟨n, rfl⟩ := Int.eq_ofNat_of_zero_le h
    simp
  · obtain ⟨n, hn⟩ := Int.eq_ofNat_of_zero_le (Int.neg_nonneg_of_nonpos h)
    obtain rfl : u = -(n : ℤ) := by omega
    simp [hb]

theorem two_pow_toNat (u : ℤ) : (2 : ℚ) ^ u.toNat = 2 ^ u * 2 ^ (-u).toNat :=
  pow_toNat two_ne_zero u

section

variable {num den : Nat}

/-- A quotient is compared with a power of two by shifting. -/
theorem shiftLeft_le_iff (hden : 0 < den) (u : ℤ) :
    den <<< u.toNat ≤ num <<< (-u).toNat ↔ (2 : ℚ) ^ u ≤ num / den := by
  have hpos : (0 : ℚ) < 2 ^ (-u).toNat := by positivity
  rw [← Nat.cast_le (α := ℚ), Nat.shiftLeft_eq, Nat.shiftLeft_eq, le_div_iff₀ (by positivity)]
  push_cast
  rw [two_pow_toNat, ← mul_assoc, mul_le_mul_iff_of_pos_right hpos, mul_comm]

/-- A quotient lies within two powers of two of that of the leading bits. -/
theorem bracket_quotient (hnum : 0 < num) (hden : 0 < den) :
    (2 : ℚ) ^ ((num.log2 : ℤ) - den.log2 - 1) < num / den ∧
      (num : ℚ) / den < 2 ^ ((num.log2 : ℤ) - den.log2 + 1) := by
  have hlow : (2 : ℚ) ^ num.log2 ≤ num := by exact_mod_cast Nat.log2_self_le (Nat.ne_of_gt hnum)
  have hhigh : (num : ℚ) < 2 ^ (num.log2 + 1) := by exact_mod_cast Nat.lt_log2_self
  have hlow' : (2 : ℚ) ^ den.log2 ≤ den := by exact_mod_cast Nat.log2_self_le (Nat.ne_of_gt hden)
  have hhigh' : (den : ℚ) < 2 ^ (den.log2 + 1) := by exact_mod_cast Nat.lt_log2_self
  have hpos : (0 : ℚ) < den := by exact_mod_cast hden
  have hbelow : (2 : ℚ) ^ ((num.log2 : ℤ) - den.log2 - 1) = 2 ^ num.log2 / 2 ^ (den.log2 + 1) := by
    rw [sub_sub, zpow_sub₀ two_ne_zero]
    norm_cast
  have habove : (2 : ℚ) ^ ((num.log2 : ℤ) - den.log2 + 1) = 2 ^ (num.log2 + 1) / 2 ^ den.log2 := by
    rw [sub_add_eq_add_sub, zpow_sub₀ two_ne_zero]
    norm_cast
  rw [hbelow, habove]
  constructor
  · rw [div_lt_div_iff₀ (by positivity) hpos]
    calc (2 : ℚ) ^ num.log2 * den ≤ num * den := by gcongr
      _ < num * 2 ^ (den.log2 + 1) := by gcongr
  · rw [div_lt_div_iff₀ hpos (by positivity)]
    calc (num : ℚ) * 2 ^ den.log2 ≤ num * den := by gcongr
      _ < 2 ^ (num.log2 + 1) * den := by gcongr

/-- The exponent of the largest power of two that does not exceed a quotient. -/
theorem log2Quotient_eq {k : ℤ} (hnum : 0 < num) (hden : 0 < den) (hlow : (2 : ℚ) ^ k ≤ num / den)
    (hhigh : (num : ℚ) / den < 2 ^ (k + 1)) : log2Quotient num den = k := by
  have hlt : ∀ {a b : ℤ}, (2 : ℚ) ^ a < 2 ^ b → a < b := (zpow_lt_zpow_iff_right₀ one_lt_two).mp
  obtain ⟨hbelow, habove⟩ := bracket_quotient hnum hden
  have hk := hlt (hlow.trans_lt habove)
  have hk' := hlt (hbelow.trans hhigh)
  simp only [log2Quotient]
  split
  · rename_i hle
    have hguess := hlt (((shiftLeft_le_iff hden _).mp hle).trans_lt hhigh)
    omega
  · rename_i hgt
    have hquotient := lt_of_not_ge fun h => hgt ((shiftLeft_le_iff hden _).mpr h)
    have hguess := hlt (hlow.trans_lt hquotient)
    omega

/-- A quotient that is an integer is not rounded. -/
theorem roundQuotient_mul (k : Nat) {den : Nat} (hden : 0 < den) :
    roundQuotient (k * den) den = k := by
  rw [roundQuotient, Nat.mul_div_cancel k hden, Nat.mul_mod_left]
  exact if_pos (.inl (by omega))

/-- A quotient that is a multiple of the unit is not rounded. -/
theorem nearest_eq_of_unit {k : Nat} {unit : ℤ} (hnum : 0 < num) (hden : 0 < den)
    (h : (num : ℚ) / den = k * 2 ^ unit)
    (hunit : max (log2Quotient num den - f.fractionBits) f.minExponent = unit) :
    f.nearest num den = min ((unit - f.minExponent).toNat <<< f.fractionBits + k) f.infinity := by
  have hshift : num <<< (-unit).toNat = k * den <<< unit.toNat := by
    have hcast : ((num <<< (-unit).toNat : ℕ) : ℚ) = (k * den <<< unit.toNat : ℕ) := by
      rw [Nat.shiftLeft_eq, Nat.shiftLeft_eq]
      push_cast
      rw [two_pow_toNat unit, (div_eq_iff (by positivity)).mp h]
      ring
    exact_mod_cast hcast
  have hpos : 0 < den <<< unit.toNat := by
    rw [Nat.shiftLeft_eq]
    positivity
  rw [nearest, if_neg (Nat.ne_of_gt hnum)]
  dsimp only
  rw [hunit, hshift, roundQuotient_mul k hpos]

theorem log2Quotient_of_eq {k : Nat} {e : ℤ} (hk : 0 < k) (hnum : 0 < num) (hden : 0 < den)
    (h : (num : ℚ) / den = k * 2 ^ e) : log2Quotient num den = k.log2 + e := by
  have hlow : (2 : ℚ) ^ k.log2 ≤ k := by exact_mod_cast Nat.log2_self_le (Nat.ne_of_gt hk)
  have hhigh : (k : ℚ) < 2 ^ (k.log2 + 1) := by exact_mod_cast Nat.lt_log2_self
  have hpos : (0 : ℚ) < 2 ^ e := by positivity
  refine log2Quotient_eq hnum hden ?_ ?_
  · rw [h, zpow_add₀ two_ne_zero, zpow_natCast]
    exact mul_le_mul_of_nonneg_right hlow hpos.le
  · rw [h, add_right_comm, zpow_add₀ two_ne_zero]
    exact mul_lt_mul_of_pos_right (by exact_mod_cast hhigh) hpos

/-! ### Words -/

theorem infinity_eq (f : FloatFormat) :
    f.infinity = (2 ^ f.exponentBits - 1) * 2 ^ f.fractionBits := by
  rw [infinity, Nat.shiftLeft_eq, Nat.shiftLeft_eq, one_mul]

theorem infinity_lt_signBit (f : FloatFormat) : f.infinity < f.signBit := by
  rw [infinity_eq, signBit, Nat.shiftLeft_eq, one_mul, add_comm, pow_add]
  exact Nat.mul_lt_mul_of_pos_right (Nat.sub_lt (by positivity) one_pos) (by positivity)

/-- The mantissa and the exponent of a word without sign. -/
theorem magnitude_of_lt {w : Nat} (hw : w < f.signBit) :
    f.magnitude w = if w / 2 ^ f.fractionBits = 0 then (w % 2 ^ f.fractionBits, f.minExponent)
      else (2 ^ f.fractionBits + w % 2 ^ f.fractionBits,
        f.minExponent + (w / 2 ^ f.fractionBits - 1 : Nat)) := by
  simp only [magnitude, unsigned, Nat.mod_eq_of_lt hw, Nat.shiftRight_eq_div_pow, Nat.shiftLeft_eq,
    one_mul]

/-- A number without a leading bit is not rounded. -/
theorem nearest_subnormal {w : Nat} (hw : w < 2 ^ f.fractionBits) (hinfinity : w ≤ f.infinity)
    (hden : 0 < den) (h : (num : ℚ) / den = w * 2 ^ f.minExponent) : f.nearest num den = w := by
  rcases Nat.eq_zero_or_pos num with rfl | hnum
  · have hpow : (2 : ℚ) ^ f.minExponent ≠ 0 := by positivity
    have hzero : (w : ℚ) = 0 := by simpa [hpow] using h.symm
    rw [nearest, if_pos rfl]
    exact_mod_cast hzero.symm
  · have hpos : 0 < w := by
      rcases Nat.eq_zero_or_pos w with rfl | hpos
      · have hquotient : (0 : ℚ) < num / den := by positivity
        simp [h] at hquotient
      · exact hpos
    have hlog := (Nat.log2_lt (Nat.ne_of_gt hpos)).mpr hw
    rw [nearest_eq_of_unit hnum hden h
      (by rw [log2Quotient_of_eq hpos hnum hden h]; omega), sub_self]
    simpa using hinfinity

/-- A number with a leading bit is not rounded. -/
theorem nearest_normal {field fraction : Nat} (hfraction : fraction < 2 ^ f.fractionBits)
    (hinfinity : (field + 1) * 2 ^ f.fractionBits + fraction ≤ f.infinity) (hden : 0 < den)
    (h : (num : ℚ) / den =
      (2 ^ f.fractionBits + fraction : ℕ) * 2 ^ (f.minExponent + (field : ℤ))) :
    f.nearest num den = (field + 1) * 2 ^ f.fractionBits + fraction := by
  have hmantissa : 0 < 2 ^ f.fractionBits + fraction := by positivity
  have hnum : 0 < num := by
    rcases Nat.eq_zero_or_pos num with rfl | hnum
    · have hpos : (0 : ℚ) <
          (2 ^ f.fractionBits + fraction : ℕ) * 2 ^ (f.minExponent + (field : ℤ)) := by positivity
      rw [← h] at hpos
      simp at hpos
    · exact hnum
  have hlog : (2 ^ f.fractionBits + fraction).log2 = f.fractionBits := by
    refine (Nat.log2_eq_iff (Nat.ne_of_gt hmantissa)).mpr ⟨Nat.le_add_right _ _, ?_⟩
    rw [pow_succ]
    omega
  rw [nearest_eq_of_unit hnum hden h
    (by rw [log2Quotient_of_eq hmantissa hnum hden h, hlog]; omega), add_sub_cancel_left,
    Int.toNat_natCast, Nat.shiftLeft_eq, ← add_assoc, ← Nat.succ_mul]
  exact min_eq_left hinfinity

/-- The word that stands for a number is the nearest one to it. -/
theorem nearest_eq {w : Nat} (hw : w < f.infinity) (hden : 0 < den)
    (h : (num : ℚ) / den = f.value w) : f.nearest num den = w := by
  have hsplit := Nat.div_add_mod' w (2 ^ f.fractionBits)
  have hfraction := Nat.mod_lt w (Nat.two_pow_pos f.fractionBits)
  rw [value, magnitude_of_lt (hw.trans f.infinity_lt_signBit)] at h
  cases hfield : w / 2 ^ f.fractionBits with
  | zero =>
    rw [hfield, zero_mul, zero_add] at hsplit
    rw [if_pos hfield, hsplit] at h
    rw [hsplit] at hfraction
    exact nearest_subnormal hfraction hw.le hden h
  | succ field =>
    rw [hfield] at hsplit
    rw [if_neg (by omega), hfield] at h
    rw [← hsplit] at hw
    exact (nearest_normal hfraction hw.le hden h).trans hsplit

end

/-! ### Signs -/

/-- A word with a sign. -/
def word (f : FloatFormat) (negative : Bool) (u : Nat) : Nat :=
  (if negative then f.signBit else 0) + u

section

variable {negative : Bool} {u : Nat}

@[simp] theorem unsigned_word (hu : u < f.signBit) : f.unsigned (f.word negative u) = u := by
  cases negative <;> simp [unsigned, word, Nat.mod_eq_of_lt hu]

@[simp] theorem isNegative_word (hu : u < f.signBit) :
    f.isNegative (f.word negative u) = negative := by
  cases negative <;> simp [isNegative, word, hu]

theorem word_eq {bits : Nat} (h : bits < 2 * f.signBit) :
    f.word (f.isNegative bits) (f.unsigned bits) = bits := by
  rw [word, isNegative, unsigned]
  by_cases hsign : f.signBit ≤ bits
  · rw [if_pos (decide_eq_true hsign), Nat.mod_eq_sub_mod hsign, Nat.mod_eq_of_lt (by omega)]
    omega
  · rw [if_neg (by simpa using hsign), Nat.mod_eq_of_lt (by omega), zero_add]

theorem dvd_signBit (f : FloatFormat) : 2 ^ f.fractionBits ∣ f.signBit := by
  rw [signBit, Nat.shiftLeft_eq, one_mul, pow_add]
  exact Nat.dvd_mul_right _ _

/-- The fraction field does not depend on the sign. -/
theorem fraction_word : f.word negative u % 2 ^ f.fractionBits = u % 2 ^ f.fractionBits := by
  cases negative
  · simp [word]
  · rw [word, if_pos rfl, Nat.add_mod, Nat.mod_eq_zero_of_dvd f.dvd_signBit, zero_add, Nat.mod_mod]

theorem magnitude_word (hu : u < f.signBit) : f.magnitude (f.word negative u) = f.magnitude u := by
  have hunsigned : f.unsigned u = u := Nat.mod_eq_of_lt hu
  simp only [magnitude, unsigned_word hu, hunsigned, Nat.shiftLeft_eq, one_mul, fraction_word]

end

/-! ### Both formats -/

theorem div_eq_value (m : Nat) (e : ℤ) :
    ((m <<< e.toNat : ℕ) : ℚ) / (1 <<< (-e).toNat : ℕ) = m * 2 ^ e := by
  rw [div_eq_iff (by rw [Nat.shiftLeft_eq]; positivity), Nat.shiftLeft_eq, Nat.shiftLeft_eq]
  push_cast
  rw [two_pow_toNat]
  ring

/-- The nearest word to the number that a word of another format stands for is the one that stands
for the same number, if there is one. -/
theorem nearest_magnitude {g : FloatFormat} {u w : Nat} (hw : w < f.infinity)
    (h : g.value u = f.value w) :
    f.nearest ((g.magnitude u).1 <<< (g.magnitude u).2.toNat)
      (1 <<< (-(g.magnitude u).2).toNat) = w := by
  refine nearest_eq hw (by rw [Nat.shiftLeft_eq]; positivity) ?_
  rw [div_eq_value]
  exact h

/-- The mantissa and the exponent of a number of 32 bits are small. -/
theorem magnitude_single {u : Nat} (hu : u < single.infinity) :
    (single.magnitude u).1 < 2 ^ 24 ∧ -149 ≤ (single.magnitude u).2 ∧
      (single.magnitude u).2 ≤ 104 := by
  have hsingle : single.infinity = 255 * 2 ^ 23 := by decide
  have hmin : single.minExponent = -149 := by decide
  have hfraction : u % 2 ^ single.fractionBits < 2 ^ 23 := Nat.mod_lt u (by decide)
  have hfield : u / 2 ^ single.fractionBits < 255 := by
    rw [Nat.div_lt_iff_lt_mul (by positivity)]
    exact hsingle ▸ hu
  rw [magnitude_of_lt (hu.trans single.infinity_lt_signBit), hmin]
  split
  · exact ⟨by dsimp only; omega, le_refl _, by dsimp only; omega⟩
  · refine ⟨?_, by dsimp only; omega, by dsimp only; omega⟩
    show 2 ^ 23 + _ < _
    omega

/-- A number with a small mantissa is one of 64 bits: the leading bit of the mantissa is moved to
where this format has it. -/
theorem exists_double_of_mantissa {m : Nat} {e : ℤ} (hpos : 0 < m) (hm : m < 2 ^ 24)
    (hlow : -149 ≤ e) (hhigh : e ≤ 104) :
    ∃ w < double.infinity, (m : ℚ) * 2 ^ e = double.value w := by
  have hinfinity : double.infinity = 2047 * 2 ^ 52 := by decide
  have hlog : m.log2 ≤ 23 := Nat.lt_succ_iff.mp ((Nat.log2_lt (Nat.ne_of_gt hpos)).mpr hm)
  have hleading := Nat.log2_self_le (Nat.ne_of_gt hpos)
  have hbelow : m < 2 ^ (m.log2 + 1) := Nat.lt_log2_self
  obtain ⟨field, hfield⟩ := Int.eq_ofNat_of_zero_le (a := m.log2 + e + 1022) (by omega)
  have hpow : 2 ^ m.log2 * 2 ^ (52 - m.log2) = 2 ^ 52 := by rw [← pow_add]; congr 1; omega
  obtain ⟨fraction, hfraction⟩ := Nat.exists_eq_add_of_le
    (hpow ▸ Nat.mul_le_mul_right (2 ^ (52 - m.log2)) hleading)
  have hfraction' : fraction < 2 ^ 52 := by
    have hscaled := Nat.mul_lt_mul_of_pos_right hbelow (Nat.two_pow_pos (52 - m.log2))
    rw [pow_succ, mul_right_comm, hpow, hfraction] at hscaled
    omega
  have hfields : (field + 1) * 2 ^ 52 + fraction < double.infinity := by
    rw [hinfinity]
    omega
  refine ⟨(field + 1) * 2 ^ 52 + fraction, hfields, ?_⟩
  have hdiv : ((field + 1) * 2 ^ 52 + fraction) / 2 ^ double.fractionBits = field + 1 := by
    show _ / 2 ^ 52 = _
    omega
  have hmod : ((field + 1) * 2 ^ 52 + fraction) % 2 ^ double.fractionBits = fraction := by
    show _ % 2 ^ 52 = _
    omega
  have hmin : double.minExponent + (field + 1 - 1 : ℕ) = e - (52 - m.log2 : ℕ) := by
    have hvalue : double.minExponent = -1074 := by decide
    rw [hvalue]
    omega
  rw [value, magnitude_of_lt (hfields.trans double.infinity_lt_signBit), hdiv, hmod,
    if_neg (Nat.succ_ne_zero field), hmin]
  show (m : ℚ) * 2 ^ e = (2 ^ 52 + fraction : ℕ) * 2 ^ (e - (52 - m.log2 : ℕ))
  rw [← hfraction, zpow_sub₀ two_ne_zero, zpow_natCast]
  push_cast
  field_simp

/-- Each finite number of 32 bits is one of 64 bits. -/
theorem exists_double {u : Nat} (hu : u < single.infinity) :
    ∃ w < double.infinity, single.value u = double.value w := by
  obtain ⟨hm, hlow, hhigh⟩ := magnitude_single hu
  rcases Nat.eq_zero_or_pos (single.magnitude u).1 with hzero | hpos
  · refine ⟨0, by decide, ?_⟩
    have hdouble : (double.magnitude 0).1 = 0 := by decide
    rw [value, hzero, value, hdouble]
    simp
  · exact exists_double_of_mantissa hpos hm hlow hhigh

end FloatFormat

open FloatFormat

/-- The word stands for no number, and its quiet bit is not set. -/
def IsSignalling (bits : UInt32) : Prop :=
  single.isNaN bits.toNat = true ∧ bits.toNat % 2 ^ 23 < 2 ^ 22

instance (bits : UInt32) : Decidable (IsSignalling bits) :=
  inferInstanceAs (Decidable (_ ∧ _))

section

variable {bits : UInt32} {wide : UInt64} {negative : Bool} {u w : Nat}

theorem toNat_word_double (hw : w < double.signBit) :
    (double.word negative w).toUInt64.toNat = double.word negative w := by
  have hsign : double.signBit = 2 ^ 63 := by decide
  refine UInt64.toNat_ofNat_of_lt' ?_
  rw [word, UInt64.size]
  split <;> omega

/-- A word of 32 bits is made of its sign and of what is left without it. -/
theorem exists_word_single (bits : UInt32) : ∃ negative u, u < single.signBit ∧
    bits.toNat = single.word negative u ∧ bits = (single.word negative u).toUInt32 := by
  have hsign : single.signBit = 2 ^ 31 := by decide
  have hword :
      single.word (single.isNegative bits.toNat) (single.unsigned bits.toNat) = bits.toNat :=
    word_eq (by have := bits.toNat_lt; omega)
  refine ⟨_, single.unsigned bits.toNat, Nat.mod_lt _ (by decide), hword.symm, ?_⟩
  rw [hword]
  exact (UInt32.ofNat_toNat).symm

/-- The sign of a word is kept, and what is left without it is rounded by itself. -/
theorem widen_eq (hu : u < single.signBit) (hbits : bits.toNat = single.word negative u) :
    widen bits = (double.word negative
      (if single.infinity < u then double.infinity ||| 1 <<< 51 ||| (u % 2 ^ 23) <<< 29
      else if u = single.infinity then double.infinity
      else double.nearest ((single.magnitude u).1 <<< (single.magnitude u).2.toNat)
        (1 <<< (-(single.magnitude u).2).toNat))).toUInt64 := by
  have hfraction : single.word negative u % 1 <<< 23 = u % 2 ^ 23 := fraction_word
  simp only [widen, hbits, isNaN, isInfinite, unsigned_word hu, isNegative_word hu,
    magnitude_word hu, hfraction, decide_eq_true_eq]
  rfl

theorem narrow_eq (hw : w < double.signBit) (hwide : wide.toNat = double.word negative w) :
    narrow wide = (single.word negative
      (if double.infinity < w then single.infinity ||| 1 <<< 22 ||| (w % 2 ^ 52) >>> 29
      else if w = double.infinity then single.infinity
      else single.nearest ((double.magnitude w).1 <<< (double.magnitude w).2.toNat)
        (1 <<< (-(double.magnitude w).2).toNat))).toUInt32 := by
  have hfraction : double.word negative w % 1 <<< 52 = w % 2 ^ 52 := fraction_word
  simp only [narrow, hwide, isNaN, isInfinite, unsigned_word hw, isNegative_word hw,
    magnitude_word hw, hfraction, decide_eq_true_eq]
  rfl

end

/-- Bits above a number are added to it. -/
theorem or_eq_add {k i r : Nat} (h : r < 2 ^ i) : k * 2 ^ i ||| r = k * 2 ^ i + r := by
  rw [mul_comm]
  exact (Nat.two_pow_add_eq_or_of_lt h k).symm

/-- The leading bit of a number may be set again. -/
theorem two_pow_or_eq {i p : Nat} (h : 2 ^ i ≤ p) (h' : p < 2 ^ (i + 1)) : 2 ^ i ||| p = p := by
  rw [pow_succ] at h'
  have hp : 1 * 2 ^ i ||| (p - 2 ^ i) = p := by
    rw [or_eq_add (by omega)]
    omega
  rw [one_mul] at hp
  rw [← hp, ← Nat.or_assoc, Nat.or_self]

section

variable {r : Nat}

/-- The fraction of a quiet NaN is put next to the field of the exponent. -/
theorem or_double_infinity (hlow : 2 ^ 22 ≤ r) (hhigh : r < 2 ^ 23) :
    double.infinity ||| 1 <<< 51 ||| r <<< 29 = double.infinity + r * 2 ^ 29 := by
  have hdouble : double.infinity = 2047 * 2 ^ 52 := by decide
  rw [Nat.shiftLeft_eq, Nat.shiftLeft_eq, one_mul, Nat.or_assoc, two_pow_or_eq (by omega) (by omega),
    hdouble]
  exact or_eq_add (by omega)

theorem or_single_infinity (hlow : 2 ^ 22 ≤ r) (hhigh : r < 2 ^ 23) :
    single.infinity ||| 1 <<< 22 ||| r = single.infinity + r := by
  have hsingle : single.infinity = 255 * 2 ^ 23 := by decide
  rw [Nat.shiftLeft_eq, one_mul, Nat.or_assoc, two_pow_or_eq hlow (by omega), hsingle]
  exact or_eq_add (by omega)

end

/-- A number of 32 bits comes back from 64 bits, and so does a NaN that is quiet. -/
theorem narrow_widen {bits : UInt32} (h : ¬IsSignalling bits) : narrow (widen bits) = bits := by
  obtain ⟨negative, u, hu, hbits, hword⟩ := exists_word_single bits
  have hsingle : single.infinity = 255 * 2 ^ 23 := by decide
  have hdouble : double.infinity = 2047 * 2 ^ 52 := by decide
  have hwiden := widen_eq hu hbits
  rcases Nat.lt_trichotomy u single.infinity with hfinite | hinfinite | hnan
  · obtain ⟨w, hw, hvalue⟩ := exists_double hfinite
    have hw' := hw.trans double.infinity_lt_signBit
    rw [if_neg (by omega), if_neg (by omega), nearest_magnitude hw hvalue] at hwiden
    rw [hwiden, narrow_eq hw' (toNat_word_double hw'), if_neg (by omega), if_neg (by omega),
      nearest_magnitude hfinite hvalue.symm, hword]
  · have hw' := double.infinity_lt_signBit
    rw [if_neg (by omega), if_pos hinfinite] at hwiden
    rw [hwiden, narrow_eq hw' (toNat_word_double hw'), if_neg (by omega), if_pos rfl, ← hinfinite,
      hword]
  · -- The quiet bit is set already, so setting it again changes nothing.
    have hquiet : 2 ^ 22 ≤ u % 2 ^ 23 := by
      by_contra hlow
      refine h ⟨?_, ?_⟩
      · rw [hbits, isNaN, unsigned_word hu]
        exact decide_eq_true hnan
      · have hfraction : single.word negative u % 2 ^ 23 = u % 2 ^ 23 := fraction_word
        rw [hbits]
        omega
    have hfraction : u % 2 ^ 23 < 2 ^ 23 := Nat.mod_lt u (by positivity)
    have hsign : single.signBit = 2 ^ 31 := by decide
    have hsign' : double.signBit = 2 ^ 63 := by decide
    have hw' : double.infinity + u % 2 ^ 23 * 2 ^ 29 < double.signBit := by omega
    have hpayload : ((double.infinity + u % 2 ^ 23 * 2 ^ 29) % 2 ^ 52) / 2 ^ 29 = u % 2 ^ 23 := by
      omega
    have hparts : single.infinity + u % 2 ^ 23 = u := by omega
    rw [if_pos hnan, or_double_infinity hquiet hfraction] at hwiden
    rw [hwiden, narrow_eq hw' (toNat_word_double hw'), if_pos (by omega), Nat.shiftRight_eq_div_pow,
      hpayload, or_single_infinity hquiet hfraction, hparts, hword]

/-- A signalling NaN is quiet when it comes back. -/
example : IsSignalling 0x7f800001 ∧ narrow (widen 0x7f800001) = 0x7fc00001 := by
  decide

end Protobuf

import Mathlib
import Protobuf.Number.Notation
import Protobuf.Proofs.Number.Binary

/-!
# Printed numbers are told apart

The numbers that are rounded to a finite word form an interval, from halfway to the word below to
halfway to the word above. The intervals of neighbouring words have one end in common, and it
belongs to the word with the even mantissa, so no number is in two intervals. The decimal that is
printed for a word lies in the interval of the word, and it can be told from its digits, wherever
the point is put. So words that are printed alike are equal, unless they stand for no number at all.

Nothing of this depends on how short the decimal is.

## Main definitions

* `Decimal.value`, `Decimal.read` — the number that a decimal is, and that a text is read as.
* `FloatFormat.lower`, `FloatFormat.upper`, `FloatFormat.Covers` — the interval of a word.

## Main results

* `FloatFormat.eq_of_covers` — no number is in the intervals of two words
* `FloatFormat.covers_shortest` — the decimal that is printed is in the interval of its word
* `Decimal.read_positional` — positional notation is read as the decimal
* `FloatFormat.plain_eq_plain_iff` — what can be told of a word by its text
-/

namespace Protobuf

/-! ### Decimals as numbers -/

namespace Decimal

/-- The number that a decimal is. -/
def value (d : Decimal) : ℚ :=
  d.digits * 10 ^ d.exponent

/-- The number that digits with a point stand for. -/
def read (text : List Char) : ℚ :=
  let whole := text.takeWhile (· ≠ '.')
  let behind := (text.dropWhile (· ≠ '.')).drop 1
  Nat.ofDigitChars 10 (whole ++ behind) 0 / 10 ^ behind.length

/-- Both sides of a comparison are multiplied by the same powers of two and ten. -/
theorem compareBinary_eq (d : Decimal) (m : Nat) (q : ℤ) :
    d.compareBinary m q = cmp d.value (m * 2 ^ q) := by
  have hpos : (0 : ℚ) < 10 ^ (-d.exponent).toNat * 2 ^ (-q).toNat := by positivity
  rw [compareBinary, ← cmp_eq_compare, ← cmp_mul_pos_right hpos,
    ← (Nat.strictMono_cast (α := ℚ)).cmp_map_eq, Nat.shiftLeft_eq, Nat.shiftLeft_eq]
  push_cast
  congr 1
  · rw [value, Nat.pow_eq]
    push_cast
    rw [FloatFormat.pow_toNat (by norm_num)]
    ring
  · rw [Nat.pow_eq]
    push_cast
    rw [FloatFormat.two_pow_toNat]
    ring

/-- Zeros that are moved into the exponent leave the number alone. -/
theorem value_stripZeros (d : Decimal) (fuel : Nat) : (d.stripZeros fuel).value = d.value := by
  induction fuel generalizing d with
  | zero => rfl
  | succ fuel ih =>
    rw [stripZeros]
    split
    · rename_i h
      obtain ⟨k, hk⟩ := Nat.dvd_of_mod_eq_zero h.2
      rw [ih, value, value, hk, Nat.mul_div_cancel_left k (by positivity),
        zpow_add_one₀ (by norm_num)]
      push_cast
      ring
    · rfl

/-! ### Reading what is written -/

variable {d : Decimal}

theorem isDigit_of_mem_digitText {c : Char} (h : c ∈ d.digitText) : c.isDigit = true :=
  Nat.isDigit_of_mem_toDigits (by decide) (by decide) h

theorem ofDigitChars_digitText (d : Decimal) : Nat.ofDigitChars 10 d.digitText 0 = d.digits :=
  Nat.ofDigitChars_toDigits (by decide) (by decide)

theorem ne_point_of_isDigit {c : Char} (h : c.isDigit = true) : c ≠ '.' := by
  rintro rfl
  exact absurd h (by decide)

/-- Digits without a point are read as an integer. -/
theorem read_whole {text : List Char} (h : ∀ c ∈ text, c.isDigit = true) :
    read text = Nat.ofDigitChars 10 text 0 := by
  have hpoint : ∀ c ∈ text, decide (c ≠ '.') = true := fun c hc =>
    decide_eq_true (ne_point_of_isDigit (h c hc))
  rw [read, List.takeWhile_eq_self_iff.mpr hpoint, List.dropWhile_eq_nil_iff.mpr hpoint]
  simp

/-- Digits with a point among them are read as a part of the integer without the point. -/
theorem read_point {whole : List Char} (h : ∀ c ∈ whole, c.isDigit = true)
    (behind : List Char) : read (whole ++ '.' :: behind) =
      Nat.ofDigitChars 10 (whole ++ behind) 0 / 10 ^ behind.length := by
  have hpoint : ∀ c ∈ whole, decide (c ≠ '.') = true := fun c hc =>
    decide_eq_true (ne_point_of_isDigit (h c hc))
  rw [read, List.takeWhile_append_of_pos hpoint, List.dropWhile_append_of_pos hpoint]
  simp

/-- A decimal with digits behind the point, which may be more than it has. -/
theorem value_of_neg (h : d.exponent < 0) :
    d.value = d.digits / 10 ^ (-d.exponent).toNat := by
  obtain ⟨n, hn⟩ := Int.eq_ofNat_of_zero_le (Int.neg_nonneg_of_nonpos h.le)
  obtain hexponent : d.exponent = -(n : ℤ) := by omega
  rw [value, hexponent, neg_neg, Int.toNat_natCast, zpow_neg, zpow_natCast, div_eq_mul_inv]

/-- Positional notation is read as the decimal. -/
theorem read_positional (d : Decimal) : read d.positional = d.value := by
  rw [positional]
  dsimp only
  split
  · rename_i h
    obtain ⟨n, hn⟩ := Int.eq_ofNat_of_zero_le h
    have hdigits : ∀ c ∈ d.digitText ++ List.replicate n '0', c.isDigit = true := by
      intro c hc
      rcases List.mem_append.mp hc with hc | hc
      · exact isDigit_of_mem_digitText hc
      · rw [List.eq_of_mem_replicate hc]
        rfl
    rw [hn, Int.toNat_natCast, read_whole hdigits, Nat.ofDigitChars_append, ofDigitChars_digitText,
      Nat.ofDigitChars_replicate_zero, value, hn, zpow_natCast]
    push_cast
    ring
  · rename_i h
    rw [value_of_neg (by omega)]
    generalize (-d.exponent).toNat = behind
    split
    · rename_i hlt
      rw [read_point fun c hc => isDigit_of_mem_digitText (List.mem_of_mem_take hc),
        List.take_append_drop, ofDigitChars_digitText, List.length_drop, Nat.sub_sub_self hlt.le]
    · rename_i hge
      have hzero : ∀ c ∈ ['0'], c.isDigit = true := by simp
      have hread := read_point hzero
        (List.replicate (behind - d.digitText.length) '0' ++ d.digitText)
      rw [List.singleton_append] at hread
      rw [hread, List.singleton_append, ← List.cons_append, ← List.replicate_succ,
        Nat.ofDigitChars_append, Nat.ofDigitChars_replicate_zero, mul_zero, ofDigitChars_digitText,
        List.length_append, List.length_replicate, Nat.sub_add_cancel (not_lt.mp hge)]

/-- Positional notation is made of digits and a point. -/
theorem isDigit_of_mem_positional {c : Char} (h : c ∈ d.positional) :
    c.isDigit = true ∨ c = '.' := by
  have hzeros : ∀ {n}, c ∈ List.replicate n '0' → c.isDigit = true := fun hc => by
    rw [List.eq_of_mem_replicate hc]
    rfl
  rw [positional] at h
  dsimp only at h
  split at h
  · rcases List.mem_append.mp h with hc | hc
    · exact .inl (isDigit_of_mem_digitText hc)
    · exact .inl (hzeros hc)
  · split at h
    · rcases List.mem_append.mp h with hc | hc
      · exact .inl (isDigit_of_mem_digitText (List.mem_of_mem_take hc))
      · rcases List.mem_cons.mp hc with rfl | hc
        · exact .inr rfl
        · exact .inl (isDigit_of_mem_digitText (List.mem_of_mem_drop hc))
    · rcases List.mem_cons.mp h with rfl | hc
      · exact .inl rfl
      · rcases List.mem_cons.mp hc with rfl | hc
        · exact .inr rfl
        · rcases List.mem_append.mp hc with hc | hc
          · exact .inl (hzeros hc)
          · exact .inl (isDigit_of_mem_digitText hc)

end Decimal

/-! ### Intervals -/

namespace FloatFormat

variable {f : FloatFormat} {u v w : Nat} {x : ℚ}

/-- The mantissa is the least one with a leading bit, so the word below is closer than the one
above. -/
def AtPower (f : FloatFormat) (w : Nat) : Prop :=
  (f.magnitude w).1 = 1 <<< f.fractionBits ∧ f.minExponent < (f.magnitude w).2

instance (f : FloatFormat) (w : Nat) : Decidable (f.AtPower w) :=
  inferInstanceAs (Decidable (_ ∧ _))

/-- The lower end of the interval of a finite word. -/
def lower (f : FloatFormat) (w : Nat) : ℚ :=
  (4 * (f.magnitude w).1 - (if f.AtPower w then 1 else 2) : ℕ) * 2 ^ ((f.magnitude w).2 - 2)

/-- The upper end of the interval of a finite word. -/
def upper (f : FloatFormat) (w : Nat) : ℚ :=
  (4 * (f.magnitude w).1 + 2 : ℕ) * 2 ^ ((f.magnitude w).2 - 2)

/-- The number is in the interval of a finite word, to which the ends belong if the mantissa is
even. -/
structure Covers (f : FloatFormat) (w : Nat) (x : ℚ) : Prop where
  lower_le : f.lower w ≤ x
  le_upper : x ≤ f.upper w
  even : x = f.lower w ∨ x = f.upper w → (f.magnitude w).1 % 2 = 0

theorem identifies_iff {d : Decimal} : f.identifies w d = true ↔ f.Covers w d.value := by
  have hsplit : ∀ {lo hi : Ordering} {even : Prop} [Decidable even],
      ((lo == .gt || (decide even && lo == .eq)) &&
        (hi == .lt || (decide even && hi == .eq))) = true ↔
      lo ≠ .lt ∧ hi ≠ .gt ∧ (lo = .eq ∨ hi = .eq → even) := by
    intro lo hi even _
    by_cases heven : even <;> cases lo <;> cases hi <;> simp [heven]
  have hvalue : (f.lower w ≤ d.value ∧ d.value ≤ f.upper w ∧
      (d.value = f.lower w ∨ d.value = f.upper w → (f.magnitude w).1 % 2 = 0)) ↔
      f.Covers w d.value :=
    ⟨fun ⟨hlower, hupper, heven⟩ => ⟨hlower, hupper, heven⟩, fun h => ⟨h.1, h.2, h.3⟩⟩
  rw [identifies, hsplit, ← hvalue, Decimal.compareBinary_eq, Decimal.compareBinary_eq,
    cmp_eq_eq_iff, cmp_eq_eq_iff, ne_eq, ne_eq, cmp_eq_lt_iff, cmp_eq_gt_iff, not_lt, not_lt]
  rfl

/-- A word is in its own interval. -/
theorem covers_value (f : FloatFormat) (w : Nat) : f.Covers w (f.value w) := by
  have hpos : (0 : ℚ) < 2 ^ ((f.magnitude w).2 - 2) := by positivity
  have hvalue : f.value w = (4 * (f.magnitude w).1 : ℕ) * 2 ^ ((f.magnitude w).2 - 2) := by
    rw [value, zpow_sub₀ two_ne_zero]
    push_cast
    ring
  have hupper : f.value w < f.upper w := by
    rw [hvalue, upper]
    refine mul_lt_mul_of_pos_right ?_ hpos
    exact_mod_cast Nat.lt_add_of_pos_right two_pos
  refine ⟨?_, hupper.le, ?_⟩
  · rw [hvalue, lower]
    refine mul_le_mul_of_nonneg_right ?_ hpos.le
    exact_mod_cast Nat.sub_le _ _
  · rintro (h | h)
    · rw [hvalue, lower, mul_left_inj' hpos.ne'] at h
      have hcast : 4 * (f.magnitude w).1 =
          4 * (f.magnitude w).1 - if f.AtPower w then 1 else 2 := by
        exact_mod_cast h
      split at hcast <;> omega
    · exact absurd h hupper.ne

theorem lower_lt_upper (f : FloatFormat) (w : Nat) : f.lower w < f.upper w := by
  rw [lower, upper]
  refine mul_lt_mul_of_pos_right ?_ (by positivity)
  have hlt : 4 * (f.magnitude w).1 - (if f.AtPower w then 1 else 2) <
      4 * (f.magnitude w).1 + 2 := by
    split <;> omega
  exact_mod_cast hlt

/-! ### Words side by side -/

theorem magnitude_fst_mod_two (hf : 0 < f.fractionBits) (hw : w < f.signBit) :
    (f.magnitude w).1 % 2 = w % 2 := by
  have htwo : 2 ∣ 2 ^ f.fractionBits := dvd_pow_self 2 hf.ne'
  have hmod := Nat.mod_mod_of_dvd w htwo
  rw [magnitude_of_lt hw]
  split
  · exact hmod
  · rw [Nat.add_mod, Nat.mod_eq_zero_of_dvd htwo, hmod, zero_add, Nat.mod_mod]

section

variable {field fraction : Nat}

theorem magnitude_subnormal (hfraction : fraction < 2 ^ f.fractionBits)
    (hw : fraction < f.signBit) : f.magnitude fraction = (fraction, f.minExponent) := by
  rw [magnitude_of_lt hw, if_pos (Nat.div_eq_of_lt hfraction), Nat.mod_eq_of_lt hfraction]

theorem magnitude_normal (hfraction : fraction < 2 ^ f.fractionBits)
    (hw : (field + 1) * 2 ^ f.fractionBits + fraction < f.signBit) :
    f.magnitude ((field + 1) * 2 ^ f.fractionBits + fraction) =
      (2 ^ f.fractionBits + fraction, f.minExponent + field) := by
  have hdiv : ((field + 1) * 2 ^ f.fractionBits + fraction) / 2 ^ f.fractionBits = field + 1 := by
    rw [Nat.mul_comm, Nat.mul_add_div (by positivity), Nat.div_eq_of_lt hfraction, add_zero]
  rw [magnitude_of_lt hw, hdiv, if_neg (Nat.succ_ne_zero field), Nat.mul_add_mod',
    Nat.mod_eq_of_lt hfraction,
    Nat.add_sub_cancel]

theorem lower_of_not_atPower {m : Nat} {q : ℤ} (h : f.magnitude w = (m, q))
    (hpower : m = 2 ^ f.fractionBits → q = f.minExponent) :
    f.lower w = (4 * m - 2 : ℕ) * 2 ^ (q - 2) := by
  rw [lower, if_neg ?_, h]
  rw [AtPower, h, Nat.shiftLeft_eq, one_mul]
  rintro ⟨hm, hq⟩
  exact absurd (hpower hm) hq.ne'

theorem lower_of_atPower {q : ℤ} (h : f.magnitude w = (2 ^ f.fractionBits, q))
    (hq : f.minExponent < q) : f.lower w = (4 * 2 ^ f.fractionBits - 1 : ℕ) * 2 ^ (q - 2) := by
  rw [lower, if_pos ?_, h]
  rw [AtPower, h, Nat.shiftLeft_eq, one_mul]
  exact ⟨rfl, hq⟩

/-- Halfway to the word above is halfway down from there. -/
theorem lower_succ (hw : w + 1 < f.signBit) : f.lower (w + 1) = f.upper w := by
  have hw' := (Nat.lt_succ_self w).trans hw
  have hsplit := Nat.div_add_mod' w (2 ^ f.fractionBits)
  have hfraction := Nat.mod_lt w (Nat.two_pow_pos f.fractionBits)
  generalize w % 2 ^ f.fractionBits = fraction at hsplit hfraction
  rw [upper]
  rcases Nat.lt_or_ge (fraction + 1) (2 ^ f.fractionBits) with hlt | hge
  · -- The mantissa goes up by one.
    cases hfield : w / 2 ^ f.fractionBits with
    | zero =>
      obtain rfl : fraction = w := by rwa [hfield, zero_mul, zero_add] at hsplit
      rw [lower_of_not_atPower (magnitude_subnormal hlt hw) fun h => absurd h hlt.ne,
        magnitude_subnormal hfraction hw']
      congr 2
    | succ field =>
      rw [hfield] at hsplit
      have hnext : (field + 1) * 2 ^ f.fractionBits + (fraction + 1) = w + 1 := by
        rw [← add_assoc, hsplit]
      rw [← hnext, lower_of_not_atPower (magnitude_normal hlt (hnext ▸ hw)) fun h => by omega,
        ← hsplit, magnitude_normal hfraction (hsplit ▸ hw')]
      congr 2
  · -- The fraction overflows into the field of the exponent.
    have hpow : fraction + 1 = 2 ^ f.fractionBits := by omega
    have hnext : (w / 2 ^ f.fractionBits + 1) * 2 ^ f.fractionBits + 0 = w + 1 := by
      rw [add_mul, ← hsplit, one_mul, add_zero, add_assoc, hpow, hsplit]
    rw [← hnext]
    have hmag := magnitude_normal (f := f) (by positivity) (hnext ▸ hw)
    cases hfield : w / 2 ^ f.fractionBits with
    | zero =>
      obtain rfl : fraction = w := by rwa [hfield, zero_mul, zero_add] at hsplit
      rw [hfield] at hmag
      rw [lower_of_not_atPower hmag fun _ => by simp, magnitude_subnormal hfraction hw', add_zero,
        ← hpow, Nat.cast_zero, add_zero]
      congr 2
    | succ field =>
      rw [hfield] at hsplit hmag
      have hexponent : f.minExponent + (field + 1 : ℕ) - 2 = f.minExponent + field - 2 + 1 := by
        push_cast
        ring
      rw [lower_of_atPower hmag (by omega), ← hsplit, magnitude_normal hfraction (hsplit ▸ hw'),
        hexponent, zpow_add_one₀ two_ne_zero, ← hpow]
      have hcast : (4 * (fraction + 1) - 1) * 2 = 4 * (fraction + 1 + fraction) + 2 := by omega
      rw [← hcast]
      push_cast
      ring

end

theorem upper_le_lower (h : u < v) (hv : v < f.signBit) : f.upper u ≤ f.lower v := by
  induction v, h using Nat.le_induction with
  | base => exact (lower_succ hv).ge
  | succ v hle ih =>
    rw [lower_succ hv]
    exact (ih ((Nat.lt_succ_self v).trans hv)).trans (f.lower_lt_upper v).le

/-- Intervals have no more than an end in common, and that only if the words are neighbours. -/
theorem Covers.not_of_lt (hf : 0 < f.fractionBits) (h : u < v) (hv : v < f.signBit)
    (hcovers : f.Covers u x) : ¬f.Covers v x := by
  intro hcovers'
  have hends := upper_le_lower h hv
  have hupper : x = f.upper u := le_antisymm hcovers.le_upper (hends.trans hcovers'.lower_le)
  have hlower : x = f.lower v := le_antisymm (hcovers.le_upper.trans hends) hcovers'.lower_le
  have heven := hcovers.even (.inr hupper)
  have heven' := hcovers'.even (.inl hlower)
  rw [magnitude_fst_mod_two hf (h.trans hv)] at heven
  rw [magnitude_fst_mod_two hf hv] at heven'
  have hgap := upper_le_lower (u := u + 1) (by omega) hv
  have hnext := f.lower_lt_upper (u + 1)
  rw [lower_succ (by omega), ← hupper, hlower] at hnext
  exact absurd hgap (not_le.mpr hnext)

/-- No number is in the intervals of two words. -/
theorem eq_of_covers (hf : 0 < f.fractionBits) (hu : u < f.signBit) (hv : v < f.signBit)
    (h : f.Covers u x) (h' : f.Covers v x) : u = v := by
  rcases Nat.lt_trichotomy u v with hlt | heq | hgt
  · exact absurd h' (h.not_of_lt hf hlt hv)
  · exact heq
  · exact absurd h (h'.not_of_lt hf hgt hu)

/-! ### What is printed -/

theorem covers_neighbour? {e : ℤ} {d : Decimal} (h : f.neighbour? w e = some d) :
    f.Covers w d.value := by
  rw [neighbour?] at h
  dsimp only at h
  split at h
  · rename_i hlower hupper
    split at h <;> cases h
    · exact identifies_iff.mp hlower
    · exact identifies_iff.mp hupper
  · rename_i hlower _
    cases h
    exact identifies_iff.mp hlower
  · rename_i _ hupper
    cases h
    exact identifies_iff.mp hupper
  · cases h

/-- The decimal with all the digits of a number is the number. -/
theorem value_exact (m : Nat) (q : ℤ) :
    (Decimal.mk (m <<< q.toNat * Nat.pow 5 (-q).toNat) (min q 0)).value = m * 2 ^ q := by
  have hten : (10 : ℚ) ^ min q 0 = 2 ^ min q 0 * 5 ^ min q 0 := by
    rw [← mul_zpow]
    norm_num
  rw [Decimal.value, Nat.shiftLeft_eq, Nat.pow_eq, hten]
  push_cast
  rcases Int.le_total 0 q with h | h
  · obtain ⟨n, rfl⟩ := Int.eq_ofNat_of_zero_le h
    simp
  · obtain ⟨n, hn⟩ := Int.eq_ofNat_of_zero_le (Int.neg_nonneg_of_nonpos h)
    obtain rfl : q = -(n : ℤ) := by omega
    rw [min_eq_left h]
    simp
    field_simp

/-- The decimal that is printed is in the interval of its word. -/
theorem covers_shortest (f : FloatFormat) (w : Nat) : f.Covers w (f.shortest w).value := by
  rw [shortest]
  dsimp only
  split
  · rename_i hzero
    have hvalue : f.value w = Decimal.value ⟨0, 0⟩ := by simp [value, hzero, Decimal.value]
    exact hvalue ▸ f.covers_value w
  · rw [Decimal.value_stripZeros]
    cases hfound : (List.range 17).findSome? fun i => f.neighbour? w
        (decimalScale (f.magnitude w).1 (f.magnitude w).2 - (i + 1 : Nat)) with
    | none =>
      rw [Option.getD_none, value_exact]
      exact f.covers_value w
    | some d =>
      obtain ⟨i, -, hi⟩ := List.exists_of_findSome?_eq_some hfound
      exact covers_neighbour? hi

/-! ### Texts of words -/

variable {bits bits' : Nat}

/-- What is written of a word that stands for a number, less its sign. -/
def body (f : FloatFormat) (bits : Nat) : List Char :=
  if f.isInfinite bits then "inf".toList else (f.shortest bits).positional

theorem plain_of_isNaN (h : f.isNaN bits = true) : f.plain bits = "NaN" :=
  if_pos h

theorem toList_plain (h : f.isNaN bits = false) :
    (f.plain bits).toList = if f.isNegative bits then '-' :: f.body bits else f.body bits := by
  rw [plain, writeWith, if_neg (by simp [h]), String.toList_ofList]
  rfl

/-- Signs and capital letters do not occur in numbers. -/
theorem not_mem_body {c : Char} (hdigit : c.isDigit = false)
    (hothers : c ∉ ['.', 'i', 'n', 'f']) : c ∉ f.body bits := by
  intro hc
  rw [body] at hc
  split at hc
  · exact hothers (List.mem_cons_of_mem _ hc)
  · rcases Decimal.isDigit_of_mem_positional hc with h | rfl
    · exact absurd h (by simp [hdigit])
    · exact hothers List.mem_cons_self

theorem magnitude_unsigned (f : FloatFormat) (bits : Nat) :
    f.magnitude (f.unsigned bits) = f.magnitude bits := by
  have hunsigned : f.unsigned (f.unsigned bits) = f.unsigned bits := Nat.mod_mod _ _
  have hfraction : f.unsigned bits % 1 <<< f.fractionBits = bits % 1 <<< f.fractionBits := by
    rw [Nat.shiftLeft_eq, one_mul]
    exact Nat.mod_mod_of_dvd bits f.dvd_signBit
  rw [magnitude, magnitude, hunsigned, hfraction]

theorem Covers.congr (h : f.Covers w x) (hmagnitude : f.magnitude v = f.magnitude w) :
    f.Covers v x := by
  have hpower : f.AtPower v ↔ f.AtPower w := by simp only [AtPower, hmagnitude]
  have hlower : f.lower v = f.lower w := by simp only [lower, hmagnitude, hpower]
  have hupper : f.upper v = f.upper w := by simp only [upper, hmagnitude]
  exact ⟨hlower ▸ h.lower_le, hupper ▸ h.le_upper, hlower ▸ hupper ▸ hmagnitude ▸ h.even⟩

/-- Numbers with the same text are the same, signs apart. -/
theorem unsigned_eq_of_body_eq (hf : 0 < f.fractionBits) (h : f.body bits = f.body bits') :
    f.unsigned bits = f.unsigned bits' := by
  have hinfinite : ∀ {bits}, f.isInfinite bits = true → f.unsigned bits = f.infinity :=
    of_decide_eq_true
  have hletters : ∀ {d : Decimal}, "inf".toList ≠ d.positional := by
    intro d hinf
    have hmem : 'i' ∈ d.positional := hinf ▸ List.mem_cons_self
    exact absurd (Decimal.isDigit_of_mem_positional hmem) (by decide)
  rw [body, body] at h
  split at h <;> split at h
  · rename_i hbits hbits'
    rw [hinfinite hbits, hinfinite hbits']
  · exact absurd h hletters
  · exact absurd h.symm hletters
  · have hvalue := congrArg Decimal.read h
    rw [Decimal.read_positional, Decimal.read_positional] at hvalue
    have hpos : 0 < f.signBit := by
      rw [signBit, Nat.shiftLeft_eq]
      positivity
    refine eq_of_covers hf (Nat.mod_lt _ hpos) (Nat.mod_lt _ hpos)
      ((f.covers_shortest bits).congr (f.magnitude_unsigned bits)) ?_
    rw [hvalue]
    exact (f.covers_shortest bits').congr (f.magnitude_unsigned bits')

/-- The sign and the rest of a text can be told from each other. -/
theorem sign_and_body_of_plain_eq (hnumber : f.isNaN bits = false)
    (hnumber' : f.isNaN bits' = false)
    (h : f.plain bits = f.plain bits') :
    f.isNegative bits = f.isNegative bits' ∧ f.body bits = f.body bits' := by
  have hlist := congrArg String.toList h
  rw [toList_plain hnumber, toList_plain hnumber'] at hlist
  have hsign : ∀ {bits : Nat}, '-' ∉ f.body bits := not_mem_body (by decide) (by decide)
  cases hneg : f.isNegative bits <;> cases hneg' : f.isNegative bits' <;>
    simp [hneg, hneg'] at hlist
  · exact ⟨rfl, hlist⟩
  · exact absurd (hlist ▸ List.mem_cons_self) hsign
  · exact absurd (hlist ▸ List.mem_cons_self) hsign
  · exact ⟨rfl, hlist⟩

theorem plain_ne_of_isNaN (hnumber : f.isNaN bits = false) (hnaN : f.isNaN bits' = true) :
    f.plain bits ≠ f.plain bits' := by
  intro h
  have hmem : 'N' ∈ (f.plain bits).toList := by
    rw [h, plain_of_isNaN hnaN]
    decide
  rw [toList_plain hnumber] at hmem
  have hbody : 'N' ∉ f.body bits := not_mem_body (by decide) (by decide)
  split at hmem
  · rcases List.mem_cons.mp hmem with hsign | hmem
    · exact absurd hsign (by decide)
    · exact hbody hmem
  · exact hbody hmem

/-- Words are told apart by their texts, unless they stand for no number. -/
theorem plain_eq_plain_iff (hf : 0 < f.fractionBits) (hbits : bits < 2 * f.signBit)
    (hbits' : bits' < 2 * f.signBit) :
    f.plain bits = f.plain bits' ↔
      bits = bits' ∨ (f.isNaN bits = true ∧ f.isNaN bits' = true) := by
  constructor
  · intro h
    cases hnaN : f.isNaN bits <;> cases hnaN' : f.isNaN bits'
    · left
      obtain ⟨hnegative, hbody⟩ := sign_and_body_of_plain_eq hnaN hnaN' h
      rw [← word_eq hbits, ← word_eq hbits', hnegative, unsigned_eq_of_body_eq hf hbody]
    · exact absurd h (plain_ne_of_isNaN hnaN hnaN')
    · exact absurd h.symm (plain_ne_of_isNaN hnaN' hnaN)
    · exact .inr ⟨rfl, rfl⟩
  · rintro (rfl | ⟨hnaN, hnaN'⟩)
    · rfl
    · rw [plain_of_isNaN hnaN, plain_of_isNaN hnaN']

/-- The sum of a tenth and two tenths is printed with all its digits. -/
example : double.plain 0x3fd3333333333334 = "0.30000000000000004" := by
  decide +kernel

end FloatFormat

end Protobuf

import Mathlib.Data.Nat.Digits.Lemmas
import Protobuf.Proofs.Wire.Item

/-!
# Varints are numerals to base 128

A varint is a numeral to base 128 with the least significant digit in front. It need not be the
shortest one: zeros may follow the last digit that counts, as long as ten bytes are enough. The
tenth digit is the only one that can be too large for a word, so what is read is the number that is
written, or nothing is read. Among the numerals of a number the one that is written is the shortest.

## Main definitions

* `Varint.IsNumeral`, `Varint.numeral` — the numerals, and the number that bytes write.
* `Varint.Writes` — the bytes are a varint of a word.

## Main results

* `Varint.scanFrom_of_isNumeral`, `Varint.exists_of_scanFrom` — what is read is a numeral
* `Varint.scanFrom_eq_ended_iff` — when more bytes are asked for
* `Varint.length_le_iff`, `Varint.length_encode`, `Varint.length_mono` — the length of a varint
* `Reader.varint_exact` — reading and writing varints, with all that can go wrong
-/

namespace Protobuf

namespace Varint

/-! ### Numerals -/

/-- The bytes are a numeral: each of them but the last announces another one by its high bit. -/
inductive IsNumeral : List UInt8 → Prop
  | last {b : UInt8} (h : b < 128) : IsNumeral [b]
  | more {b : UInt8} {bytes : List UInt8} (h : 128 ≤ b) (hmore : IsNumeral bytes) :
      IsNumeral (b :: bytes)

/-- The number that the low seven bits of the bytes write, the least significant digit first. -/
def numeral (bytes : List UInt8) : ℕ :=
  Nat.ofDigits 128 (bytes.map fun b => b.toNat % 128)

/-- The bytes are a varint of `v`. The number that they write is `v` itself and not only congruent
to it. -/
structure Writes (bytes : List UInt8) (v : UInt64) : Prop where
  isNumeral : IsNumeral bytes
  length_le : bytes.length ≤ maxLength
  numeral_eq : numeral bytes = v.toNat

variable {b : UInt8} {bytes rest : List UInt8}

theorem numeral_cons (b : UInt8) (bytes : List UInt8) :
    numeral (b :: bytes) = b.toNat % 128 + 128 * numeral bytes := by
  rw [numeral, List.map_cons, Nat.ofDigits_cons, numeral]

theorem numeral_singleton (h : b < 128) : numeral [b] = b.toNat := by
  rw [numeral, List.map_singleton, Nat.ofDigits_singleton, Nat.mod_eq_of_lt]
  exact UInt8.lt_iff_toNat_lt.mp h

theorem numeral_lt (bytes : List UInt8) : numeral bytes < 128 ^ bytes.length := by
  have h := Nat.ofDigits_lt_base_pow_length (b := 128) (l := bytes.map fun b => b.toNat % 128)
    (by decide) (by simp [Nat.mod_lt])
  rwa [List.length_map] at h

theorem IsNumeral.length_pos (h : IsNumeral bytes) : 0 < bytes.length := by
  cases h <;> simp

/-! ### Reading

When `read` digits are gone, `left` more may stand behind the next one. The last digit that there is
room for has one bit, so the numbers that are left to be read are those below `2 * 128 ^ left`. -/

section Reading

variable {read left : ℕ}

/-- The tenth byte is refused if it holds more than its one bit, and so if it announces another. -/
theorem scanFrom_refused (hread : read + 1 = maxLength) (hb : 1 < b.toNat) (rest : List UInt8) :
    scanFrom read (b :: rest) = .error .overflow := by
  rw [scanFrom, if_pos ⟨hread, UInt8.lt_iff_toNat_lt.mpr hb⟩]

theorem scanFrom_last (hroom : read + left + 1 = maxLength) (hb : b < 128)
    (hsmall : b.toNat < 2 * 128 ^ left) (rest : List UInt8) :
    scanFrom read (b :: rest) = .ok ⟨b.toNat, 1, rest⟩ := by
  rw [scanFrom, if_neg, if_pos hb]
  rintro ⟨hread, hlarge⟩
  obtain rfl : left = 0 := by omega
  have hlarge : 1 < b.toNat := UInt8.lt_iff_toNat_lt.mp hlarge
  omega

theorem scanFrom_more (hread : read + 1 ≠ maxLength) (hb : 128 ≤ b) (rest : List UInt8) :
    scanFrom read (b :: rest) = (scanFrom (read + 1) rest).map
      fun s => ⟨b.toNat % 128 + 128 * s.value, s.size + 1, s.rest⟩ := by
  have hle : 128 ≤ b.toNat := UInt8.le_iff_toNat_le.mp hb
  have hlow : b.toNat - 128 = b.toNat % 128 := by
    have := b.toNat_lt
    omega
  rw [scanFrom, if_neg (fun hfull => hread hfull.1), if_neg (UInt8.not_lt.mpr hb), hlow]
  cases scanFrom (read + 1) rest <;> rfl

/-- What may become of a byte: there is no room for it, or it is the last one, or another one is
asked for. -/
theorem refused_or_last_or_more (b : UInt8) (hroom : read + left + 1 = maxLength) :
    (left = 0 ∧ 1 < b.toNat) ∨ (b < 128 ∧ b.toNat < 2 * 128 ^ left) ∨
      (128 ≤ b ∧ ∃ l, left = l + 1) := by
  rcases Nat.lt_or_ge b.toNat 128 with hb | hb
  · have hlast : b < 128 := UInt8.lt_iff_toNat_lt.mpr hb
    rcases left with _ | left
    · rcases Nat.lt_or_ge 1 b.toNat with hlarge | hsmall
      · exact .inl ⟨rfl, hlarge⟩
      · exact .inr (.inl ⟨hlast, by rw [Nat.pow_zero]; omega⟩)
    · have := Nat.one_le_pow left 128 (by decide)
      exact .inr (.inl ⟨hlast, by rw [Nat.pow_succ]; omega⟩)
  · have hmore : 128 ≤ b := UInt8.le_iff_toNat_le.mpr hb
    rcases left with _ | left
    · exact .inl ⟨rfl, by omega⟩
    · exact .inr (.inr ⟨hmore, left, rfl⟩)

/-- A numeral is read for the number that it writes. -/
theorem scanFrom_of_isNumeral (h : IsNumeral bytes) (hroom : read + left + 1 = maxLength)
    (hlength : bytes.length ≤ left + 1) (hvalue : numeral bytes < 2 * 128 ^ left)
    (rest : List UInt8) :
    scanFrom read (bytes ++ rest) = .ok ⟨numeral bytes, bytes.length, rest⟩ := by
  induction h generalizing read left with
  | @last b hb =>
    rw [numeral_singleton hb] at hvalue ⊢
    exact scanFrom_last hroom hb hvalue rest
  | @more b bytes hb hmore ih =>
    have hpos := hmore.length_pos
    rw [List.length_cons] at hlength
    obtain ⟨left, rfl⟩ : ∃ l, left = l + 1 := ⟨left - 1, by omega⟩
    rw [numeral_cons, Nat.pow_succ] at hvalue
    have hroom' : read + 1 + left + 1 = maxLength := by omega
    rw [List.cons_append, scanFrom_more (by omega) hb, ih hroom' (by omega) (by omega),
      numeral_cons]
    rfl

/-- What is read is a numeral, and its number. -/
theorem exists_of_scanFrom (left : ℕ) {s : Scanned} (h : scanFrom read bytes = .ok s)
    (hroom : read + left + 1 = maxLength) :
    ∃ digits, bytes = digits ++ s.rest ∧ IsNumeral digits ∧ digits.length = s.size ∧
      numeral digits = s.value ∧ s.size ≤ left + 1 ∧ s.value < 2 * 128 ^ left := by
  induction bytes generalizing read left s with
  | nil => cases h
  | cons b more ih =>
    rcases refused_or_last_or_more b hroom with ⟨rfl, hlarge⟩ | ⟨hb, hsmall⟩ | ⟨hb, left, rfl⟩
    · rw [scanFrom_refused hroom hlarge] at h
      cases h
    · rw [scanFrom_last hroom hb hsmall] at h
      cases h
      exact ⟨[b], rfl, .last hb, rfl, numeral_singleton hb, Nat.le_add_left 1 left, hsmall⟩
    · rw [scanFrom_more (by omega) hb] at h
      cases hscan : scanFrom (read + 1) more with
      | error e =>
        rw [hscan] at h
        cases h
      | ok s' =>
        rw [hscan] at h
        cases h
        obtain ⟨digits, rfl, hdigits, hsize, hvalue, hle, hbound⟩ :=
          ih left hscan (by omega)
        refine ⟨b :: digits, rfl, .more hb hdigits, by rw [List.length_cons, hsize],
          by rw [numeral_cons, hvalue], Nat.succ_le_succ hle, ?_⟩
        have := Nat.mod_lt b.toNat (show 128 > 0 by decide)
        simp only [Nat.pow_succ]
        omega

/-- More bytes are asked for where there are too few of them and each announces another one. -/
theorem scanFrom_eq_ended_iff (left : ℕ) (hroom : read + left + 1 = maxLength) {n : ℕ} :
    scanFrom read bytes = .error (.ended n) ↔
      (∀ b ∈ bytes, 128 ≤ b) ∧ bytes.length ≤ left ∧ n = read + bytes.length := by
  induction bytes generalizing read left with
  | nil => simp [scanFrom, eq_comm]
  | cons b more ih =>
    rw [List.forall_mem_cons, List.length_cons]
    rcases refused_or_last_or_more b hroom with ⟨rfl, hlarge⟩ | ⟨hb, hsmall⟩ | ⟨hb, left, rfl⟩
    · rw [scanFrom_refused hroom hlarge]
      refine iff_of_false (by simp) ?_
      rintro ⟨-, hlength, -⟩
      omega
    · rw [scanFrom_last hroom hb hsmall]
      refine iff_of_false (by simp) ?_
      rintro ⟨⟨hle, -⟩, -⟩
      exact UInt8.not_le.mpr hb hle
    · have hmap : ∀ x : Except Failure Scanned, ∀ f : Scanned → Scanned,
          x.map f = .error (.ended n) ↔ x = .error (.ended n) := by
        rintro (e | s) f <;> simp [Except.map]
      rw [scanFrom_more (by omega) hb, hmap, ih left (by omega)]
      constructor
      · rintro ⟨hall, hlength, rfl⟩
        exact ⟨⟨hb, hall⟩, by omega, by omega⟩
      · rintro ⟨⟨-, hall⟩, hlength, rfl⟩
        exact ⟨hall, by omega, by omega⟩

end Reading

/-! ### Lengths -/

theorem length_digits_pos (n : ℕ) : 0 < (digits n).length :=
  List.length_pos_iff.mpr (digits_ne_nil n)

theorem length_pos (v : UInt64) : 0 < length v := by
  rw [length]
  omega

theorem length_digits_le_iff {n k : ℕ} (hk : 0 < k) : (digits n).length ≤ k ↔ n < 128 ^ k := by
  induction n using Nat.strongRecOn generalizing k with
  | ind n ih =>
    obtain ⟨k, rfl⟩ : ∃ l, k = l + 1 := ⟨k - 1, by omega⟩
    have hpow := Nat.one_le_pow k 128 (by decide)
    rcases Nat.lt_or_ge n 128 with hn | hn
    · rw [digits_of_lt hn, Nat.pow_succ]
      simp only [List.length_singleton]
      omega
    · rw [digits_of_le hn, List.length_cons, Nat.pow_succ, ← Nat.div_lt_iff_lt_mul (by decide)]
      rcases Nat.eq_zero_or_pos k with rfl | hk'
      · have := length_digits_pos (n / 128)
        simp only [Nat.pow_zero]
        omega
      · rw [Nat.add_le_add_iff_right]
        exact ih (n / 128) (by omega) hk'

theorem length_le_iff {v : UInt64} {k : ℕ} (hk : 0 < k) : length v ≤ k ↔ v.toNat < 128 ^ k := by
  have hpow : (128 : ℕ) ^ k = 2 ^ (7 * k) := by rw [Nat.pow_mul]
  have hbits : length v ≤ k ↔ v.toNat.log2 < 7 * k := by
    rw [length]
    omega
  rw [hbits, hpow]
  by_cases hv : v.toNat = 0
  · simp only [hv, Nat.log2_zero, Nat.two_pow_pos, iff_true]
    omega
  · exact Nat.log2_lt hv

/-- The length is that of the bytes that are written. -/
theorem length_encode (v : UInt64) : (encode v).length = length v := by
  have hdigits := length_digits_pos v.toNat
  refine Nat.le_antisymm ?_ ?_
  · exact (length_digits_le_iff (length_pos v)).mpr ((length_le_iff (length_pos v)).mp le_rfl)
  · exact (length_le_iff hdigits).mpr ((length_digits_le_iff hdigits).mp le_rfl)

theorem length_mono {v w : UInt64} (h : v ≤ w) : length v ≤ length w := by
  rw [length_le_iff (length_pos w)]
  refine Nat.lt_of_le_of_lt (UInt64.le_iff_toNat_le.mp h) ?_
  exact (length_le_iff (length_pos w)).mp le_rfl

theorem log2_or_one (n : ℕ) : (n ||| 1).log2 = n.log2 := by
  rcases Nat.eq_zero_or_pos n with rfl | hn
  · rfl
  · have hor : 0 < n ||| 1 := Nat.lt_of_lt_of_le hn Nat.left_le_or
    refine (Nat.log2_eq_iff (Nat.ne_of_gt hor)).mpr ⟨?_, ?_⟩
    · exact Nat.le_trans (Nat.log2_self_le (Nat.ne_of_gt hn)) Nat.left_le_or
    · exact Nat.or_lt_two_pow Nat.lt_log2_self (Nat.one_lt_two_pow (Nat.succ_ne_zero _))

/-- The length by the leading zeros of the word: the bits behind them, seven to a byte. The lowest
bit counts even where it is not set. -/
theorem length_eq_clz (v : UInt64) :
    length v = (64 - (v ||| 1).toBitVec.clz.toNat + 6) / 7 := by
  have hodd : (v ||| 1).toBitVec.toNat = v.toNat ||| 1 := UInt64.toNat_or v 1
  have hpos : v.toNat ||| 1 ≠ 0 := fun h => absurd (Nat.or_eq_zero_iff.mp h).2 (by decide)
  have hne : (v ||| 1).toBitVec ≠ 0#64 := fun h => hpos (by rw [← hodd, h]; rfl)
  have hclz : (v ||| 1).toBitVec.clz.toNat < 64 :=
    BitVec.lt_def.mp (BitVec.clz_lt_iff_ne_zero.mpr hne)
  have hlow := BitVec.two_pow_sub_clz_le_toNat_of_ne_zero (by decide) hne
  have hhigh := BitVec.toNat_lt_two_pow_sub_clz (x := (v ||| 1).toBitVec)
  rw [hodd] at hlow hhigh
  have hlog : v.toNat.log2 = 63 - (v ||| 1).toBitVec.clz.toNat := by
    rw [← log2_or_one, Nat.log2_eq_iff hpos]
    refine ⟨hlow, ?_⟩
    rwa [show 63 - (v ||| 1).toBitVec.clz.toNat + 1 = 64 - (v ||| 1).toBitVec.clz.toNat by omega]
  rw [length, hlog]
  omega

/-- No varint of a word is shorter than the one that is written. -/
theorem Writes.length_le_length {v : UInt64} (h : Writes bytes v) : length v ≤ bytes.length := by
  rw [length_le_iff h.isNumeral.length_pos, ← h.numeral_eq]
  exact numeral_lt bytes

end Varint

/-! ### The reader -/

namespace Reader

open Varint

theorem runAt_varint (c : Cursor) : varint.runAt c =
    match scan c.rest with
    | .ok s => (.ok s.value.toUInt64, ⟨c.position + s.size, s.rest⟩)
    | .error (.ended read) => (.error (.truncated (read + 1) read), c)
    | .error .overflow => (.error .varintOverflow, c) :=
  rfl

/-- A varint is read exactly where one stands. -/
theorem varint_eq_ok_iff {c c' : Cursor} {v : UInt64} : varint.runAt c = (.ok v, c') ↔
    ∃ digits, Writes digits v ∧ c.rest = digits ++ c'.rest ∧
      c'.position = c.position + digits.length := by
  constructor
  · intro h
    rw [runAt_varint] at h
    split at h
    · rename_i s hscan
      cases h
      obtain ⟨digits, hrest, hdigits, hsize, hvalue, hle, hbound⟩ :=
        exists_of_scanFrom 9 hscan rfl
      have hbound : s.value < 2 ^ 64 := hbound
      refine ⟨digits, ⟨hdigits, by rw [hsize]; exact hle, ?_⟩, hrest, by rw [hsize]⟩
      rw [hvalue, Nat.toUInt64_eq, UInt64.toNat_ofNat', Nat.mod_eq_of_lt hbound]
    · cases h
    · cases h
  · rintro ⟨digits, ⟨hdigits, hle, hvalue⟩, hrest, hposition⟩
    have hroom : 0 + 9 + 1 = maxLength := rfl
    have hbound : numeral digits < 2 * 128 ^ 9 := by
      rw [hvalue]
      exact v.toNat_lt
    rw [runAt_varint, hrest, scan, scanFrom_of_isNumeral hdigits hroom hle hbound]
    simp only [hvalue, Nat.toUInt64_eq, UInt64.ofNat_toNat, ← hposition]

/-- More bytes are asked for where fewer than ten are left and each announces another one. -/
theorem varint_eq_truncated_iff {c : Cursor} :
    (∃ need left, (varint.runAt c).1 = .error (.truncated need left)) ↔
      c.remaining < maxLength ∧ ∀ b ∈ c.rest, 128 ≤ b := by
  rw [runAt_varint, Cursor.remaining, and_comm, maxLength, Nat.lt_succ_iff]
  constructor
  · rintro ⟨need, left, h⟩
    split at h
    · cases h
    · rename_i read hscan
      obtain ⟨hall, hlength, -⟩ := (scanFrom_eq_ended_iff 9 rfl).mp hscan
      exact ⟨hall, hlength⟩
    · cases h
  · rintro ⟨hall, hlength⟩
    have hscan : scan c.rest = .error (.ended _) :=
      (scanFrom_eq_ended_iff 9 rfl).mpr ⟨hall, hlength, rfl⟩
    rw [hscan]
    exact ⟨_, _, rfl⟩

/-- What is reported of a varint that cannot be read; the place stays. -/
theorem varint_eq_error {c c' : Cursor} {fault : Wire.Fault}
    (h : varint.runAt c = (.error fault, c')) :
    c' = c ∧ (fault = .truncated (c.remaining + 1) c.remaining ∨ fault = .varintOverflow) := by
  rw [runAt_varint] at h
  split at h
  · cases h
  · rename_i read hscan
    cases h
    obtain ⟨-, -, rfl⟩ := (scanFrom_eq_ended_iff 9 rfl).mp hscan
    rw [Nat.zero_add]
    exact ⟨rfl, .inl rfl⟩
  · cases h
    exact ⟨rfl, .inr rfl⟩

/-- **Varints are the numerals to base 128 below `2 ^ 64`.** What is read is the number that the
bytes write, and nothing else can be read; what is written is read back, and is the shortest varint
of its number. -/
theorem varint_exact (c : Cursor) (v : UInt64) :
    (∀ c', varint.runAt c = (.ok v, c') ↔
      ∃ digits, Writes digits v ∧ c.rest = digits ++ c'.rest ∧
        c'.position = c.position + digits.length) ∧
    ((∃ need left, (varint.runAt c).1 = .error (.truncated need left)) ↔
      c.remaining < maxLength ∧ ∀ b ∈ c.rest, 128 ≤ b) ∧
    (∀ fault c', varint.runAt c = (.error fault, c') →
      c' = c ∧ (fault = .truncated (c.remaining + 1) c.remaining ∨ fault = .varintOverflow)) ∧
    (∀ position rest, varint.runAt ⟨position, encode v ++ rest⟩ =
      (.ok v, ⟨position + length v, rest⟩)) ∧
    ((encode v).length = length v ∧
      length v = (64 - (v ||| 1).toBitVec.clz.toNat + 6) / 7) ∧
    ∀ c', varint.runAt c = (.ok v, c') → length v ≤ c.remaining ∧
      c.position + length v ≤ c'.position := by
  refine ⟨fun c' => varint_eq_ok_iff, varint_eq_truncated_iff, fun fault c' => varint_eq_error,
    fun position rest => ?_, ⟨length_encode v, length_eq_clz v⟩, fun c' h => ?_⟩
  · rw [← length_encode]
    exact reads_varint v position rest
  · obtain ⟨digits, hdigits, hrest, hposition⟩ := varint_eq_ok_iff.mp h
    have hshortest := hdigits.length_le_length
    rw [Cursor.remaining, hrest, List.length_append, hposition]
    omega

/-- Zero may be written with a digit too many, and is read all the same. -/
theorem varint_exact_overlong :
    varint.runAt ⟨3, [0x80, 0x00, 0x07]⟩ = (.ok 0, ⟨5, [0x07]⟩) ∧
      length 0 ≤ 3 ∧ 3 + length 0 ≤ 5 := by
  have hread : varint.runAt ⟨3, [0x80, 0x00, 0x07]⟩ = (.ok 0, ⟨5, [0x07]⟩) :=
    ((varint_exact _ 0).1 _).mpr
      ⟨[0x80, 0x00], ⟨.more (by decide) (.last (by decide)), by decide, by decide⟩, rfl, rfl⟩
  exact ⟨hread, (varint_exact _ 0).2.2.2.2.2 _ hread⟩

end Reader

end Protobuf

import Mathlib
import Protobuf.Proofs.Schema.Scanner
import Protobuf.Proofs.Text.Dotted
import Protobuf.Proofs.Text.Utf8

/-!
# Names and integers in schema text

An integer is written to base ten, or to base eight behind a zero, or to base sixteen behind `0x`. The
scanner reads each of these for the number that the digits stand for, if it is below `2 ^ 64`, and
refuses it otherwise. A name, a text in quotes without special characters, and a punctuation character
are read as they are.

## Main definitions

* `Writes` — digits and the number that they stand for.
* `Numeral`, `Spelling` — the ways of writing a number, and an integer.
* `IsName` — the names.

## Main results

* `Scanner.next_numeral`, `Scanner.next_name`, `Scanner.next_quoted`, `Scanner.next_symbol` — what is
  next where they stand
-/

namespace Protobuf.Schema

/-! ### Digits -/

/-- The character is the digit `v`; capital letters are as good as small ones. -/
def IsDigit (c : Char) (v : Nat) : Prop :=
  c = v.digitChar ∨ c = v.digitChar.toUpper

/-- The characters are digits to base `base`, the most significant one first, and they stand for `n`. -/
def Writes (base : Nat) (digits : List Char) (n : Nat) : Prop :=
  digits ≠ [] ∧ ∃ values : List Nat, List.Forall₂ IsDigit digits values ∧ (∀ v ∈ values, v < base) ∧
    n = Nat.ofDigits base values.reverse

/-- The characters write the number `n`. -/
inductive Numeral : List Char → Nat → Prop
  | zero : Numeral ['0'] 0
  | decimal {digits : List Char} {n : Nat} (h : Writes 10 digits n)
      (hfirst : digits.head? ≠ some '0') : Numeral digits n
  | octal {digits : List Char} {n : Nat} (h : Writes 8 digits n) : Numeral ('0' :: digits) n
  | hex {x : Char} {digits : List Char} {n : Nat} (hx : x = 'x' ∨ x = 'X') (h : Writes 16 digits n) :
      Numeral ('0' :: x :: digits) n

/-- The characters write the integer `z`: a numeral, with a sign in front of it or without one. -/
inductive Spelling : List Char → Int → Prop
  | plain {digits : List Char} {n : Nat} (h : Numeral digits n) : Spelling digits n
  | plus {digits : List Char} {n : Nat} (h : Numeral digits n) : Spelling ('+' :: digits) n
  | minus {digits : List Char} {n : Nat} (h : Numeral digits n) : Spelling ('-' :: digits) (-n)

variable {c : Char} {base v n : Nat} {digits : List Char}

theorem digitValue?_of_isDigit (h : IsDigit c v) (hv : v < 16) : digitValue? c = some v := by
  interval_cases v <;> rcases h with rfl | rfl <;> rfl

theorem isDigitTo_of_isDigit (h : IsDigit c v) (hv : v < base) (hbase : base ≤ 16) :
    isDigitTo base c = true := by
  rw [isDigitTo, digitValue?_of_isDigit h (Nat.lt_of_lt_of_le hv hbase)]
  simpa using hv

theorem isDigit_of_isDigit (h : IsDigit c v) (hv : v < 10) : c.isDigit = true := by
  interval_cases v <;> rcases h with rfl | rfl <;> rfl

namespace Writes

theorem ne_nil (h : Writes base digits n) : digits ≠ [] :=
  h.1

/-- What holds of digits holds of all the characters. -/
theorem forall_mem (h : Writes base digits n) {P : Char → Prop}
    (hP : ∀ c v, IsDigit c v → v < base → P c) : ∀ c ∈ digits, P c := by
  obtain ⟨-, values, hdigits, hvalues, -⟩ := h
  induction hdigits with
  | nil => simp
  | cons hfirst hmore ih =>
    obtain ⟨hv, hvalues⟩ := List.forall_mem_cons.mp hvalues
    exact List.forall_mem_cons.mpr ⟨hP _ _ hfirst hv, ih hvalues⟩

/-- The scanner takes the digits for the number that they stand for. -/
theorem numeral_eq (h : Writes base digits n) (hbase : base ≤ 16) : numeral base digits = n := by
  obtain ⟨-, values, hdigits, hvalues, rfl⟩ := h
  have hfold : ∀ acc : Nat,
      digits.foldl (fun n c => n * base + (digitValue? c).getD 0) acc =
        acc * base ^ values.length + Nat.ofDigits base values.reverse := by
    induction hdigits with
    | nil => simp
    | @cons c v more values hfirst hmore ih =>
      obtain ⟨hv, hvalues⟩ := List.forall_mem_cons.mp hvalues
      intro acc
      rw [List.foldl_cons, ih hvalues, digitValue?_of_isDigit hfirst (Nat.lt_of_lt_of_le hv hbase),
        Option.getD_some, List.reverse_cons, Nat.ofDigits_append, List.length_reverse,
        Nat.ofDigits_singleton, List.length_cons]
      ring
  rw [numeral, hfold, Nat.zero_mul, Nat.zero_add]

theorem word64?_eq (h : Writes base digits n) (hbase : base ≤ 16) :
    word64? base digits = if n < UInt64.size then some n else none := by
  have hall : digits.all (isDigitTo base) = true :=
    List.all_eq_true.mpr (h.forall_mem fun _ _ hc hv => isDigitTo_of_isDigit hc hv hbase)
  simp only [word64?, h.numeral_eq hbase, h.ne_nil, hall, ne_eq, not_false_eq_true, true_and]

/-- Any digits are written with small letters. -/
theorem map_digitChar (values : List Nat) (hne : values ≠ []) (h : ∀ v ∈ values, v < base) :
    Writes base (values.map Nat.digitChar) (Nat.ofDigits base values.reverse) := by
  refine ⟨by simpa using hne, values, ?_, h, rfl⟩
  rw [List.forall₂_map_left_iff, List.forall₂_same]
  exact fun v _ => .inl rfl

end Writes

/-! ### Numerals -/

/-- No numeral goes on with the text. -/
def Apart (rest : List Char) : Prop :=
  startsWith (fun c => isNameChar c || c = '.') rest = false

namespace Apart

variable {rest : List Char}

theorem startsWith (h : Apart rest) {f : Char → Bool} (hf : ∀ c, f c → isNameChar c || c = '.') :
    Schema.startsWith f rest = false := by
  cases rest with
  | nil => rfl
  | cons c more => exact Bool.eq_false_iff.mpr fun hc => Bool.eq_false_iff.mp h (hf c hc)

theorem isNameChar (h : Apart rest) : Schema.startsWith isNameChar rest = false :=
  h.startsWith fun c hc => by rw [hc]; rfl

theorem cons {c : Char} (h : Schema.isNameChar c = false) (hdot : c ≠ '.') (rest : List Char) :
    Apart (c :: rest) := by
  rw [Apart, Schema.startsWith, h, decide_eq_false hdot]
  rfl

end Apart

theorem isNameChar_of_isDigitTo (h : isDigitTo base c) : isNameChar c := by
  have hdigit : digitValue? c ≠ none := fun hnone => by simp [isDigitTo, hnone] at h
  rw [digitValue?] at hdigit
  split at hdigit
  · exact isNameChar_of_isDigit ‹_›
  · have halpha : c.isAlpha = true := by
      split at hdigit
      · rename_i hlower
        have hz : c ≤ 'z' := Char.le_trans hlower.2 (by decide)
        simp only [Char.isAlpha, Char.isLower, Bool.or_eq_true, Bool.and_eq_true, decide_eq_true_eq]
        exact .inr ⟨hlower.1, hz⟩
      · split at hdigit
        · rename_i hupper
          have hz : c ≤ 'Z' := Char.le_trans hupper.2 (by decide)
          simp only [Char.isAlpha, Char.isUpper, Bool.or_eq_true, decide_eq_true_eq]
          exact .inl ⟨hupper.1, hz⟩
        · exact absurd rfl hdigit
    simp [isNameChar, Char.isAlphanum, halpha]

section

variable {rest : List Char}

theorem scanDecimal_of_digits (hdigits : ∀ c ∈ digits, c.isDigit) (hrest : Apart rest) :
    scanDecimal (digits ++ rest) = (integerToken digits, rest) := by
  have hdigit : startsWith Char.isDigit rest = false :=
    hrest.startsWith fun c hc => by rw [isNameChar_of_isDigit hc]; rfl
  have hpoint : startsWith (· = '.') rest = false := hrest.startsWith fun c hc => by simp_all
  have hexponent : startsWith (fun c => c = 'e' || c = 'E') rest = false :=
    hrest.startsWith fun c hc => by
      simp only [Bool.or_eq_true, decide_eq_true_eq] at hc
      rcases hc with rfl | rfl <;> rfl
  obtain ⟨hwhole, hbehind⟩ := span_append hdigits hdigit
  rw [scanDecimal, hwhole, hbehind, scanFraction_of_ne hpoint]
  dsimp only
  rw [scanExponent_of_ne hexponent]
  dsimp only
  rw [if_pos rfl, endNumber, hrest.isNameChar]
  rfl

theorem scanNumber_of_digits (hne : digits ≠ []) (hdigits : ∀ c ∈ digits, c.isDigit)
    (hrest : Apart rest) : scanNumber (digits ++ rest) = (integerToken digits, rest) := by
  have hmark : ∀ x, isNameChar x → x.isDigit = false → ∀ more, digits ++ rest ≠ '0' :: x :: more := by
    intro x hx hdigit more heq
    obtain _ | ⟨d, _ | ⟨d', ds⟩⟩ := digits
    · exact hne rfl
    · have hrest' := hrest.isNameChar
      have hbehind : rest = x :: more := (List.cons.inj heq).2
      rw [hbehind] at hrest'
      exact absurd hx (Bool.eq_false_iff.mp hrest')
    · cases heq
      exact absurd (hdigits x (by simp)) (Bool.eq_false_iff.mp hdigit)
  rw [scanNumber_of_unmarked (hmark 'x' rfl rfl) (hmark 'X' rfl rfl), scanDecimal_of_digits hdigits hrest]

/-- Without a zero in front, the digits are taken to base ten. -/
theorem Writes.integerToken_decimal (h : Writes 10 digits n) (hfirst : digits.head? ≠ some '0') :
    integerToken digits = if n < UInt64.size then .ok (.int n)
      else .error (.illegalNumber (String.ofList digits)) := by
  rw [integerToken]
  · simp only [h.word64?_eq (by decide)]
    by_cases hn : n < UInt64.size
    · rw [if_pos hn, if_pos hn]
    · rw [if_neg hn, if_neg hn]
  · rintro d more rfl
    exact hfirst rfl

/-- Behind a zero, the digits are taken to base eight. -/
theorem Writes.integerToken_octal (h : Writes 8 digits n) :
    integerToken ('0' :: digits) = if n < UInt64.size then .ok (.int n)
      else .error (.illegalNumber (String.ofList ('0' :: digits))) := by
  obtain ⟨d, more, rfl⟩ := List.exists_cons_of_ne_nil h.ne_nil
  simp only [integerToken, h.word64?_eq (by decide)]
  by_cases hn : n < UInt64.size
  · rw [if_pos hn, if_pos hn]
  · rw [if_neg hn, if_neg hn]

/-- Behind a mark, the digits are taken to base sixteen. -/
theorem Writes.scanHex (h : Writes 16 digits n) (hrest : Apart rest) (mark : List Char) :
    scanHex mark (digits ++ rest) = (if n < UInt64.size then .ok (.int n)
      else .error (.illegalHexNumber (String.ofList (mark ++ digits))), rest) := by
  have hstop : startsWith (isDigitTo 16) rest = false :=
    hrest.startsWith fun c hc => by rw [isNameChar_of_isDigitTo hc]; rfl
  obtain ⟨hfront, hbehind⟩ :=
    span_append (h.forall_mem fun _ _ hc hv => isDigitTo_of_isDigit hc hv (by decide)) hstop
  rw [Schema.scanHex, hfront, hbehind, h.word64?_eq (by decide)]
  by_cases hn : n < UInt64.size
  · rw [if_pos hn, if_pos hn]
    dsimp only
    rw [endNumber, hrest.isNameChar]
    rfl
  · rw [if_neg hn, if_neg hn]

/-- A numeral is read for the number that it writes if that is below `2 ^ 64`, and refused otherwise. -/
theorem Numeral.scan (h : Numeral digits n) (hrest : Apart rest) : ∃ fault,
    scanNumber (digits ++ rest) = (if n < UInt64.size then .ok (.int n) else .error fault, rest) := by
  cases h with
  | zero =>
    refine ⟨.missingRule, ?_⟩
    rw [scanNumber_of_digits (by simp) (by simp) hrest]
    rfl
  | decimal h hfirst =>
    have hdigits : ∀ c ∈ digits, c.isDigit := h.forall_mem fun _ _ => isDigit_of_isDigit
    rw [scanNumber_of_digits h.ne_nil hdigits hrest, h.integerToken_decimal hfirst]
    exact ⟨_, rfl⟩
  | @octal digits n h =>
    have hdigits : ∀ c ∈ '0' :: digits, c.isDigit := List.forall_mem_cons.mpr
      ⟨rfl, h.forall_mem fun c v hc hv => isDigit_of_isDigit hc (Nat.lt_trans hv (by decide))⟩
    rw [scanNumber_of_digits (by simp) hdigits hrest, h.integerToken_octal]
    exact ⟨_, rfl⟩
  | @hex x digits n hx h =>
    have hscan : scanNumber ('0' :: x :: digits ++ rest) = scanHex ['0', x] (digits ++ rest) := by
      rcases hx with rfl | rfl <;> rfl
    rw [hscan, h.scanHex hrest]
    exact ⟨_, rfl⟩

end

/-- A numeral begins with a digit. -/
theorem Numeral.exists_cons (h : Numeral digits n) : ∃ c more, digits = c :: more ∧ c.isDigit := by
  cases h with
  | zero => exact ⟨'0', [], rfl, rfl⟩
  | decimal h hfirst =>
    obtain ⟨c, more, rfl⟩ := List.exists_cons_of_ne_nil h.ne_nil
    exact ⟨c, more, rfl, h.forall_mem (fun _ _ => isDigit_of_isDigit) c List.mem_cons_self⟩
  | octal h => exact ⟨'0', _, rfl, rfl⟩
  | hex hx h => exact ⟨'0', _, rfl, rfl⟩

/-! ### Names -/

/-- The text is a name: letters, digits and underscores, and no digit in front. -/
def IsName (name : String) : Prop :=
  startsWith isNameStart name.toList ∧ name.toList.all isNameChar

theorem IsName.exists_cons {name : String} (h : IsName name) :
    ∃ c more, name.toList = c :: more ∧ isNameStart c ∧ ∀ d ∈ more, isNameChar d := by
  obtain ⟨hstart, hall⟩ := h
  cases hname : name.toList with
  | nil =>
    rw [hname] at hstart
    cases hstart
  | cons c more =>
    rw [hname] at hstart hall
    exact ⟨c, more, rfl, hstart, fun d hd => List.all_eq_true.mp hall d (List.mem_cons_of_mem c hd)⟩

theorem IsName.plain {name : String} (h : IsName name) : Path.Plain name :=
  fun hdot => Bool.noConfusion (List.all_eq_true.mp h.2 _ hdot)

theorem scanPath_append {p rest : List Char} (hp : ∀ c ∈ p, isNameChar c) (hrest : Apart rest) :
    scanPath (p ++ rest) = (p, rest) := by
  induction p with
  | nil =>
    cases rest with
    | nil => rfl
    | cons c rest =>
      refine scanPath_of_stops hrest.isNameChar fun hdot => ?_
      rw [hdot] at hrest
      cases hrest
  | cons c p ih =>
    obtain ⟨hc, hp⟩ := List.forall_mem_cons.mp hp
    exact scanPath_of_goes (ih hp) (.inl hc)

theorem not_isDigit_of_isNameStart (h : isNameStart c) : c.isDigit = false ∧ ¬(c = '"' ∨ c = '\'') := by
  constructor
  · have hcases : c.isUpper ∨ c.isLower ∨ c = '_' := by
      simpa [isNameStart, Char.isAlpha, or_assoc] using h
    rw [Bool.eq_false_iff]
    intro hdigit
    have hdigit : 48 ≤ c.toNat ∧ c.toNat ≤ 57 := by
      simpa [Char.isDigit, UInt32.le_iff_toNat_le] using hdigit
    rcases hcases with hupper | hlower | rfl
    · have hletter : 65 ≤ c.toNat ∧ c.toNat ≤ 90 := by
        simpa [Char.isUpper, UInt32.le_iff_toNat_le] using hupper
      omega
    · have hletter : 97 ≤ c.toNat ∧ c.toNat ≤ 122 := by
        simpa [Char.isLower, UInt32.le_iff_toNat_le] using hlower
      omega
    · exact absurd hdigit.2 (by decide)
  · rintro (rfl | rfl) <;> cases h

/-! ### The next token -/

namespace Scanner

theorem not_quote_of_isDigit (h : c.isDigit) : ¬(c = '"' ∨ c = '\'') := by
  rintro (rfl | rfl) <;> cases h

/-- What is next where a numeral stands. -/
theorem next_numeral (h : Numeral digits n) {rest : List Char} (hrest : Apart rest) (line : Nat) :
    ∃ fault, next ⟨digits ++ rest, line⟩ = (if n < UInt64.size then .ok ⟨.int n, line⟩
      else .error (.malformed line fault), ⟨rest, line⟩) := by
  obtain ⟨fault, hscan⟩ := h.scan hrest
  obtain ⟨c, more, rfl, hc⟩ := h.exists_cons
  have hbreak : isBreak c = false := Bool.eq_false_iff.mpr fun hbreak => by
    rw [isDigit_of_isBreak hbreak] at hc
    cases hc
  have hbegins : beginsNumber c (more ++ rest) := by rw [beginsNumber, hc]; rfl
  refine ⟨fault, ?_⟩
  rw [next, List.cons_append, skipBlank_of_not_isBreak hbreak]
  dsimp only
  rw [tokenAt, if_neg (not_quote_of_isDigit hc), if_pos hbegins, ← List.cons_append, hscan]
  by_cases hn : n < UInt64.size
  · rw [if_pos hn, if_pos hn]
    rfl
  · rw [if_neg hn, if_neg hn]
    rfl

/-- What is next where a name stands. -/
theorem next_name {name : String} (h : IsName name) {rest : List Char} (hrest : Apart rest)
    (line : Nat) : next ⟨name.toList ++ rest, line⟩ = (.ok ⟨.ident name, line⟩, ⟨rest, line⟩) := by
  obtain ⟨c, more, hname, hstart, hmore⟩ := h.exists_cons
  obtain ⟨hdigit, hquote⟩ := not_isDigit_of_isNameStart hstart
  have hdot : c ≠ '.' := fun hc => by rw [hc] at hstart; cases hstart
  have hpath : beginsPath c (more ++ rest) := by rw [beginsPath, hstart]; rfl
  have hnumber : beginsNumber c (more ++ rest) = false := by
    rw [beginsNumber, hdigit, decide_eq_false hdot]
    rfl
  rw [next, hname, List.cons_append, skipBlank_of_not_isBreak (isBreak_of_beginsPath hpath)]
  dsimp only
  rw [tokenAt_path hquote hnumber hpath (scanPath_append hmore hrest), ← hname, String.ofList_toList]
  rfl

/-- What is next where a text without special characters stands in quotes. -/
theorem next_quoted {text : List Char} (h : ∀ c ∈ text, c ≠ '\n' ∧ c ≠ '"' ∧ c ≠ '\\')
    (rest : List Char) (line : Nat) : next ⟨'"' :: (text ++ '"' :: rest), line⟩ =
      (.ok ⟨.str (String.ofList text), line⟩, ⟨rest, line⟩) := by
  have hscan : scanLiteral '"' 0 (text ++ '"' :: rest) =
      (.ok (text.flatMap String.utf8EncodeChar), rest) := by
    induction text with
    | nil => exact scanLiteral_quote (by decide)
    | cons c text ih =>
      obtain ⟨⟨hline, hquote, hescape⟩, h⟩ := List.forall_mem_cons.mp h
      exact scanLiteral_plain hline hquote hescape (ih h)
  have hrepair : Utf8.repair (text.flatMap String.utf8EncodeChar) = String.ofList text := by
    have h := Utf8.repair_encode (String.ofList text)
    rwa [Utf8.encode, String.toList_ofList] at h
  rw [next, skipBlank_of_not_isBreak rfl]
  dsimp only
  rw [tokenAt_literal (.inl rfl) hscan, hrepair]
  rfl

/-- A punctuation character is a token whatever stands behind it, but a dot is not. -/
theorem next_symbol {c : Char} (hc : c ∈ punctuation) (hdot : c ≠ '.') (rest : List Char) (line : Nat) :
    next ⟨c :: rest, line⟩ = (.ok ⟨.symbol c, line⟩, ⟨rest, line⟩) := by
  have hplain : punctuation.all
      (fun c => !c.isDigit && !isNameStart c && c ≠ '"' && c ≠ '\'') = true := rfl
  have hkind := List.all_eq_true.mp hplain c hc
  simp only [ne_eq, decide_not, Bool.and_eq_true, Bool.not_eq_eq_eq_not, Bool.not_true,
    decide_eq_false_iff_not] at hkind
  obtain ⟨⟨⟨hdigit, hname⟩, hquote⟩, hquote'⟩ := hkind
  rw [next, skipBlank_of_not_isBreak (isBreak_of_punctuation hc)]
  dsimp only
  rw [tokenAt_symbol (fun h => h.elim hquote hquote') ?_ ?_ hc]
  · rfl
  · rw [beginsNumber, hdigit, decide_eq_false hdot]
    rfl
  · rw [beginsPath, hname, decide_eq_false hdot]
    rfl

end Scanner

end Protobuf.Schema

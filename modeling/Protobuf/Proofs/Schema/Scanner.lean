import Mathlib.Data.List.TakeDrop
import Mathlib.Data.List.TakeWhile
import Protobuf.Proofs.Action
import Protobuf.Schema.Scanner

/-!
# What a token is made of

A token is made of the characters at the front of the text, and of the text behind it no more matters
than where it ends the token. So the token is the same wherever its characters stand, if what stands
behind them is alike in that. In front of it there may be white space and comments.

## Main definitions

* `Alike` — a text may stand in the place of another one behind a token.
* `Blanks` — white space and closed comments.

## Main results

* `Scanner.exists_of_tokenAt` — the characters of a token
* `Scanner.exists_of_next` — the characters that the next token takes
-/

namespace Protobuf.Schema

/-! ### What stands behind a token -/

/-- The character ends each token that it stands behind: it is white space, or begins a comment. -/
def isBreak (c : Char) : Bool :=
  isBlank c || c = '\n' || c = '/'

/-- The text `q'` may stand in the place of `q` behind a token. A dot is a part of a name, or is not,
by the character behind it. -/
inductive Alike (q q' : List Char) : Prop
  | apart (h : ∀ c ∈ q'.head?, isBreak c)
  | same {c : Char} {r r' : List Char} (hq : q = c :: r) (hq' : q' = c :: r')
      (h : startsWith isNameStart r = false → startsWith isNameStart r' = false)

theorem not_isBreak_of_isDigitTo {c : Char} (h : isBreak c) (base : Nat) : isDigitTo base c = false := by
  simp only [isBreak, isBlank, Bool.or_eq_true, decide_eq_true_eq] at h
  rcases h with (((((rfl | rfl) | rfl) | rfl) | rfl) | rfl) | rfl <;> rfl

theorem isNameChar_of_isBreak {c : Char} (h : isBreak c) : isNameChar c = false := by
  simp only [isBreak, isBlank, Bool.or_eq_true, decide_eq_true_eq] at h
  rcases h with (((((rfl | rfl) | rfl) | rfl) | rfl) | rfl) | rfl <;> rfl

theorem isNameStart_of_isBreak {c : Char} (h : isBreak c) : isNameStart c = false := by
  simp only [isBreak, isBlank, Bool.or_eq_true, decide_eq_true_eq] at h
  rcases h with (((((rfl | rfl) | rfl) | rfl) | rfl) | rfl) | rfl <;> rfl

theorem isDigit_of_isBreak {c : Char} (h : isBreak c) : c.isDigit = false := by
  simp only [isBreak, isBlank, Bool.or_eq_true, decide_eq_true_eq] at h
  rcases h with (((((rfl | rfl) | rfl) | rfl) | rfl) | rfl) | rfl <;> rfl

theorem ne_of_isBreak {c : Char} (h : isBreak c) {d : Char} (hd : isBreak d = false) : c ≠ d := by
  rintro rfl
  rw [h] at hd
  cases hd

namespace Alike

variable {q q' : List Char}

theorem refl (q : List Char) : Alike q q := by
  cases q with
  | nil => exact .apart (by simp)
  | cons c r => exact .same rfl rfl id

/-- What does not begin the one text does not begin the other one. -/
theorem startsWith {f : Char → Bool} (h : Alike q q') (hf : ∀ c, isBreak c → f c = false)
    (hq : Schema.startsWith f q = false) : Schema.startsWith f q' = false := by
  cases h with
  | apart hbreak =>
    cases q' with
    | nil => rfl
    | cons c r => exact hf c (hbreak c rfl)
  | same hq₁ hq₂ _ =>
    subst hq₁ hq₂
    exact hq

/-- The same characters may stand in front. -/
theorem append (h : Alike q q') (x : List Char) : Alike (x ++ q) (x ++ q') := by
  cases x with
  | nil => exact h
  | cons c more =>
    refine .same rfl rfl fun hmore => ?_
    cases more with
    | nil => exact h.startsWith (fun c => isNameStart_of_isBreak) hmore
    | cons d more => exact hmore

/-- Blank space may stand in the place of nothing. -/
theorem insert (x : List Char) {w : List Char} (hw : ∀ c ∈ w.head?, isBreak c) (q : List Char) :
    Alike (x ++ q) (x ++ (w ++ q)) := by
  refine append ?_ x
  cases w with
  | nil => exact refl q
  | cons c more => exact .apart fun d hd => hw d hd

end Alike

/-! ### Characters of one kind -/

theorem startsWith_dropWhile (f : Char → Bool) (text : List Char) :
    startsWith f (text.dropWhile f) = false := by
  have h := List.head?_dropWhile_not f text
  cases hrest : text.dropWhile f with
  | nil => rfl
  | cons c rest =>
    rw [hrest] at h
    exact h

theorem takeWhile_eq_nil {f : Char → Bool} {q : List Char} (h : startsWith f q = false) :
    q.takeWhile f = [] := by
  cases q with
  | nil => rfl
  | cons c r => exact List.takeWhile_cons_of_neg (Bool.eq_false_iff.mp h)

theorem dropWhile_eq_self {f : Char → Bool} {q : List Char} (h : startsWith f q = false) :
    q.dropWhile f = q := by
  cases q with
  | nil => rfl
  | cons c r => exact List.dropWhile_cons_of_neg (Bool.eq_false_iff.mp h)

/-- The characters of a kind end where one of another kind stands. -/
theorem span_append {f : Char → Bool} {p q : List Char} (hp : ∀ c ∈ p, f c)
    (hq : startsWith f q = false) : (p ++ q).takeWhile f = p ∧ (p ++ q).dropWhile f = q := by
  rw [List.takeWhile_append_of_pos hp, List.dropWhile_append_of_pos hp, takeWhile_eq_nil hq,
    dropWhile_eq_self hq, List.append_nil]
  exact ⟨rfl, rfl⟩

/-- A text is cut into the characters of a kind in front and the rest. -/
theorem exists_of_span (f : Char → Bool) (text : List Char) :
    ∃ p q, text = p ++ q ∧ (∀ c ∈ p, f c) ∧ startsWith f q = false :=
  ⟨text.takeWhile f, text.dropWhile f, List.takeWhile_append_dropWhile.symm,
    fun _ hc => List.mem_takeWhile_imp hc, startsWith_dropWhile f text⟩

/-! ### Names -/

theorem isNameChar_of_isNameStart {c : Char} (h : isNameStart c) : isNameChar c := by
  simp only [isNameStart, isNameChar, Char.isAlphanum, Bool.or_eq_true, decide_eq_true_eq] at h ⊢
  exact h.imp_left .inl

/-- A path ends where nothing that continues it stands. -/
theorem scanPath_of_stops {c : Char} {rest : List Char} (hc : isNameChar c = false)
    (hdot : c = '.' → startsWith isNameStart rest = false) : scanPath (c :: rest) = ([], c :: rest) := by
  rw [scanPath, hc, Bool.false_or, if_neg]
  simpa using hdot

theorem scanPath_of_goes {c : Char} {rest p q : List Char} (h : scanPath rest = (p, q))
    (hc : isNameChar c ∨ c = '.' ∧ startsWith isNameStart rest) : scanPath (c :: rest) = (c :: p, q) := by
  rw [scanPath, if_pos (by simpa using hc), h]

theorem scanPath_of_alike {q q' : List Char} (h : Alike q q') (hq : scanPath q = ([], q)) :
    scanPath q' = ([], q') := by
  cases h with
  | apart hbreak =>
    cases q' with
    | nil => rfl
    | cons c r =>
      have hc := hbreak c rfl
      exact scanPath_of_stops (isNameChar_of_isBreak hc) fun hdot => absurd hdot (ne_of_isBreak hc rfl)
  | @same c r r' hq₁ hq₂ hr =>
    subst hq₁ hq₂
    by_cases hgoes : isNameChar c ∨ c = '.' ∧ startsWith isNameStart r
    · rw [scanPath_of_goes rfl hgoes] at hq
      cases (Prod.mk.inj hq).1
    · obtain ⟨hc, hdot⟩ := not_or.mp hgoes
      exact scanPath_of_stops (Bool.eq_false_iff.mpr hc) fun hd =>
        hr (Bool.eq_false_iff.mpr fun hstart => hdot ⟨hd, hstart⟩)

/-- A name at the front of the text is in the path. -/
theorem startsWith_of_scanPath {text p q : List Char} (h : scanPath text = (p, q))
    (hstart : startsWith isNameStart text) (q' : List Char) : startsWith isNameStart (p ++ q') := by
  cases text with
  | nil => cases hstart
  | cons c rest =>
    rw [scanPath_of_goes rfl (.inl (isNameChar_of_isNameStart hstart))] at h
    cases h
    exact hstart

theorem exists_of_scanPath {text p q : List Char} (h : scanPath text = (p, q)) :
    text = p ++ q ∧ ∀ q', Alike q q' → scanPath (p ++ q') = (p, q') := by
  induction text generalizing p with
  | nil =>
    cases h
    exact ⟨rfl, fun q' halike => scanPath_of_alike halike rfl⟩
  | cons c rest ih =>
    by_cases hgoes : isNameChar c ∨ c = '.' ∧ startsWith isNameStart rest
    · rcases hrest : scanPath rest with ⟨p', q₁⟩
      rw [scanPath_of_goes hrest hgoes] at h
      cases h
      obtain ⟨rfl, hcut⟩ := ih hrest
      exact ⟨rfl, fun q' halike => scanPath_of_goes (hcut q' halike)
        (hgoes.imp_right (And.imp_right fun hstart => startsWith_of_scanPath hrest hstart q'))⟩
    · obtain ⟨hc, hdot⟩ := not_or.mp hgoes
      have hstops : scanPath (c :: rest) = ([], c :: rest) :=
        scanPath_of_stops (Bool.eq_false_iff.mpr hc) fun hd =>
          Bool.eq_false_iff.mpr fun hstart => hdot ⟨hd, hstart⟩
      cases hstops.symm.trans h
      exact ⟨rfl, fun q' halike => scanPath_of_alike halike hstops⟩

/-! ### Numbers -/

theorem endNumber_eq_ok {text rest q : List Char} {token : Except SyntaxFault Token} {t : Token} :
    endNumber text token rest = (.ok t, q) ↔
      startsWith isNameChar rest = false ∧ token = .ok t ∧ rest = q := by
  rw [endNumber]
  cases startsWith isNameChar rest <;> simp

theorem exists_of_scanHex {mark text q : List Char} {t : Token}
    (h : scanHex mark text = (.ok t, q)) :
    ∃ p, text = p ++ q ∧ startsWith isNameChar q = false ∧
      ∀ q', Alike q q' → scanHex mark (p ++ q') = (.ok t, q') := by
  obtain ⟨p, q₁, rfl, hp, hq₁⟩ := exists_of_span (isDigitTo 16) text
  rw [scanHex, (span_append hp hq₁).1, (span_append hp hq₁).2] at h
  cases hvalue : word64? 16 p with
  | none =>
    rw [hvalue] at h
    cases h
  | some value =>
    rw [hvalue] at h
    obtain ⟨hend, htoken, rfl⟩ := endNumber_eq_ok.mp h
    refine ⟨p, rfl, hend, fun q' halike => ?_⟩
    have hq' := halike.startsWith (fun c hc => not_isBreak_of_isDigitTo hc 16) hq₁
    rw [scanHex, (span_append hp hq').1, (span_append hp hq').2, hvalue]
    exact endNumber_eq_ok.mpr ⟨halike.startsWith (fun c => isNameChar_of_isBreak) hend, htoken, rfl⟩

theorem scanFraction_of_ne {text : List Char} (h : startsWith (· = '.') text = false) :
    scanFraction text = ([], [], text) := by
  cases text with
  | nil => rfl
  | cons c rest =>
    rw [scanFraction]
    rintro rest' heq
    cases heq
    cases h

theorem exists_of_scanFraction {text digits point q : List Char}
    (h : scanFraction text = (digits, point, q)) :
    text = point ++ q ∧ ∀ q', Alike q q' → scanFraction (point ++ q') = (digits, point, q') := by
  by_cases hdot : startsWith (· = '.') text = false
  · rw [scanFraction_of_ne hdot] at h
    cases h
    refine ⟨rfl, fun q' halike => scanFraction_of_ne (halike.startsWith (fun c hc => ?_) hdot)⟩
    exact decide_eq_false (ne_of_isBreak hc rfl)
  · obtain _ | ⟨c, rest⟩ := text
    · exact absurd rfl hdot
    · obtain rfl : c = '.' := of_decide_eq_true (Bool.of_not_eq_false hdot)
      obtain ⟨p, q₁, rfl, hp, hq₁⟩ := exists_of_span Char.isDigit rest
      rw [scanFraction, (span_append hp hq₁).1, (span_append hp hq₁).2] at h
      cases h
      refine ⟨rfl, fun q' halike => ?_⟩
      have hq' := halike.startsWith (fun c => isDigit_of_isBreak) hq₁
      rw [List.cons_append, scanFraction, (span_append hp hq').1, (span_append hp hq').2]

theorem scanSign_of_ne {text : List Char} (h : startsWith (fun c => c = '+' || c = '-') text = false) :
    scanSign text = ([], text) := by
  cases text with
  | nil => rfl
  | cons c rest =>
    rw [scanSign]
    · rintro rest' heq
      cases heq
      cases h
    · rintro rest' heq
      cases heq
      cases h

theorem exists_of_scanSign {text sign q : List Char} (h : scanSign text = (sign, q)) :
    text = sign ++ q ∧ ∀ q', Alike q q' → scanSign (sign ++ q') = (sign, q') := by
  by_cases hsign : startsWith (fun c => c = '+' || c = '-') text = false
  · rw [scanSign_of_ne hsign] at h
    cases h
    refine ⟨rfl, fun q' halike => scanSign_of_ne (halike.startsWith (fun c hc => ?_) hsign)⟩
    simp [ne_of_isBreak hc (d := '+') rfl, ne_of_isBreak hc (d := '-') rfl]
  · obtain _ | ⟨c, rest⟩ := text
    · exact absurd rfl hsign
    · have hc : c = '+' ∨ c = '-' := by simpa [startsWith, or_iff_not_imp_left] using hsign
      rcases hc with rfl | rfl
      all_goals
        cases h
        exact ⟨rfl, fun q' _ => rfl⟩

theorem scanExponent_of_ne {text : List Char} (h : startsWith (fun c => c = 'e' || c = 'E') text = false) :
    scanExponent text = (none, [], text) := by
  cases text with
  | nil => rfl
  | cons c rest =>
    rw [scanExponent, if_neg]
    simpa [startsWith] using h

theorem scanExponent_cons {c : Char} (hc : c = 'e' ∨ c = 'E') {rest sign behind : List Char}
    (h : scanSign rest = (sign, behind)) :
    scanExponent (c :: rest) = (some (behind.takeWhile Char.isDigit, sign == ['-']),
      c :: sign ++ behind.takeWhile Char.isDigit, behind.dropWhile Char.isDigit) := by
  rw [scanExponent.eq_def]
  dsimp only
  rw [if_pos hc, h]

theorem exists_of_scanExponent {text spelled q : List Char} {exponent : Option (List Char × Bool)}
    (h : scanExponent text = (exponent, spelled, q)) :
    text = spelled ++ q ∧ ∀ q', Alike q q' → scanExponent (spelled ++ q') = (exponent, spelled, q') := by
  by_cases he : startsWith (fun c => c = 'e' || c = 'E') text = false
  · rw [scanExponent_of_ne he] at h
    cases h
    refine ⟨rfl, fun q' halike => scanExponent_of_ne (halike.startsWith (fun c hc => ?_) he)⟩
    simp [ne_of_isBreak hc (d := 'e') rfl, ne_of_isBreak hc (d := 'E') rfl]
  · obtain _ | ⟨c, rest⟩ := text
    · exact absurd rfl he
    · have hc : c = 'e' ∨ c = 'E' := by simpa [startsWith, or_iff_not_imp_left] using he
      rcases hsign : scanSign rest with ⟨sign, behind⟩
      obtain ⟨rfl, hcut⟩ := exists_of_scanSign hsign
      obtain ⟨p, q₁, rfl, hp, hq₁⟩ := exists_of_span Char.isDigit behind
      rw [scanExponent_cons hc hsign, (span_append hp hq₁).1, (span_append hp hq₁).2] at h
      cases h
      refine ⟨by simp, fun q' halike => ?_⟩
      have hq' := halike.startsWith (fun c => isDigit_of_isBreak) hq₁
      have hsign' : scanSign (sign ++ p ++ q') = (sign, p ++ q') := by
        rw [List.append_assoc]
        exact hcut _ (halike.append p)
      rw [List.cons_append, List.cons_append, scanExponent_cons hc hsign', (span_append hp hq').1,
        (span_append hp hq').2]
      rfl

theorem exists_of_scanDecimal {text q : List Char} {t : Token} (h : scanDecimal text = (.ok t, q)) :
    ∃ p, text = p ++ q ∧ startsWith isNameChar q = false ∧
      ∀ q', Alike q q' → scanDecimal (p ++ q') = (.ok t, q') := by
  obtain ⟨whole, text, rfl, hwhole, htext⟩ := exists_of_span Char.isDigit text
  rcases hfraction : scanFraction text with ⟨fraction, point, text⟩
  rcases hexponent : scanExponent text with ⟨exponent, spelled, rest⟩
  obtain ⟨rfl, hcutFraction⟩ := exists_of_scanFraction hfraction
  obtain ⟨rfl, hcutExponent⟩ := exists_of_scanExponent hexponent
  -- what is in front decides on the token, and what is behind only on whether the number ends
  have htoken : ∃ token, ∀ q', Alike rest q' →
      scanDecimal (whole ++ (point ++ (spelled ++ q'))) =
        endNumber (whole ++ point ++ spelled) token q' := by
    have hparts : ∀ q', Alike rest q' →
        (whole ++ (point ++ (spelled ++ q'))).takeWhile Char.isDigit = whole ∧
        (whole ++ (point ++ (spelled ++ q'))).dropWhile Char.isDigit = point ++ (spelled ++ q') :=
      fun q' halike => span_append hwhole
        (((halike.append spelled).append point).startsWith (fun c => isDigit_of_isBreak) htext)
    rcases exponent with _ | ⟨_ | ⟨d, digits⟩, negative⟩
    · refine ⟨if point = [] then integerToken whole else .ok (floatToken whole fraction [] false),
        fun q' halike => ?_⟩
      rw [scanDecimal, (hparts q' halike).1, (hparts q' halike).2,
        hcutFraction _ (halike.append spelled)]
      dsimp only
      rw [hcutExponent q' halike]
      dsimp only
      split <;> rfl
    · rw [scanDecimal, (hparts rest (.refl rest)).1, (hparts rest (.refl rest)).2, hfraction] at h
      dsimp only at h
      rw [hexponent] at h
      cases h
    · refine ⟨.ok (floatToken whole fraction (d :: digits) negative), fun q' halike => ?_⟩
      rw [scanDecimal, (hparts q' halike).1, (hparts q' halike).2,
        hcutFraction _ (halike.append spelled)]
      dsimp only
      rw [hcutExponent q' halike]
  obtain ⟨token, htoken⟩ := htoken
  rw [htoken rest (.refl rest)] at h
  obtain ⟨hend, hok, rfl⟩ := endNumber_eq_ok.mp h
  refine ⟨whole ++ point ++ spelled, by simp, hend, fun q' halike => ?_⟩
  rw [List.append_assoc, List.append_assoc, htoken q' halike]
  exact endNumber_eq_ok.mpr ⟨halike.startsWith (fun c => isNameChar_of_isBreak) hend, hok, rfl⟩

theorem scanNumber_of_unmarked {text : List Char} (hx : ∀ rest, text ≠ '0' :: 'x' :: rest)
    (hX : ∀ rest, text ≠ '0' :: 'X' :: rest) : scanNumber text = scanDecimal text := by
  rw [scanNumber]
  · exact hx
  · exact hX

theorem exists_of_scanNumber {text q : List Char} {t : Token} (h : scanNumber text = (.ok t, q)) :
    ∃ p, text = p ++ q ∧ startsWith isNameChar q = false ∧
      ∀ q', Alike q q' → scanNumber (p ++ q') = (.ok t, q') := by
  rw [scanNumber.eq_def] at h
  split at h
  · obtain ⟨p, rfl, hend, hcut⟩ := exists_of_scanHex h
    exact ⟨'0' :: 'x' :: p, rfl, hend, fun q' halike => hcut q' halike⟩
  · obtain ⟨p, rfl, hend, hcut⟩ := exists_of_scanHex h
    exact ⟨'0' :: 'X' :: p, rfl, hend, fun q' halike => hcut q' halike⟩
  · rename_i hx hX
    obtain ⟨p, rfl, hend, hcut⟩ := exists_of_scanDecimal h
    refine ⟨p, rfl, hend, fun q' halike => ?_⟩
    have hend' := halike.startsWith (fun c => isNameChar_of_isBreak) hend
    -- the mark of another base would begin in the number
    have hmark : ∀ {c rest}, isNameChar c → p ++ q' = '0' :: c :: rest → ∃ rest', p ++ q = '0' :: c :: rest' := by
      intro c rest hc heq
      obtain _ | ⟨d, _ | ⟨d', more⟩⟩ := p
      · rw [List.nil_append] at heq
        rw [heq] at hend'
        cases hend'
      · have hbehind : q' = c :: rest := (List.cons.inj heq).2
        rw [hbehind] at hend'
        exact absurd hc (Bool.eq_false_iff.mp hend')
      · cases heq
        exact ⟨more ++ q, rfl⟩
    have hx' : ∀ rest, p ++ q' ≠ '0' :: 'x' :: rest := by
      intro rest heq
      obtain ⟨rest', heq'⟩ := hmark rfl heq
      exact hx rest' heq'
    have hX' : ∀ rest, p ++ q' ≠ '0' :: 'X' :: rest := by
      intro rest heq
      obtain ⟨rest', heq'⟩ := hmark rfl heq
      exact hX rest' heq'
    rw [scanNumber_of_unmarked hx' hX', hcut q' halike]

/-! ### String literals -/

/-- At most two characters behind the one that is escaped matter, and not more than up to the mark that
ends the literal. -/
theorem takeWhile_take_append {f : Char → Bool} {quote : Char} (hquote : f quote = false) {p : List Char}
    (hp : quote ∈ p) (q q' : List Char) :
    ((p ++ q).take 2).takeWhile f = ((p ++ q').take 2).takeWhile f := by
  obtain _ | ⟨c, _ | ⟨d, more⟩⟩ := p
  · cases hp
  · obtain rfl := List.mem_singleton.mp hp
    simp [hquote]
  · rfl

theorem isDigitTo_of_digitValue? {c : Char} (h : digitValue? c = none) (base : Nat) :
    isDigitTo base c = false := by
  rw [isDigitTo, h]
  rfl

theorem escape_append {quote : Char} (hquote : digitValue? quote = none) {p : List Char}
    (hp : quote ∈ p) (c : Char) (q q' : List Char) : escape c (p ++ q) = escape c (p ++ q') := by
  unfold escape
  rw [takeWhile_take_append (isDigitTo_of_digitValue? hquote 16) hp q q',
    takeWhile_take_append (isDigitTo_of_digitValue? hquote 8) hp q q']

section Literal

variable {quote : Char} {rest behind : List Char} {more : Except LiteralFault (List UInt8)}

attribute [local simp] scanLiteral

/-- No literal goes on behind the end of its line. -/
theorem scanLiteral_line :
    scanLiteral quote 0 ('\n' :: rest) = (.error .unterminated, '\n' :: rest) := by
  cases rest <;> simp

theorem scanLiteral_quote (hquote : quote ≠ '\n') :
    scanLiteral quote 0 (quote :: rest) = (.ok [], rest) := by
  cases rest <;> simp [hquote]

theorem scanLiteral_backslash (hquote : '\\' ≠ quote) :
    scanLiteral quote 0 ['\\'] = (.error .unterminated, []) := by
  simp [hquote]

theorem scanLiteral_refused (hquote : '\\' ≠ quote) {c : Char} {fault : SyntaxFault} {taken : Nat}
    (hescape : escape c rest = (.error fault, taken)) :
    scanLiteral quote 0 ('\\' :: c :: rest) = (.error (.escape fault), rest.drop taken) := by
  simp [hquote, hescape]

theorem scanLiteral_escape (hquote : '\\' ≠ quote) {c : Char} {bytes : List UInt8} {taken : Nat}
    (hescape : escape c rest = (.ok bytes, taken)) (h : scanLiteral quote taken rest = (more, behind)) :
    scanLiteral quote 0 ('\\' :: c :: rest) = ((bytes ++ ·) <$> more, behind) := by
  simp [hquote, hescape, h]

theorem scanLiteral_plain {c : Char} (hline : c ≠ '\n') (hquote : c ≠ quote) (hescape : c ≠ '\\')
    (h : scanLiteral quote 0 rest = (more, behind)) :
    scanLiteral quote 0 (c :: rest) = ((String.utf8EncodeChar c ++ ·) <$> more, behind) := by
  cases rest with
  | nil =>
    cases h
    simp [hline, hquote, hescape]
  | cons d rest => simp [hline, hquote, hescape, h]

end Literal

theorem exists_of_scanLiteral {quote : Char} (hquote : digitValue? quote = none) {skip : Nat}
    {text q : List Char} {bytes : List UInt8} (h : scanLiteral quote skip text = (.ok bytes, q)) :
    ∃ p, text = p ++ q ∧ quote ∈ p ∧ ∀ q', scanLiteral quote skip (p ++ q') = (.ok bytes, q') := by
  induction skip, text using scanLiteral.induct quote generalizing bytes with
  | case1 skip => cases h
  | case2 c rest skip ih =>
    obtain ⟨p, rfl, hp, hcut⟩ := ih h
    exact ⟨c :: p, rfl, List.mem_cons_of_mem _ hp, hcut⟩
  | case3 rest =>
    rw [scanLiteral_line] at h
    cases h
  | case4 rest hline =>
    rw [scanLiteral_quote hline] at h
    cases h
    exact ⟨[quote], rfl, List.mem_singleton_self _, fun q' => scanLiteral_quote hline⟩
  | case5 _ hne =>
    rw [scanLiteral_backslash hne] at h
    cases h
  | case6 c rest fault taken hescape _ hne =>
    rw [scanLiteral_refused hne hescape] at h
    cases h
  | case7 c rest bytes' taken hescape more behind hmore _ hne ih =>
    rw [scanLiteral_escape hne hescape hmore] at h
    obtain ⟨hmap, rfl⟩ := Prod.mk.inj h
    cases more with
    | error e => cases hmap
    | ok more =>
      cases hmap
      obtain ⟨p, rfl, hp, hcut⟩ := ih hmore
      refine ⟨'\\' :: c :: p, rfl, List.mem_cons_of_mem _ (List.mem_cons_of_mem _ hp), fun q' => ?_⟩
      -- no escape goes on behind the quote, which is no digit
      rw [escape_append hquote hp c behind q'] at hescape
      exact scanLiteral_escape hne hescape (hcut q')
  | case8 c rest hline hne hescape more behind hmore ih =>
    rw [scanLiteral_plain hline hne hescape hmore] at h
    obtain ⟨hmap, rfl⟩ := Prod.mk.inj h
    cases more with
    | error e => cases hmap
    | ok more =>
      cases hmap
      obtain ⟨p, rfl, hp, hcut⟩ := ih hmore
      exact ⟨c :: p, rfl, List.mem_cons_of_mem _ hp, fun q' => scanLiteral_plain hline hne hescape (hcut q')⟩

/-! ### Tokens -/

theorem beginsNumber_of_alike {q q' : List Char} (h : Alike q q') {c : Char}
    (hq : beginsNumber c q = false) : beginsNumber c q' = false := by
  rw [beginsNumber, Bool.or_eq_false_iff, Bool.and_eq_false_imp] at hq ⊢
  exact ⟨hq.1, fun hdot => h.startsWith (fun c => isDigit_of_isBreak) (hq.2 hdot)⟩

theorem beginsPath_of_alike {q q' : List Char} (h : Alike q q') {c : Char}
    (hq : beginsPath c q = false) : beginsPath c q' = false := by
  rw [beginsPath, Bool.or_eq_false_iff, Bool.and_eq_false_imp] at hq ⊢
  exact ⟨hq.1, fun hdot => h.startsWith (fun c => isNameStart_of_isBreak) (hq.2 hdot)⟩

theorem isBreak_of_beginsNumber {c : Char} {rest : List Char} (h : beginsNumber c rest) :
    isBreak c = false := by
  rw [Bool.eq_false_iff]
  intro hc
  rw [beginsNumber, isDigit_of_isBreak hc, decide_eq_false (ne_of_isBreak hc rfl)] at h
  cases h

theorem isBreak_of_beginsPath {c : Char} {rest : List Char} (h : beginsPath c rest) :
    isBreak c = false := by
  rw [Bool.eq_false_iff]
  intro hc
  rw [beginsPath, isNameStart_of_isBreak hc, decide_eq_false (ne_of_isBreak hc rfl)] at h
  cases h

theorem isBreak_of_punctuation {c : Char} (h : c ∈ punctuation) : isBreak c = false := by
  have hall : punctuation.all (fun c => !isBreak c) = true := rfl
  simpa using List.all_eq_true.mp hall c h

theorem isNameChar_of_isDigit {c : Char} (h : c.isDigit) : isNameChar c := by
  simp [isNameChar, Char.isAlphanum, h]

/-- There is no number without characters. -/
theorem ne_nil_of_scanNumber {q p : List Char} {t : Token}
    (h : ∀ q', Alike q q' → scanNumber (p ++ q') = (.ok t, q')) : p ≠ [] := by
  rintro rfl
  cases h [] (.apart (by simp))

/-- The digit behind a dot is a part of the number. -/
theorem beginsNumber_append {c : Char} {p q : List Char} (h : beginsNumber c (p ++ q))
    (hend : startsWith isNameChar q = false) (q' : List Char) : beginsNumber c (p ++ q') := by
  rw [beginsNumber, Bool.or_eq_true, Bool.and_eq_true] at h ⊢
  refine h.imp_right (And.imp_right fun hdigit => ?_)
  cases p with
  | cons d more => exact hdigit
  | nil =>
    cases q with
    | nil => cases hdigit
    | cons d more => exact absurd (isNameChar_of_isDigit hdigit) (Bool.eq_false_iff.mp hend)

theorem beginsPath_append {c : Char} {rest p q : List Char} (h : beginsPath c rest)
    (hscan : scanPath rest = (p, q)) (q' : List Char) : beginsPath c (p ++ q') := by
  rw [beginsPath, Bool.or_eq_true, Bool.and_eq_true] at h ⊢
  exact h.imp_right (And.imp_right fun hstart => startsWith_of_scanPath hscan hstart q')

namespace Scanner

section

variable {line : Nat} {c : Char} {rest q : List Char}

theorem tokenAt_literal (hc : c = '"' ∨ c = '\'') {bytes : List UInt8}
    (h : scanLiteral c 0 rest = (.ok bytes, q)) :
    tokenAt line (c :: rest) = (.ok (.str (Utf8.repair bytes)), q) := by
  rw [tokenAt, if_pos hc, h]

theorem tokenAt_number (hc : ¬(c = '"' ∨ c = '\'')) (hnumber : beginsNumber c rest) {t : Token}
    (h : scanNumber (c :: rest) = (.ok t, q)) : tokenAt line (c :: rest) = (.ok t, q) := by
  rw [tokenAt, if_neg hc, if_pos hnumber, h]
  rfl

theorem tokenAt_path (hc : ¬(c = '"' ∨ c = '\'')) (hnumber : beginsNumber c rest = false)
    (hpath : beginsPath c rest) {path : List Char} (h : scanPath rest = (path, q)) :
    tokenAt line (c :: rest) = (.ok (.ident (String.ofList (c :: path))), q) := by
  rw [tokenAt, if_neg hc, if_neg (Bool.eq_false_iff.mp hnumber), if_pos hpath, h]

theorem tokenAt_symbol (hc : ¬(c = '"' ∨ c = '\'')) (hnumber : beginsNumber c rest = false)
    (hpath : beginsPath c rest = false) (hsymbol : c ∈ punctuation) :
    tokenAt line (c :: rest) = (.ok (.symbol c), rest) := by
  rw [tokenAt, if_neg hc, if_neg (Bool.eq_false_iff.mp hnumber), if_neg (Bool.eq_false_iff.mp hpath),
    if_pos hsymbol]

/-- The kinds of tokens, by their first characters. -/
theorem tokenAt_eq_ok {t : Token} (h : tokenAt line (c :: rest) = (.ok t, q)) :
    ((c = '"' ∨ c = '\'') ∧ ∃ bytes, scanLiteral c 0 rest = (.ok bytes, q) ∧ t = .str (Utf8.repair bytes)) ∨
    ¬(c = '"' ∨ c = '\'') ∧
      (beginsNumber c rest ∧ scanNumber (c :: rest) = (.ok t, q) ∨
      beginsNumber c rest = false ∧
        (beginsPath c rest ∧
          (∃ path, scanPath rest = (path, q) ∧ t = .ident (String.ofList (c :: path))) ∨
        beginsPath c rest = false ∧ c ∈ punctuation ∧ t = .symbol c ∧ rest = q)) := by
  rw [tokenAt] at h
  split at h
  · rename_i hc
    split at h
    · rename_i bytes _ hliteral
      cases h
      exact .inl ⟨hc, bytes, hliteral, rfl⟩
    · cases h
    · cases h
  · rename_i hc
    refine .inr ⟨hc, ?_⟩
    split at h
    · rename_i hnumber
      obtain ⟨htoken, rfl⟩ := Prod.mk.inj h
      exact .inl ⟨hnumber, Prod.ext (mapError_eq_ok.mp htoken) rfl⟩
    · rename_i hnumber
      refine .inr ⟨Bool.eq_false_iff.mpr hnumber, ?_⟩
      split at h
      · rename_i hpath
        cases h
        exact .inl ⟨hpath, _, rfl, rfl⟩
      · rename_i hpath
        split at h
        · rename_i hsymbol
          cases h
          exact .inr ⟨Bool.eq_false_iff.mpr hpath, hsymbol, rfl, rfl⟩
        · cases h

end

/-- A token takes characters at the front of the text, the first of which is no white space and begins no
comment. It is the same token whenever what stands behind these characters is alike. -/
theorem exists_of_tokenAt {line : Nat} {text q : List Char} {t : Token}
    (h : tokenAt line text = (.ok t, q)) (ht : t ≠ .eof) :
    ∃ c p, text = c :: p ++ q ∧ isBreak c = false ∧
      ∀ line' q', Alike q q' → tokenAt line' (c :: p ++ q') = (.ok t, q') := by
  cases text with
  | nil =>
    cases h
    exact absurd rfl ht
  | cons c rest =>
    obtain ⟨hc, bytes, hliteral, rfl⟩ | ⟨hc, hkind⟩ := tokenAt_eq_ok h
    · have hquote : digitValue? c = none := by rcases hc with rfl | rfl <;> rfl
      obtain ⟨p, rfl, -, hcut⟩ := exists_of_scanLiteral hquote hliteral
      refine ⟨c, p, rfl, by rcases hc with rfl | rfl <;> rfl, fun line' q' _ => ?_⟩
      exact tokenAt_literal hc (hcut q')
    obtain ⟨hnumber, hscan⟩ | ⟨hnumber, ⟨hpath, path, hscan, rfl⟩ | ⟨hpath, hsymbol, rfl, rfl⟩⟩ := hkind
    · obtain ⟨p, heq, hend, hcut⟩ := exists_of_scanNumber hscan
      cases p with
      | nil => exact absurd rfl (ne_nil_of_scanNumber hcut)
      | cons d p =>
        cases heq
        refine ⟨c, p, rfl, isBreak_of_beginsNumber hnumber, fun line' q' halike => ?_⟩
        exact tokenAt_number hc (beginsNumber_append hnumber hend q') (hcut q' halike)
    · obtain ⟨rfl, hcut⟩ := exists_of_scanPath hscan
      refine ⟨c, path, rfl, isBreak_of_beginsPath hpath, fun line' q' halike => ?_⟩
      exact tokenAt_path hc (beginsNumber_of_alike (halike.append path) hnumber)
        (beginsPath_append hpath hscan q') (hcut q' halike)
    · refine ⟨c, [], rfl, isBreak_of_punctuation hsymbol, fun line' q' halike => ?_⟩
      exact tokenAt_symbol hc (beginsNumber_of_alike halike hnumber) (beginsPath_of_alike halike hpath)
        hsymbol

end Scanner

/-! ### Blank space -/

/-- White space and comments, all of which are closed. -/
inductive Blanks : List Char → Prop
  | nil : Blanks []
  | space {c : Char} {w : List Char} (hc : isBlank c ∨ c = '\n') (hw : Blanks w) : Blanks (c :: w)
  | line {text w : List Char} (htext : '\n' ∉ text) (hw : Blanks w) :
      Blanks ('/' :: '/' :: (text ++ '\n' :: w))
  | block {text w : List Char} (htext : ¬['*', '/'] <:+: text) (hw : Blanks w) :
      Blanks ('/' :: '*' :: (text ++ '*' :: '/' :: w))

theorem isBreak_of_blanks {w : List Char} (h : Blanks w) : ∀ c ∈ w.head?, isBreak c := by
  intro c hc
  cases h with
  | nil => cases hc
  | space hblank hw =>
    cases hc
    rcases hblank with hblank | rfl
    · rw [isBreak, hblank]
      rfl
    · rfl
  | line =>
    cases hc
    rfl
  | block =>
    cases hc
    rfl

theorem skipBlank_cons {c : Char} {rest : List Char} (hline : c ≠ '\n')
    (hslash : ∀ more, c = '/' → rest ≠ '/' :: more) (hstar : ∀ more, c = '/' → rest ≠ '*' :: more)
    (line : Nat) : skipBlank .space line (c :: rest) =
      if isBlank c then skipBlank .space line rest else (none, line, c :: rest) := by
  rw [skipBlank]
  · exact hline
  · exact hslash
  · exact hstar

theorem skipBlank_lineComment_cons {c : Char} (hline : c ≠ '\n') (line : Nat) (rest : List Char) :
    skipBlank .lineComment line (c :: rest) = skipBlank .lineComment line rest := by
  rw [skipBlank]
  exact hline

theorem skipBlank_blockComment_cons {c : Char} {rest : List Char}
    (hclose : ∀ more, c = '*' → rest ≠ '/' :: more) (hline : c ≠ '\n') (opened line : Nat) :
    skipBlank (.blockComment opened) line (c :: rest) = skipBlank (.blockComment opened) line rest := by
  rw [skipBlank]
  · exact hclose
  · exact hline

/-- The text may end anywhere but in a comment that has its own end mark. -/
theorem skipBlank_nil {mode : Blank} (hmode : ∀ opened, mode ≠ .blockComment opened) (line : Nat) :
    skipBlank mode line [] = (none, line, []) := by
  cases mode with
  | space => rfl
  | lineComment => rfl
  | blockComment opened => exact absurd rfl (hmode opened)

theorem skipBlank_space {c : Char} (h : isBlank c) (line : Nat) (rest : List Char) :
    skipBlank .space line (c :: rest) = skipBlank .space line rest := by
  have hc : c ≠ '\n' ∧ c ≠ '/' := by
    constructor <;> rintro rfl <;> cases h
  rw [skipBlank_cons hc.1 (fun _ hslash => absurd hslash hc.2) (fun _ hslash => absurd hslash hc.2),
    if_pos h]

/-- Blank space ends at a character that is none and begins no comment. -/
theorem skipBlank_of_not_isBreak {c : Char} (h : isBreak c = false) (line : Nat) (rest : List Char) :
    skipBlank .space line (c :: rest) = (none, line, c :: rest) := by
  simp only [isBreak, Bool.or_eq_false_iff, decide_eq_false_iff_not] at h
  rw [skipBlank_cons h.1.2 (fun _ hslash => absurd hslash h.2) (fun _ hslash => absurd hslash h.2),
    if_neg (Bool.eq_false_iff.mp h.1.1)]

theorem skipBlank_lineComment {text : List Char} (h : '\n' ∉ text) (line : Nat) (rest : List Char) :
    skipBlank .lineComment line (text ++ '\n' :: rest) = skipBlank .space (line + 1) rest := by
  induction text with
  | nil => rfl
  | cons c text ih =>
    obtain ⟨hc, htext⟩ := not_or.mp (mt List.mem_cons.mpr h)
    rw [List.cons_append, skipBlank_lineComment_cons (Ne.symm hc), ih htext]

theorem skipBlank_blockComment {text : List Char} (h : ¬['*', '/'] <:+: text) (opened line : Nat)
    (rest : List Char) : skipBlank (.blockComment opened) line (text ++ '*' :: '/' :: rest) =
      skipBlank .space (line + text.count '\n') rest := by
  induction text generalizing line with
  | nil => rfl
  | cons c text ih =>
    have htext : ¬['*', '/'] <:+: text := fun hinside => h (hinside.trans (List.suffix_cons c text).isInfix)
    by_cases hc : c = '\n'
    · subst hc
      rw [List.count_cons_self, Nat.add_comm (text.count '\n'), ← Nat.add_assoc]
      exact ih htext (line + 1)
    · have hclose : ∀ more, c = '*' → text ++ '*' :: '/' :: rest ≠ '/' :: more := by
        rintro more rfl heq
        -- the comment would be closed inside the text
        cases text with
        | nil => cases heq
        | cons d text =>
          cases heq
          exact h ⟨[], text, rfl⟩
      rw [List.cons_append, skipBlank_blockComment_cons hclose hc, ih htext, List.count_cons_of_ne hc]

/-- Blank space is skipped, whatever stands behind it. -/
theorem skipBlank_blanks {w : List Char} (h : Blanks w) (line : Nat) (rest : List Char) :
    skipBlank .space line (w ++ rest) = skipBlank .space (line + w.count '\n') rest := by
  induction h generalizing line with
  | nil => rfl
  | @space c w hc hw ih =>
    rcases hc with hc | rfl
    · have hne : c ≠ '\n' := by
        rintro rfl
        cases hc
      rw [List.cons_append, skipBlank_space hc, ih, List.count_cons_of_ne hne]
    · rw [List.cons_append, skipBlank, ih, List.count_cons_self, Nat.add_assoc, Nat.add_comm 1]
  | @line text w htext hw ih =>
    have hcount : List.count '\n' ('/' :: '/' :: (text ++ '\n' :: w)) = w.count '\n' + 1 := by
      simp [List.count_append, List.count_eq_zero.mpr htext]
    rw [hcount, List.cons_append, List.cons_append, List.append_assoc, List.cons_append, skipBlank,
      skipBlank_lineComment htext, ih, Nat.add_assoc, Nat.add_comm 1]
  | @block text w htext hw ih =>
    have hcount : List.count '\n' ('/' :: '*' :: (text ++ '*' :: '/' :: w)) =
        text.count '\n' + w.count '\n' := by
      simp [List.count_append]
    rw [hcount, List.cons_append, List.cons_append, List.append_assoc, List.cons_append, List.cons_append,
      skipBlank, skipBlank_blockComment htext, ih, Nat.add_assoc]

/-- The text ends the blank space that it is a part of. -/
def Blank.Closes : Blank → List Char → Prop
  | .space, w => Blanks w
  | .lineComment, w => ∃ text more, w = text ++ '\n' :: more ∧ '\n' ∉ text ∧ Blanks more
  | .blockComment _, w =>
    ∃ text more, w = text ++ '*' :: '/' :: more ∧ ¬['*', '/'] <:+: text ∧ Blanks more

/-- The end mark of a comment is in no text that it is not in already, unless it begins there. -/
theorem not_endMark_cons {c : Char} {text : List Char} (hclose : ∀ more, c = '*' → text ≠ '/' :: more)
    (h : ¬['*', '/'] <:+: text) : ¬['*', '/'] <:+: c :: text := by
  intro hinside
  rcases List.infix_cons_iff.mp hinside with hfront | hinside
  · obtain ⟨hc, ⟨more, rfl⟩⟩ := List.cons_prefix_cons.mp hfront
    exact hclose more hc.symm rfl
  · exact h hinside

/-- What is skipped in front of a character is blank space. -/
theorem exists_of_skipBlank {mode : Blank} {line line' : Nat} {text : List Char} {c : Char}
    {rest : List Char} (h : skipBlank mode line text = (none, line', c :: rest)) :
    ∃ w, mode.Closes w ∧ text = w ++ c :: rest := by
  induction mode, line, text using skipBlank.induct with
  | case1 line text ih =>
    rw [skipBlank] at h
    obtain ⟨w, hw, rfl⟩ := ih h
    exact ⟨'\n' :: w, .space (.inr rfl) hw, rfl⟩
  | case2 line text ih =>
    rw [skipBlank] at h
    obtain ⟨_, ⟨text, more, rfl, htext, hmore⟩, rfl⟩ := ih h
    exact ⟨_, .line htext hmore, rfl⟩
  | case3 line text ih =>
    rw [skipBlank] at h
    obtain ⟨_, ⟨text, more, rfl, htext, hmore⟩, rfl⟩ := ih h
    exact ⟨_, .block htext hmore, rfl⟩
  | case4 line d text _ _ _ hblank ih =>
    rw [skipBlank_space hblank] at h
    obtain ⟨w, hw, rfl⟩ := ih h
    exact ⟨d :: w, .space (.inl hblank) hw, rfl⟩
  | case5 line d text hline hslash hstar hblank =>
    rw [skipBlank_cons hline hslash hstar, if_neg hblank] at h
    cases h
    exact ⟨[], .nil, rfl⟩
  | case6 line text ih =>
    rw [skipBlank] at h
    obtain ⟨w, hw, rfl⟩ := ih h
    exact ⟨'\n' :: w, ⟨[], w, rfl, by simp, hw⟩, rfl⟩
  | case7 line d text hline ih =>
    rw [skipBlank_lineComment_cons hline] at h
    obtain ⟨_, ⟨text, more, rfl, htext, hmore⟩, rfl⟩ := ih h
    refine ⟨_, ⟨d :: text, more, rfl, ?_, hmore⟩, rfl⟩
    exact fun hmem => (List.mem_cons.mp hmem).elim (fun heq => hline heq.symm) htext
  | case8 opened line text ih =>
    rw [skipBlank] at h
    obtain ⟨w, hw, rfl⟩ := ih h
    refine ⟨'*' :: '/' :: w, ⟨[], w, rfl, fun hinside => ?_, hw⟩, rfl⟩
    cases List.infix_nil.mp hinside
  | case9 opened line text ih =>
    rw [skipBlank] at h
    obtain ⟨_, ⟨text, more, rfl, htext, hmore⟩, rfl⟩ := ih h
    exact ⟨_, ⟨'\n' :: text, more, rfl, not_endMark_cons (fun _ => nofun) htext, hmore⟩, rfl⟩
  | case10 opened line d text hclose hline ih =>
    rw [skipBlank_blockComment_cons hclose hline] at h
    obtain ⟨_, ⟨text, more, rfl, htext, hmore⟩, rfl⟩ := ih h
    refine ⟨_, ⟨d :: text, more, rfl, not_endMark_cons ?_ htext, hmore⟩, rfl⟩
    rintro behind rfl rfl
    exact hclose _ rfl rfl
  | case11 opened line =>
    rw [skipBlank] at h
    cases h
  | case12 mode line hmode =>
    rw [skipBlank_nil hmode] at h
    cases h

namespace Scanner

/-- A token takes blank space and the characters that it is made of. It is the same token whenever what
stands behind these characters is alike. -/
theorem exists_of_next {s s' : Scanner} {t : Located} (h : s.next = (.ok t, s'))
    (ht : t.token ≠ .eof) :
    ∃ w c p, s.rest = w ++ (c :: p ++ s'.rest) ∧ Blanks w ∧ isBreak c = false ∧
      ∀ line q', Alike s'.rest q' →
        next ⟨w ++ (c :: p ++ q'), line⟩ =
          (.ok ⟨t.token, line + w.count '\n'⟩, ⟨q', line + w.count '\n'⟩) := by
  obtain ⟨text, line⟩ := s
  rw [next] at h
  split at h
  · cases h
  · rename_i line' text' hskip
    rcases htoken : tokenAt line' text' with ⟨token | token, q⟩
    · rw [htoken] at h
      cases h
    · rw [htoken] at h
      cases h
      obtain ⟨c, p, rfl, hc, hcut⟩ := exists_of_tokenAt htoken ht
      obtain ⟨w, hw, rfl⟩ := exists_of_skipBlank hskip
      refine ⟨w, c, p, rfl, hw, hc, fun line q' halike => ?_⟩
      rw [next, skipBlank_blanks hw, List.cons_append, skipBlank_of_not_isBreak hc]
      dsimp only
      rw [← List.cons_append, hcut _ q' halike]
      rfl

end Scanner

end Protobuf.Schema

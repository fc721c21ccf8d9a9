import Protobuf.Proofs.Schema.Spelling

/-!
# Texts in quotes

A text in quotes is written byte by byte. A byte stands there as it is, or an escape stands for it,
and each byte has its own spelling: the bytes of one character need not be spelled alike. All that
is required is that the spellings together are text. The scanner reads characters and not bytes, so
it can be ahead of the spelling by the last bytes of a character. None of them is below 128, and the
byte of the backslash is, so the spelling of each of them is the byte itself.

The scanner puts together the bytes of the text, whatever their spellings are, and nothing has to be
repaired in them.

## Main definitions

* `Escape` — what may stand behind a backslash for a byte.
* `SpellsByte`, `Spells` — the ways of writing a byte, and bytes.

## Main results

* `SpellsByte.step`, `Spells.scan` — the scanner takes spelled bytes for these bytes
* `Scanner.next_literal` — what is next where a text stands in quotes, however its bytes are spelled
-/

namespace Protobuf.Schema

open Utf8 (bytesOf)

/-! ### Spellings -/

/-- The escapes that have a letter for their name. -/
def namedEscapes : List (Char × UInt8) :=
  [('a', 7), ('b', 8), ('f', 12), ('n', 10), ('r', 13), ('t', 9), ('v', 11)]

/-- The characters that have a meaning of their own behind a backslash. -/
def escapeMarks : List Char :=
  namedEscapes.map Prod.fst ++ ['x', 'X', '0', '1', '2', '3', '4', '5', '6', '7']

/-- With a backslash in front of them the characters stand for the byte. -/
inductive Escape : List Char → UInt8 → Prop
  | hex {x : Char} {digits : List Char} {b : UInt8} (hx : x = 'x' ∨ x = 'X')
      (h : Writes 16 digits b.toNat) (hlength : digits.length = 2) : Escape (x :: digits) b
  | octal {digits : List Char} {b : UInt8} (h : Writes 8 digits b.toNat)
      (hlength : digits.length = 3) : Escape digits b
  | named {c : Char} {b : UInt8} (h : (c, b) ∈ namedEscapes) : Escape [c] b

/-- Between two of the characters `quote` the first bytes stand for the byte. -/
inductive SpellsByte (quote : Char) : List UInt8 → UInt8 → Prop
  | raw {b : UInt8} (h : b ∉ bytesOf [quote, '\\', '\n']) : SpellsByte quote [b] b
  | escape {marks : List Char} {b : UInt8} (h : Escape marks b) :
      SpellsByte quote (bytesOf ('\\' :: marks)) b
  | escaped {b : UInt8} (h : b ∉ bytesOf escapeMarks) : SpellsByte quote (bytesOf ['\\'] ++ [b]) b

/-- Between two of the characters `quote` the first bytes stand for the second ones. -/
inductive Spells (quote : Char) : List UInt8 → List UInt8 → Prop
  | nil : Spells quote [] []
  | cons {piece source bytes : List UInt8} {b : UInt8} (hpiece : SpellsByte quote piece b)
      (h : Spells quote source bytes) : Spells quote (piece ++ source) (b :: bytes)

/-! ### Escapes -/

theorem mem_escapeMarks_of_isDigitTo {c : Char} (h : isDigitTo 8 c) : c ∈ escapeMarks := by
  have hlarge : ∀ n : Nat, (some (n + 10)).any (· < 8) ≠ true := by simp
  rw [isDigitTo, digitValue?] at h
  split at h
  · rename_i hdigit
    simp only [Char.isDigit, ge_iff_le, Bool.and_eq_true, decide_eq_true_eq] at hdigit
    have hlo : 48 ≤ c.toNat := hdigit.1
    have hhi : c.toNat < 56 := by
      have hvalue : c.toNat - 48 < 8 := by simpa using h
      omega
    rw [← Char.ofNat_toNat c]
    generalize c.toNat = n at hlo hhi
    interval_cases n <;> decide
  · split at h
    · exact absurd h (hlarge _)
    · split at h
      · exact absurd h (hlarge _)
      · cases h

theorem escape_hex {x : Char} (hx : x = 'x' ∨ x = 'X') {digits : List Char} {n : Nat}
    (h : Writes 16 digits n) (hlength : digits.length = 2) (rest : List Char) :
    escape x (digits ++ rest) = (.ok [n.toUInt8], digits.length) := by
  have hdigits : ((digits ++ rest).take 2).takeWhile (isDigitTo 16) = digits := by
    rw [List.take_left' hlength, List.takeWhile_eq_self_iff]
    exact h.forall_mem fun _ _ hc hv => isDigitTo_of_isDigit hc hv (by decide)
  unfold escape
  rw [if_pos hx]
  simp only [hdigits, if_neg h.ne_nil, h.numeral_eq (by decide)]

theorem escape_octal {d : Char} {digits : List Char} {n : Nat} (h : Writes 8 (d :: digits) n)
    (hlength : digits.length = 2) (hn : n ≤ 255) (rest : List Char) :
    escape d (digits ++ rest) = (.ok [n.toUInt8], digits.length) := by
  obtain ⟨hd, hall⟩ := List.forall_mem_cons.mp
    (h.forall_mem fun _ _ hc hv => isDigitTo_of_isDigit hc hv (by decide))
  have hdigits : ((digits ++ rest).take 2).takeWhile (isDigitTo 8) = digits := by
    rw [List.take_left' hlength, List.takeWhile_eq_self_iff]
    exact hall
  have hx : ¬(d = 'x' ∨ d = 'X') := by
    rintro (rfl | rfl) <;> cases hd
  unfold escape
  rw [if_neg hx, if_pos hd]
  simp only [hdigits, h.numeral_eq (by decide), if_neg (Nat.not_lt.mpr hn)]

/-- A character without a meaning of its own stands for itself. -/
theorem escape_self {c : Char} (h : c ∉ escapeMarks) (rest : List Char) :
    escape c rest = (.ok (String.utf8EncodeChar c), 0) := by
  have hx : ¬(c = 'x' ∨ c = 'X') := by
    rintro (rfl | rfl) <;> exact h (by decide)
  rw [escape, if_neg hx, if_neg fun hdigit => h (mem_escapeMarks_of_isDigitTo hdigit)]
  all_goals
    rintro rfl
    exact h (by decide)

/-- An escape is taken for its byte, and no more than its own characters are taken for it. -/
theorem Escape.eq {marks : List Char} {b : UInt8} (h : Escape marks b) : ∃ e digits,
    marks = e :: digits ∧ ∀ rest, Schema.escape e (digits ++ rest) = (.ok [b], digits.length) := by
  cases h with
  | @hex x digits _ hx h hlength =>
    refine ⟨x, digits, rfl, fun rest => ?_⟩
    rw [escape_hex hx h hlength, Nat.toUInt8_eq, UInt8.ofNat_toNat]
  | octal h hlength =>
    obtain ⟨d, digits, rfl⟩ := List.exists_cons_of_ne_nil h.ne_nil
    refine ⟨d, digits, rfl, fun rest => ?_⟩
    rw [escape_octal h (Nat.succ.inj hlength) (Nat.le_of_lt_succ b.toNat_lt), Nat.toUInt8_eq,
      UInt8.ofNat_toNat]
  | @named c _ h =>
    refine ⟨c, [], rfl, fun rest => ?_⟩
    simp only [namedEscapes, List.mem_cons, Prod.mk.injEq, List.not_mem_nil, or_false] at h
    rcases h with ⟨rfl, rfl⟩ | ⟨rfl, rfl⟩ | ⟨rfl, rfl⟩ | ⟨rfl, rfl⟩ | ⟨rfl, rfl⟩ | ⟨rfl, rfl⟩ |
      ⟨rfl, rfl⟩ <;> rfl

/-! ### Scanning -/

variable {quote : Char}

theorem scanLiteral_skip (chars rest : List Char) :
    scanLiteral quote chars.length (chars ++ rest) = scanLiteral quote 0 rest := by
  induction chars with
  | nil => rfl
  | cons c chars ih => rw [List.cons_append, List.length_cons, scanLiteral, ih]

/-- A byte from 128 on stands for itself only. -/
theorem SpellsByte.eq_of_le {piece more source : List UInt8} {b b' : UInt8}
    (h : SpellsByte quote piece b) (hb : 128 ≤ b') (heq : b' :: more = piece ++ source) :
    b' = b ∧ more = source := by
  cases h with
  | raw => exact List.cons.inj heq
  | escape | escaped =>
    obtain ⟨rfl, -⟩ := List.cons.inj heq
    exact absurd hb (by decide)

/-- One character on, or one escape, the first byte has been read, and with it the bytes `conts` of
the same character. -/
theorem SpellsByte.step (hquote : '\\' ≠ quote) {piece source : List UInt8} {b : UInt8}
    (h : SpellsByte quote piece b) {text : List Char} (htext : bytesOf text = piece ++ source) :
    ∃ conts more, (∀ b ∈ conts, 128 ≤ b) ∧ conts ++ bytesOf more = source ∧
      ∀ {rest behind bytes}, scanLiteral quote 0 (more ++ rest) = (.ok bytes, behind) →
        scanLiteral quote 0 (text ++ rest) = (.ok (b :: (conts ++ bytes)), behind) := by
  cases h with
  | raw hraw =>
    obtain ⟨c, more, conts, rfl, hc, hconts, hmore⟩ := Utf8.exists_of_bytesOf_cons htext
    have hplain : ∀ d ∈ [quote, '\\', '\n'], c ≠ d := by
      rintro d hd rfl
      exact hraw (List.mem_flatMap.mpr ⟨c, hd, hc ▸ List.mem_cons_self⟩)
    refine ⟨conts, more, hconts, hmore, fun hscan => ?_⟩
    rw [List.cons_append, scanLiteral_plain (hplain _ (by simp)) (hplain _ (by simp))
      (hplain _ (by simp)) hscan, hc]
    rfl
  | escape hescape =>
    obtain ⟨e, digits, rfl, htaken⟩ := hescape.eq
    obtain ⟨more, rfl, hmore⟩ := Utf8.exists_of_bytesOf_append htext
    refine ⟨[], more, List.forall_mem_nil _, hmore, fun {rest} _ _ hscan => ?_⟩
    rw [List.append_assoc, List.cons_append, List.cons_append,
      scanLiteral_escape hquote (htaken (more ++ rest))
        ((scanLiteral_skip digits (more ++ rest)).trans hscan)]
    rfl
  | escaped hself =>
    rw [List.append_assoc] at htext
    obtain ⟨chars, rfl, hchars⟩ := Utf8.exists_of_bytesOf_append htext
    obtain ⟨c, more, conts, rfl, hc, hconts, hmore⟩ := Utf8.exists_of_bytesOf_cons hchars
    have hplain : c ∉ escapeMarks := fun hmem =>
      hself (List.mem_flatMap.mpr ⟨c, hmem, hc ▸ List.mem_cons_self⟩)
    refine ⟨conts, more, hconts, hmore, fun {rest} _ _ hscan => ?_⟩
    rw [List.append_assoc, List.cons_append, List.nil_append, List.cons_append,
      scanLiteral_escape hquote (escape_self hplain (more ++ rest)) hscan, hc]
    rfl

/-- The scanner takes spelled bytes for these bytes. Of the character that it has read last, the
bytes `conts` come first. -/
theorem Spells.scan (hquote : quote = '"' ∨ quote = '\'') {source bytes : List UInt8}
    (h : Spells quote source bytes) {conts : List UInt8} {text : List Char}
    (hconts : ∀ b ∈ conts, 128 ≤ b) (htext : conts ++ bytesOf text = source ++ bytesOf [quote]) :
    ∃ more, bytes = conts ++ more ∧
      ∀ rest, scanLiteral quote 0 (text ++ rest) = (.ok more, rest) := by
  have hbackslash : '\\' ≠ quote := by rcases hquote with rfl | rfl <;> decide
  have hline : quote ≠ '\n' := by rcases hquote with rfl | rfl <;> decide
  induction h generalizing conts text with
  | nil =>
    cases conts with
    | nil =>
      obtain ⟨more, rfl, hmore⟩ := Utf8.exists_of_bytesOf_append
        (htext.trans (List.append_nil _).symm)
      obtain rfl := Utf8.eq_nil_of_bytesOf hmore
      exact ⟨[], rfl, fun rest => scanLiteral_quote hline⟩
    | cons b conts =>
      obtain ⟨hb, -⟩ := List.forall_mem_cons.mp hconts
      rcases hquote with rfl | rfl <;>
      · obtain ⟨rfl, -⟩ := List.cons.inj htext
        exact absurd hb (by decide)
  | @cons piece source bytes b hpiece h ih =>
    cases conts with
    | nil =>
      rw [List.nil_append, List.append_assoc] at htext
      obtain ⟨conts, more, hconts, hmore, hstep⟩ := hpiece.step hbackslash htext
      obtain ⟨bytes, rfl, hscan⟩ := ih hconts hmore
      exact ⟨_, rfl, fun rest => hstep (hscan rest)⟩
    | cons b' conts =>
      obtain ⟨hb, hconts⟩ := List.forall_mem_cons.mp hconts
      rw [List.cons_append, List.append_assoc] at htext
      obtain ⟨rfl, hmore⟩ := hpiece.eq_of_le hb htext
      obtain ⟨bytes, rfl, hscan⟩ := ih hconts hmore
      exact ⟨bytes, rfl, hscan⟩

namespace Scanner

/-- What is next where a text stands in quotes, whichever spelling was chosen for each byte. -/
theorem next_literal (hquote : quote = '"' ∨ quote = '\'') {source : List UInt8} {s : String}
    (hspells : Spells quote source (Utf8.encode s)) {literal : String}
    (hliteral : Utf8.encode literal = bytesOf [quote] ++ source ++ bytesOf [quote])
    (rest : List Char) (line : Nat) :
    next ⟨literal.toList ++ rest, line⟩ = (.ok ⟨.str s, line⟩, ⟨rest, line⟩) := by
  have hchars : bytesOf literal.toList = bytesOf [quote] ++ (source ++ bytesOf [quote]) :=
    hliteral.trans (List.append_assoc _ _ _)
  obtain ⟨text, htext, hbehind⟩ := Utf8.exists_of_bytesOf_append hchars
  obtain ⟨bytes, hbytes, hscan⟩ := hspells.scan hquote (List.forall_mem_nil _) hbehind
  have hbreak : isBreak quote = false := by rcases hquote with rfl | rfl <;> rfl
  rw [next, htext, List.append_assoc, List.cons_append, List.nil_append,
    skipBlank_of_not_isBreak hbreak]
  dsimp only
  rw [tokenAt_literal hquote (hscan rest), ← List.nil_append bytes, ← hbytes, Utf8.repair_encode]
  rfl

/-- The bytes of one character are spelled in two ways, and a digit follows the octal one. -/
theorem next_literal_mixed :
    Spells '"' (Utf8.encode "\\xC3\\2511\\\"ü\\n") (Utf8.encode "é1\"ü\n") ∧
      next ⟨"\"\\xC3\\2511\\\"ü\\n\"".toList ++ [';'], 1⟩ =
        (.ok ⟨.str "é1\"ü\n", 1⟩, ⟨[';'], 1⟩) := by
  have hhex : SpellsByte '"' (bytesOf ['\\', 'x', 'C', '3']) 0xC3 := .escape <| .hex (.inl rfl)
    ⟨by decide, [12, 3], .cons (.inr rfl) (.cons (.inl rfl) .nil), by decide, rfl⟩ rfl
  have hoctal : SpellsByte '"' (bytesOf ['\\', '2', '5', '1']) 0xA9 := .escape <| .octal
    ⟨by decide, [2, 5, 1], .cons (.inl rfl) (.cons (.inl rfl) (.cons (.inl rfl) .nil)), by decide,
      rfl⟩ rfl
  have hone : SpellsByte '"' [0x31] 0x31 := .raw (by decide)
  have hfirst : SpellsByte '"' [0xC3] 0xC3 := .raw (by decide)
  have hlast : SpellsByte '"' [0xBC] 0xBC := .raw (by decide)
  have hself : SpellsByte '"' (bytesOf ['\\'] ++ [0x22]) 0x22 := .escaped (by decide)
  have hnewline : SpellsByte '"' (bytesOf ['\\', 'n']) 10 := .escape (.named (by decide))
  have hpieces := Spells.cons hhex <| .cons hoctal <| .cons hone <| .cons hself <| .cons hfirst <|
    .cons hlast <| .cons hnewline .nil
  have hspells : Spells '"' (Utf8.encode "\\xC3\\2511\\\"ü\\n") (Utf8.encode "é1\"ü\n") := by
    convert hpieces <;> decide +kernel
  exact ⟨hspells, next_literal (.inl rfl) hspells (by decide +kernel) [';'] 1⟩

end Scanner

end Protobuf.Schema

import Mathlib
import Protobuf.Proofs.Schema.Progress
import Protobuf.Schema.Lexer

/-!
# The lines of tokens

The scanner counts line breaks in the blank space between tokens. A token is on one line, but for a string
literal with escaped line breaks, which are not counted. So the line of a token falls short of the line
breaks in front of it by those in the literals in front of it, and by no others.

## Main definitions

* `Scanner.gap`, `Scanner.start`, `Scanner.lexeme` — what is skipped before the next token, the text from
  its first character on, and its characters.
* `Lexer.nth` — the tokens of a text one after the other, none of which is given back.
* `Lexer.Placed` — where a token stands, and which line it has.

## Main results

* `Scanner.line_next` — the next token is on the line that the blank space before it leads to
* `Lexer.placed` — each token of a text is placed
* `Lexer.line_next` — the next token is on the current line, but for the line breaks on the way
* `Lexer.nth_of_eof` — the end of the text is there for ever
* `Lexer.nth_tokens` — the tokens of a text are those that are taken one after the other
-/

namespace Protobuf.Schema

/-! ### Texts on one line -/

/-- The part of a text in front of its rest. -/
def upTo (text rest : List Char) : List Char :=
  text.take (text.length - rest.length)

@[simp]
theorem upTo_append (p q : List Char) : upTo (p ++ q) q = p := by
  simp [upTo]

/-- No line break stands in the text in front of its rest. -/
def SameLine (text rest : List Char) : Prop :=
  ∃ p, text = p ++ rest ∧ '\n' ∉ p

namespace SameLine

variable {a b c : List Char}

theorem refl (a : List Char) : SameLine a a :=
  ⟨[], rfl, by simp⟩

theorem cons {x : Char} (hx : x ≠ '\n') (h : SameLine a b) : SameLine (x :: a) b := by
  obtain ⟨p, rfl, hp⟩ := h
  exact ⟨x :: p, rfl, by simp [hx.symm, hp]⟩

theorem trans (h : SameLine a b) (h' : SameLine b c) : SameLine a c := by
  obtain ⟨p, rfl, hp⟩ := h
  obtain ⟨q, rfl, hq⟩ := h'
  exact ⟨p ++ q, by simp, by simp [hp, hq]⟩

theorem dropWhile {f : Char → Bool} (hf : f '\n' = false) (a : List Char) :
    SameLine a (a.dropWhile f) := by
  refine ⟨a.takeWhile f, List.takeWhile_append_dropWhile.symm, fun hmem => ?_⟩
  rw [List.mem_takeWhile_imp hmem] at hf
  cases hf

end SameLine

/-- Every line break in the text stands right behind a backslash. -/
def Escaped (text : List Char) : Prop :=
  ∀ before behind, text = before ++ '\n' :: behind → before.getLast? = some '\\'

namespace Escaped

variable {text : List Char} {c : Char}

theorem of_notMem (h : '\n' ∉ text) : Escaped text := by
  rintro before behind rfl
  exact absurd (by simp) h

theorem cons (hc : c ≠ '\n') (h : Escaped text) : Escaped (c :: text) := by
  intro before behind heq
  cases before with
  | nil => exact absurd (List.cons.inj heq).1 hc
  | cons d before =>
    have hlast := h before behind (List.cons.inj heq).2
    rw [List.getLast?_cons, hlast]
    rfl

/-- What is escaped may be a line break. -/
theorem escape (h : Escaped text) (c : Char) : Escaped ('\\' :: c :: text) := by
  intro before behind heq
  obtain _ | ⟨d, _ | ⟨d', before⟩⟩ := before
  · cases (List.cons.inj heq).1
  · cases (List.cons.inj heq).1
    rfl
  · have hlast := h before behind (List.cons.inj (List.cons.inj heq).2).2
    rw [List.getLast?_cons, List.getLast?_cons, hlast]
    rfl

end Escaped

/-- The characters of a token: they are on one line, but for escaped line breaks in a string literal. -/
structure OneLine (text : List Char) : Prop where
  escaped : Escaped text
  literal : '\n' ∈ text → text.head? = some '"' ∨ text.head? = some '\''

theorem OneLine.of_notMem {text : List Char} (h : '\n' ∉ text) : OneLine text :=
  ⟨.of_notMem h, fun hmem => absurd hmem h⟩

/-! ### Blank space -/

/-- A place behind the text, on the line that it has there if the text begins on the given one. -/
def Counted (text : List Char) (line : Nat) (place : Option Nat × Nat × List Char) : Prop :=
  ∃ w, text = w ++ place.2.2 ∧ place.2.1 = line + w.count '\n'

namespace Counted

variable {c : Char} {text : List Char} {line : Nat} {place : Option Nat × Nat × List Char}

theorem refl (opened : Option Nat) (line : Nat) (text : List Char) :
    Counted text line (opened, line, text) :=
  ⟨[], rfl, rfl⟩

theorem cons (hc : c ≠ '\n') (h : Counted text line place) : Counted (c :: text) line place := by
  obtain ⟨w, htext, hline⟩ := h
  exact ⟨c :: w, by rw [htext, List.cons_append], by rw [hline, List.count_cons_of_ne hc]⟩

theorem newline (h : Counted text (line + 1) place) : Counted ('\n' :: text) line place := by
  obtain ⟨w, htext, hline⟩ := h
  refine ⟨'\n' :: w, by rw [htext, List.cons_append], ?_⟩
  rw [hline, List.count_cons_self, Nat.add_assoc, Nat.add_comm 1]

end Counted

/-- Lines are counted where blank space is skipped, whether it ends or not. -/
theorem counted_skipBlank (mode : Blank) (line : Nat) (text : List Char) :
    Counted text line (skipBlank mode line text) := by
  induction mode, line, text using skipBlank.induct with
  | case1 line text ih => exact .newline ih
  | case2 line text ih => exact .cons (by decide) (.cons (by decide) ih)
  | case3 line text ih => exact .cons (by decide) (.cons (by decide) ih)
  | case4 line c text hc _ _ hblank ih =>
    rw [skipBlank_space hblank]
    exact .cons hc ih
  | case5 line c text hc hslash hstar hblank =>
    rw [skipBlank_cons hc hslash hstar, if_neg hblank]
    exact .refl _ _ _
  | case6 line text ih => exact .newline ih
  | case7 line c text hc ih =>
    rw [skipBlank_lineComment_cons hc]
    exact .cons hc ih
  | case8 opened line text ih => exact .cons (by decide) (.cons (by decide) ih)
  | case9 opened line text ih => exact .newline ih
  | case10 opened line c text hclose hc ih =>
    rw [skipBlank_blockComment_cons hclose hc]
    exact .cons hc ih
  | case11 opened line => exact .refl _ _ _
  | case12 mode line hmode =>
    rw [skipBlank_nil hmode]
    exact .refl _ _ _

/-! ### Tokens -/

theorem sameLine_scanPath (text : List Char) : SameLine text (scanPath text).2 := by
  induction text with
  | nil => exact .refl _
  | cons c rest ih =>
    by_cases hgoes : isNameChar c ∨ c = '.' ∧ startsWith isNameStart rest
    · rw [scanPath_of_goes rfl hgoes]
      refine .cons ?_ ih
      rintro rfl
      rcases hgoes with hname | ⟨hdot, -⟩
      · cases hname
      · cases hdot
    · obtain ⟨hc, hdot⟩ := not_or.mp hgoes
      rw [scanPath_of_stops (Bool.eq_false_iff.mpr hc) fun hd =>
        Bool.eq_false_iff.mpr fun hstart => hdot ⟨hd, hstart⟩]
      exact .refl _

@[simp]
theorem endNumber_snd (text : List Char) (token : Except SyntaxFault Token) (rest : List Char) :
    (endNumber text token rest).2 = rest := by
  rw [endNumber]
  split <;> rfl

theorem sameLine_scanHex (mark text : List Char) : SameLine text (scanHex mark text).2 := by
  have hdigits : SameLine text (text.dropWhile (isDigitTo 16)) := .dropWhile rfl text
  rw [scanHex]
  split
  · exact hdigits
  · rw [endNumber_snd]
    exact hdigits

theorem sameLine_scanFraction (text : List Char) : SameLine text (scanFraction text).2.2 := by
  rw [scanFraction.eq_def]
  split
  · exact .cons (by decide) (.dropWhile rfl _)
  · exact .refl _

theorem sameLine_scanSign (text : List Char) : SameLine text (scanSign text).2 := by
  rw [scanSign.eq_def]
  split
  · exact .cons (by decide) (.refl _)
  · exact .cons (by decide) (.refl _)
  · exact .refl _

theorem sameLine_scanExponent (text : List Char) : SameLine text (scanExponent text).2.2 := by
  cases text with
  | nil => exact .refl _
  | cons c rest =>
    by_cases hc : c = 'e' ∨ c = 'E'
    · rw [scanExponent_cons hc rfl]
      exact .cons (by rintro rfl; simp at hc) ((sameLine_scanSign rest).trans (.dropWhile rfl _))
    · rw [scanExponent, if_neg hc]
      exact .refl _

theorem sameLine_scanDecimal (text : List Char) : SameLine text (scanDecimal text).2 := by
  have hrest : SameLine text (scanExponent (scanFraction (text.dropWhile Char.isDigit)).2.2).2.2 :=
    ((SameLine.dropWhile rfl text).trans (sameLine_scanFraction _)).trans (sameLine_scanExponent _)
  rw [scanDecimal]
  dsimp only
  split
  · exact hrest
  · rw [endNumber_snd]
    exact hrest
  · split
    · rw [endNumber_snd]
      exact hrest
    · rw [endNumber_snd]
      exact hrest

theorem sameLine_scanNumber (text : List Char) : SameLine text (scanNumber text).2 := by
  rw [scanNumber.eq_def]
  split
  · exact .cons (by decide) (.cons (by decide) (sameLine_scanHex _ _))
  · exact .cons (by decide) (.cons (by decide) (sameLine_scanHex _ _))
  · exact sameLine_scanDecimal _

/-- The characters of an escape behind the first one are digits. -/
theorem notMem_take_escape (c : Char) (rest : List Char) : '\n' ∉ rest.take (escape c rest).2 := by
  have hdigits : ∀ base, '\n' ∉ rest.take ((rest.take 2).takeWhile (isDigitTo base)).length := by
    intro base hmem
    have hprefix : (rest.take 2).takeWhile (isDigitTo base) <+: rest :=
      (List.takeWhile_prefix _).trans (List.take_prefix _ _)
    rw [← List.prefix_iff_eq_take.mp hprefix] at hmem
    have hdigit := List.mem_takeWhile_imp hmem
    rw [not_isBreak_of_isDigitTo rfl] at hdigit
    cases hdigit
  rw [escape.eq_def]
  split
  · extract_lets digits
    split
    · simp
    · exact hdigits 16
  · split
    · extract_lets digits value
      split
      · exact hdigits 8
      · exact hdigits 8
    · split <;> simp

/-- A literal has escaped line breaks only, whether it is closed or not. -/
theorem exists_of_scanLiteral_line (quote : Char) (skip : Nat) (text : List Char)
    (hskip : '\n' ∉ text.take skip) :
    ∃ p, text = p ++ (scanLiteral quote skip text).2 ∧ Escaped p := by
  induction skip, text using scanLiteral.induct quote with
  | case1 skip => exact ⟨[], by simp [scanLiteral], .of_notMem (by simp)⟩
  | case2 c rest skip ih =>
    rw [List.take_succ_cons, List.mem_cons, not_or] at hskip
    obtain ⟨p, htext, hp⟩ := ih hskip.2
    rw [scanLiteral]
    exact ⟨c :: p, by rw [List.cons_append, ← htext], hp.cons fun heq => hskip.1 heq.symm⟩
  | case3 rest =>
    rw [scanLiteral_line]
    exact ⟨[], rfl, .of_notMem (by simp)⟩
  | case4 rest hline =>
    rw [scanLiteral_quote hline]
    exact ⟨[quote], rfl, .of_notMem (by simpa using fun heq => hline heq.symm)⟩
  | case5 _ hne =>
    rw [scanLiteral_backslash hne]
    exact ⟨['\\'], rfl, .of_notMem (by decide)⟩
  | case6 c rest fault taken hescape _ hne =>
    have htaken := notMem_take_escape c rest
    rw [hescape] at htaken
    rw [scanLiteral_refused hne hescape]
    refine ⟨'\\' :: c :: rest.take taken, ?_, (Escaped.of_notMem htaken).escape c⟩
    rw [List.cons_append, List.cons_append, List.take_append_drop]
  | case7 c rest bytes taken hescape more behind hmore _ hne ih =>
    have htaken := notMem_take_escape c rest
    rw [hescape] at htaken
    obtain ⟨p, htext, hp⟩ := ih htaken
    rw [scanLiteral_escape hne hescape hmore]
    rw [hmore] at htext
    exact ⟨'\\' :: c :: p, by rw [List.cons_append, List.cons_append, ← htext], hp.escape c⟩
  | case8 c rest hline hne hescape more behind hmore ih =>
    obtain ⟨p, htext, hp⟩ := ih (by simp)
    rw [scanLiteral_plain hline hne hescape hmore]
    rw [hmore] at htext
    exact ⟨c :: p, by rw [List.cons_append, ← htext], hp.cons hline⟩

namespace Scanner

/-- A token is on one line, and so is what is taken for one that is refused. -/
theorem exists_of_tokenAt_line (line : Nat) (text : List Char) :
    ∃ p, text = p ++ (tokenAt line text).2 ∧ OneLine p := by
  have hplain : ∀ {rest}, SameLine text rest → ∃ p, text = p ++ rest ∧ OneLine p :=
    fun ⟨p, htext, hp⟩ => ⟨p, htext, .of_notMem hp⟩
  cases text with
  | nil => exact hplain (.refl _)
  | cons c rest =>
    rw [tokenAt]
    split
    · rename_i hc
      obtain ⟨p, htext, hp⟩ := exists_of_scanLiteral_line c 0 rest (by simp)
      have hquote : c ≠ '\n' := by rintro rfl; simp at hc
      have hone : OneLine (c :: p) := ⟨hp.cons hquote, fun _ => by simpa using hc⟩
      split
      · rename_i hliteral
        rw [hliteral] at htext
        exact ⟨c :: p, by rw [List.cons_append, ← htext], hone⟩
      · rename_i hliteral
        rw [hliteral] at htext
        exact ⟨c :: p, by rw [List.cons_append, ← htext], hone⟩
      · rename_i hliteral
        rw [hliteral] at htext
        exact ⟨c :: p, by rw [List.cons_append, ← htext], hone⟩
    · split
      · exact hplain (sameLine_scanNumber _)
      · split
        · rename_i hpath
          refine hplain (.cons ?_ (sameLine_scanPath rest))
          rintro rfl
          cases hpath
        · split
          · rename_i hsymbol
            refine hplain (.cons ?_ (.refl _))
            rintro rfl
            revert hsymbol
            decide
          · exact hplain (.refl _)

/-! ### The next token -/

/-- The text from the first character of the next token on. -/
def start (s : Scanner) : List Char :=
  (skipBlank .space s.line s.rest).2.2

/-- The blank space before the next token. -/
def gap (s : Scanner) : List Char :=
  upTo s.rest s.start

/-- The characters of the next token. -/
def lexeme (s : Scanner) : List Char :=
  upTo s.start s.next.2.rest

theorem exists_of_next_line (s : Scanner) :
    (∃ w, s.rest = w ++ s.start ∧ s.next.2.line = s.line + w.count '\n') ∧
      ∃ p, s.start = p ++ s.next.2.rest ∧ OneLine p := by
  obtain ⟨w, htext, hline⟩ := counted_skipBlank .space s.line s.rest
  rw [next, start]
  rcases hskip : skipBlank .space s.line s.rest with ⟨_ | opened, line, rest⟩ <;>
    rw [hskip] at htext hline
  · exact ⟨⟨w, htext, hline⟩, exists_of_tokenAt_line line rest⟩
  · exact ⟨⟨w, htext, hline⟩, [], rfl, .of_notMem (by simp)⟩

/-- The blank space before the next token leads to the text from its first character on. -/
theorem gap_append_start (s : Scanner) : s.gap ++ s.start = s.rest := by
  obtain ⟨⟨w, htext, -⟩, -⟩ := exists_of_next_line s
  rw [gap, htext, upTo_append]

/-- Behind the characters of the next token stands what it leaves. -/
theorem lexeme_append_rest (s : Scanner) : s.lexeme ++ s.next.2.rest = s.start := by
  obtain ⟨-, p, htext, -⟩ := exists_of_next_line s
  rw [lexeme, htext, upTo_append]

theorem oneLine_lexeme (s : Scanner) : OneLine s.lexeme := by
  obtain ⟨-, p, htext, hp⟩ := exists_of_next_line s
  rw [lexeme, htext, upTo_append]
  exact hp

/-- Lines are counted in the blank space before a token, and not in the token. -/
theorem line_next (s : Scanner) : s.next.2.line = s.line + s.gap.count '\n' := by
  obtain ⟨⟨w, htext, hline⟩, -⟩ := exists_of_next_line s
  rw [gap, htext, upTo_append, hline]

/-- The next token has the line that scanning has reached behind it. -/
theorem line_of_next {s s' : Scanner} {t : Located} (h : s.next = (.ok t, s')) :
    t.line = s'.line := by
  rw [next] at h
  split at h
  · cases h
  · rename_i line rest _
    rcases htoken : tokenAt line rest with ⟨token | token, rest'⟩
    · rw [htoken] at h
      cases h
    · rw [htoken] at h
      cases h
      rfl

theorem tokenAt_eq_error {line : Nat} {text rest : List Char} {e : ParseError}
    (h : tokenAt line text = (.error e, rest)) : e.line = line := by
  cases text with
  | nil => cases h
  | cons c text =>
    rw [tokenAt] at h
    split at h
    · split at h <;> cases h <;> rfl
    · split at h
      · obtain ⟨fault, -, rfl⟩ := mapError_eq_error.mp (Prod.mk.inj h).1
        rfl
      · split at h
        · cases h
        · split at h <;> cases h
          rfl

/-- What is no token has the line of the place where it stands, unless it is a comment. -/
theorem line_of_next_error {s s' : Scanner} {e : ParseError} (h : s.next = (.error e, s')) :
    (∃ opened, e = .malformed opened .unterminatedComment) ∨ e.line = s'.line := by
  rw [next] at h
  split at h
  · cases h
    exact .inl ⟨_, rfl⟩
  · rename_i line rest _
    rcases htoken : tokenAt line rest with ⟨error | token, rest'⟩
    · rw [htoken] at h
      cases h
      exact .inr (tokenAt_eq_error htoken)
    · rw [htoken] at h
      cases h

/-- A token begins with a character that is no blank space and begins none. -/
theorem exists_lexeme {s s' : Scanner} {t : Located} (h : s.next = (.ok t, s')) (ht : t.token ≠ .eof) :
    ∃ c p, s.lexeme = c :: p ∧ isBreak c = false := by
  obtain ⟨w, c, p, htext, hw, hc, -⟩ := exists_of_next h ht
  have hstart : s.start = c :: p ++ s'.rest := by
    rw [start, htext, skipBlank_blanks hw, List.cons_append, skipBlank_of_not_isBreak hc]
  have hrest : s.next.2.rest = s'.rest := by rw [h]
  rw [lexeme, hrest, hstart, upTo_append]
  exact ⟨c, p, rfl, hc⟩

end Scanner

/-! ### The tokens of a text -/

namespace Lexer

/-- The lexer of a text behind its first `n` tokens, none of which is given back. -/
def after (source : String) (n : Nat) : Lexer :=
  (fun l => l.next.2)^[n] (.ofString source)

/-- The token with the number `n` of a text, or the failure in its place. -/
def nth (source : String) (n : Nat) : Except ParseError Located :=
  (after source n).next.1

/-- The characters of the token with the number `n`. -/
def lexeme (source : String) (n : Nat) : List Char :=
  (after source n).scanner.lexeme

/-- The text in front of the token with the number `n`. -/
def before (source : String) (n : Nat) : List Char :=
  upTo source.toList (after source n).scanner.start

/-- How many line breaks stand in the first `n` tokens. -/
def hidden (source : String) (n : Nat) : Nat :=
  ((List.range n).map fun i => (lexeme source i).count '\n').sum

variable {source : String} {n : Nat}

theorem next_of_pushed {l : Lexer} (h : l.pushed = []) :
    l.next = (l.scanner.next.1, ⟨l.scanner.next.2, []⟩) := by
  rw [next, h]

theorem after_succ (source : String) (n : Nat) : after source (n + 1) = (after source n).next.2 :=
  Function.iterate_succ_apply' _ _ _

theorem pushed_after (source : String) (n : Nat) : (after source n).pushed = [] := by
  induction n with
  | zero => rfl
  | succ n ih => rw [after_succ, next_of_pushed ih]

theorem scanner_after_succ (source : String) (n : Nat) :
    (after source (n + 1)).scanner = (after source n).scanner.next.2 := by
  rw [after_succ, next_of_pushed (pushed_after source n)]

theorem nth_eq (source : String) (n : Nat) : nth source n = (after source n).scanner.next.1 := by
  rw [nth, next_of_pushed (pushed_after source n)]

theorem next_scanner {t : Located} (h : nth source n = .ok t) :
    (after source n).scanner.next = (.ok t, (after source (n + 1)).scanner) := by
  rw [scanner_after_succ, ← h, nth_eq]

theorem hidden_succ (source : String) (n : Nat) :
    hidden source (n + 1) = hidden source n + (lexeme source n).count '\n' := by
  simp [hidden, List.range_succ]

/-- Behind each token, the lines that have been counted fall short by the line breaks in tokens. -/
theorem line_after (source : String) (n : Nat) :
    ∃ p, source.toList = p ++ (after source n).scanner.rest ∧
      (after source n).scanner.line + hidden source n = 1 + p.count '\n' := by
  induction n with
  | zero => exact ⟨[], rfl, rfl⟩
  | succ n ih =>
    obtain ⟨p, htext, hline⟩ := ih
    have hgap := Scanner.gap_append_start (after source n).scanner
    have hlexeme := Scanner.lexeme_append_rest (after source n).scanner
    rw [scanner_after_succ, hidden_succ]
    refine ⟨p ++ (after source n).scanner.gap ++ lexeme source n, ?_, ?_⟩
    · rw [List.append_assoc, List.append_assoc, lexeme, hlexeme, hgap]
      exact htext
    · rw [Scanner.line_next, List.count_append, List.count_append]
      omega

/-- The text is that in front of a token, the token, and what it leaves. -/
theorem before_append (source : String) (n : Nat) :
    before source n ++ (lexeme source n ++ (after source (n + 1)).scanner.rest) = source.toList := by
  obtain ⟨p, htext, -⟩ := line_after source n
  rw [scanner_after_succ, lexeme, Scanner.lexeme_append_rest, before, htext,
    ← Scanner.gap_append_start, ← List.append_assoc, upTo_append]

/-- Behind the blank space before a token, the lines that have been counted fall short by the line breaks in
the tokens before it. -/
theorem line_before (source : String) (n : Nat) :
    (after source (n + 1)).scanner.line + hidden source n = 1 + (before source n).count '\n' := by
  obtain ⟨p, htext, hline⟩ := line_after source n
  rw [scanner_after_succ, Scanner.line_next, before, htext, ← Scanner.gap_append_start, ← List.append_assoc,
    upTo_append, List.count_append]
  omega

/-- Where the token `t` with the number `n` of a text stands, and which line it has. -/
structure Placed (source : String) (n : Nat) (t : Located) : Prop where
  text : before source n ++ (lexeme source n ++ (after source (n + 1)).scanner.rest) = source.toList
  begins : t.token ≠ .eof → ∃ c p, lexeme source n = c :: p ∧ isBreak c = false
  oneLine : ∀ i, OneLine (lexeme source i)
  line : t.line + hidden source n = 1 + (before source n).count '\n'

theorem placed {t : Located} (h : nth source n = .ok t) : Placed source n t := by
  refine ⟨before_append source n, Scanner.exists_lexeme (next_scanner h),
    fun i => Scanner.oneLine_lexeme _, ?_⟩
  rw [Scanner.line_of_next (next_scanner h)]
  exact line_before source n

/-- A failure in the place of a token is on the line of that place, unless a comment is not closed. -/
theorem line_of_nth_eq_error {e : ParseError} (h : nth source n = .error e) :
    (∃ opened, e = .malformed opened .unterminatedComment) ∨
      e.line + hidden source n = 1 + (before source n).count '\n' := by
  have hnext : (after source n).scanner.next = (.error e, (after source (n + 1)).scanner) := by
    rw [scanner_after_succ, ← h, nth_eq]
  rw [← line_before source n]
  exact (Scanner.line_of_next_error hnext).imp_right (congrArg (· + hidden source n))

/-- The line of a token is right exactly if no line break stands in a token before it. -/
theorem Placed.line_eq_iff {t : Located} (h : Placed source n t) :
    t.line = 1 + (before source n).count '\n' ↔ ∀ i < n, '\n' ∉ lexeme source i := by
  have hhidden : hidden source n = 0 ↔ ∀ i < n, '\n' ∉ lexeme source i := by
    simp [hidden, List.sum_eq_zero_iff, List.count_eq_zero]
  rw [← hhidden]
  have hline := h.line
  omega

/-- The blank space on the way to the next token, which is nothing if that has been given back. -/
def gap (l : Lexer) : List Char :=
  match l.pushed with
  | [] => l.scanner.gap
  | _ :: _ => []

/-- The next token is on the line that is current, or as far behind as there are line breaks on the way. -/
theorem line_next {l l' : Lexer} {t : Located} (h : l.next = (.ok t, l')) :
    t.line = l.currentLine + l.gap.count '\n' := by
  rw [currentLine, gap]
  cases hpushed : l.pushed with
  | nil =>
    rw [next_of_pushed hpushed] at h
    obtain ⟨htoken, -⟩ := Prod.mk.inj h
    rw [Scanner.line_of_next (Prod.ext htoken rfl), Scanner.line_next]
  | cons u more =>
    rw [next, hpushed] at h
    cases h
    rfl

/-- From one token to the next, lines are counted in the blank space between them. -/
theorem line_nth_succ {t u : Located} (h : nth source n = .ok t) (h' : nth source (n + 1) = .ok u) :
    u.line = t.line + (after source (n + 1)).gap.count '\n' := by
  have hline : (after source (n + 1)).currentLine = t.line := by
    rw [currentLine, pushed_after, Scanner.line_of_next (next_scanner h)]
  rw [← hline]
  exact line_next (Prod.ext h' rfl)

end Lexer

/-! ### The end of the text -/

namespace Scanner

/-- Where there is a character, the text does not end. -/
theorem tokenAt_ne_eof {line : Nat} {text rest : List Char} (h : tokenAt line text = (.ok .eof, rest)) :
    text = [] := by
  cases text with
  | nil => rfl
  | cons c text =>
    obtain ⟨-, bytes, -, heof⟩ | ⟨-, ⟨-, hnumber⟩ | ⟨-, ⟨-, path, -, heof⟩ | ⟨-, -, heof, -⟩⟩⟩ :=
      tokenAt_eq_ok h
    · cases heof
    · have hscan := isNumber_scanNumber (c :: text)
      rw [hnumber] at hscan
      cases hscan
    · cases heof
    · cases heof

theorem next_of_eof {s s' : Scanner} {line : Nat} (h : s.next = (.ok ⟨.eof, line⟩, s')) :
    s' = ⟨[], line⟩ := by
  rw [next] at h
  split at h
  · cases h
  · rename_i line' rest _
    rcases htoken : tokenAt line' rest with ⟨token | token, rest'⟩
    · rw [htoken] at h
      cases h
    · rw [htoken] at h
      cases h
      cases tokenAt_ne_eof htoken
      cases htoken
      rfl

end Scanner

namespace Lexer

variable {source : String} {n : Nat}

/-- The end of the text is there for ever. -/
theorem nth_of_eof {line : Nat} (h : nth source n = .ok ⟨.eof, line⟩) {m : Nat} (hm : n ≤ m) :
    nth source m = .ok ⟨.eof, line⟩ := by
  induction m, hm using Nat.le_induction with
  | base => exact h
  | succ m _ ih =>
    have hend := Scanner.next_of_eof (next_scanner ih)
    rw [nth_eq, hend]
    rfl

/-- The tokens that a text is cut into are those that are taken one after the other. -/
theorem nth_of_cuts {s : Scanner} {ts : List Located} {ending : Except ParseError Located}
    (h : s.Cuts ts ending) (hs : (after source n).scanner = s) :
    (∀ i t, ts[i]? = some t → nth source (n + i) = .ok t) ∧ nth source (n + ts.length) = ending := by
  induction h generalizing n with
  | failure hnext =>
    refine ⟨by simp, ?_⟩
    rw [List.length_nil, Nat.add_zero, nth_eq, hs, hnext]
  | ending hnext =>
    refine ⟨by simp, ?_⟩
    rw [List.length_nil, Nat.add_zero, nth_eq, hs, hnext]
  | @token s s' t more ending hnext _ _ ih =>
    have hfirst : nth source n = .ok t := by rw [nth_eq, hs, hnext]
    have hs' : (after source (n + 1)).scanner = s' := by rw [scanner_after_succ, hs, hnext]
    obtain ⟨hmore, hending⟩ := ih hs'
    refine ⟨fun i u hu => ?_, ?_⟩
    · cases i with
      | zero =>
        cases hu
        exact hfirst
      | succ i =>
        rw [Nat.add_comm i, ← Nat.add_assoc]
        exact hmore i u hu
    · rw [List.length_cons, Nat.add_comm more.length, ← Nat.add_assoc]
      exact hending

theorem nth_tokens (source : String) :
    (∀ i t, (Scanner.ofString source).tokens.1[i]? = some t → nth source i = .ok t) ∧
      nth source (Scanner.ofString source).tokens.1.length = (Scanner.ofString source).tokens.2 := by
  have h := nth_of_cuts (n := 0) (Scanner.cuts_tokens (.ofString source)) rfl
  simpa only [Nat.zero_add] using h

end Lexer

end Protobuf.Schema

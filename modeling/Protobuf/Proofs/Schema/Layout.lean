import Mathlib
import Protobuf.Proofs.Schema.Progress
import Protobuf.Proofs.Schema.Unlined

/-!
# Layout

White space and comments may be put between any two tokens of a text. The tokens stay the same but for
the lines that they stand on, as do the tokens behind them and the failure of the scanner. So the same is
read from the text.

## Main definitions

* `Scanner.Leads` — the tokens between two places of a text.
* `Boundary` — a place of a text that is in no token, string literal or comment.

## Main results

* `parse_insert` — what is read does not depend on blank space between tokens
-/

namespace Protobuf.Schema

instance : Lined Blank where
  unlined
    | .blockComment _ => .blockComment 0
    | mode => mode

instance : Lined Scanner :=
  ⟨fun s => { s with line := 0 }⟩

/-! ### Lines in the scanner -/

/-- How much is skipped does not depend on lines. -/
theorem unlined_skipBlank {mode : Blank} (mode' : Blank) (h : unlined mode = unlined mode')
    (line line' : Nat) (text : List Char) :
    unlined (skipBlank mode line text) = unlined (skipBlank mode' line' text) := by
  induction mode, line, text using skipBlank.induct generalizing mode' line' with
  | case1 line rest ih =>
    cases mode' <;> cases h
    exact ih _ rfl _
  | case2 line rest ih =>
    cases mode' <;> cases h
    exact ih _ rfl _
  | case3 line rest ih =>
    cases mode' <;> cases h
    exact ih (.blockComment line') rfl _
  | case4 line c rest hline hslash hstar hblank ih =>
    cases mode' <;> cases h
    rw [skipBlank_space hblank, skipBlank_space hblank]
    exact ih _ rfl _
  | case5 line c rest hline hslash hstar hblank =>
    cases mode' <;> cases h
    rw [skipBlank_cons hline hslash hstar, skipBlank_cons hline hslash hstar, if_neg hblank, if_neg hblank]
    rfl
  | case6 line rest ih =>
    cases mode' <;> cases h
    exact ih _ rfl _
  | case7 line c rest hline ih =>
    cases mode' <;> cases h
    rw [skipBlank_lineComment_cons hline, skipBlank_lineComment_cons hline]
    exact ih _ rfl _
  | case8 opened line rest ih =>
    cases mode' <;> cases h
    exact ih _ rfl _
  | case9 opened line rest ih =>
    cases mode' with
    | blockComment opened' => exact ih (.blockComment opened') rfl _
    | _ => cases h
  | case10 opened line c rest hclose hline ih =>
    cases mode' with
    | blockComment opened' =>
      rw [skipBlank_blockComment_cons hclose hline, skipBlank_blockComment_cons hclose hline]
      exact ih (.blockComment opened') rfl _
    | _ => cases h
  | case11 opened line =>
    cases mode' <;> cases h
    rfl
  | case12 mode line hmode =>
    cases mode <;> cases mode' <;> cases h
    · rfl
    · rfl
    · exact (hmode _ rfl).elim

namespace Scanner

/-- A token does not depend on lines, nor does a failure but for its line. -/
theorem unlined_tokenAt (line line' : Nat) (text : List Char) :
    unlined (tokenAt line text) = unlined (tokenAt line' text) := by
  cases text with
  | nil => rfl
  | cons c rest =>
    rw [tokenAt, tokenAt]
    split
    · split <;> rfl
    · split
      · rcases scanNumber (c :: rest) with ⟨token | token, q⟩ <;> rfl
      · split
        · rfl
        · split <;> rfl

/-- The next token and the place behind it depend on the text only. -/
theorem unlined_next {s s' : Scanner} (h : unlined s = unlined s') : unlined s.next = unlined s'.next := by
  obtain ⟨text, line⟩ := s
  obtain ⟨text', line'⟩ := s'
  obtain rfl : text = text' := congrArg Scanner.rest h
  have hskip := unlined_skipBlank .space (rfl : unlined Blank.space = _) line line' text
  rw [next, next]
  dsimp only
  generalize skipBlank .space line text = skipped, skipBlank .space line' text = skipped' at hskip ⊢
  obtain ⟨opened, line, rest⟩ := skipped
  obtain ⟨opened', line', rest'⟩ := skipped'
  obtain rfl : rest = rest' := eq_of_unlined_eq (congrArg (fun r => r.2.2) hskip)
  have htoken := unlined_tokenAt line line' rest
  cases opened <;> cases opened' <;> cases congrArg Prod.fst hskip
  · dsimp only
    generalize tokenAt line rest = found, tokenAt line' rest = found' at htoken ⊢
    obtain ⟨token, q⟩ := found
    obtain ⟨token', q'⟩ := found'
    obtain rfl : q = q' := eq_of_unlined_eq (congrArg Prod.snd htoken)
    have hfirst : unlined token = unlined token' := congrArg Prod.fst htoken
    cases token with
    | error e =>
      cases token' with
      | error e' =>
        have he : unlined e = unlined e' := Except.error.inj hfirst
        exact congrArg (fun e => (Except.error e, (⟨q, 0⟩ : Scanner))) he
      | ok t' => cases hfirst
    | ok t =>
      cases token' with
      | error e' => cases hfirst
      | ok t' =>
        cases hfirst
        rfl
  · rfl

/-- The tokens from a place on depend on what is next only. -/
theorem unlined_of_cuts {s s' : Scanner} {ts ts' : List Located} {ending ending' : Except ParseError Located}
    (h : s.Cuts ts ending) (h' : s'.Cuts ts' ending') (hnext : unlined s.next = unlined s'.next) :
    unlined ts = unlined ts' ∧ unlined ending = unlined ending' := by
  induction h generalizing s' ts' with
  | failure h =>
    rw [h] at hnext
    cases h' with
    | failure h' =>
      rw [h'] at hnext
      exact ⟨rfl, congrArg Prod.fst hnext⟩
    | _ h' =>
      rw [h'] at hnext
      cases hnext
  | ending h =>
    rw [h] at hnext
    cases h' with
    | failure h' =>
      rw [h'] at hnext
      cases hnext
    | ending h' => exact ⟨rfl, rfl⟩
    | token h' ht =>
      rw [h'] at hnext
      have htoken : Token.eof = _ := congrArg Located.token (Except.ok.inj (congrArg Prod.fst hnext))
      exact absurd htoken.symm ht
  | @token s s₁ t more ending h ht hmore ih =>
    rw [h] at hnext
    cases h' with
    | failure h' =>
      rw [h'] at hnext
      cases hnext
    | ending h' =>
      rw [h'] at hnext
      have htoken : t.token = .eof := congrArg Located.token (Except.ok.inj (congrArg Prod.fst hnext))
      exact absurd htoken ht
    | @token _ s₁' t' more' _ h' ht' hmore' =>
      rw [h'] at hnext
      have htoken : unlined t = unlined t' := Except.ok.inj (congrArg Prod.fst hnext)
      obtain ⟨hmore, hending⟩ := ih hmore' (unlined_next (congrArg Prod.snd hnext))
      exact ⟨List.cons_eq_cons.mpr ⟨htoken, hmore⟩, hending⟩

/-! ### Tokens at the front of a text -/

/-- From one place of a text to another one there are these tokens, and blank space in front of them. -/
inductive Leads : Scanner → List Located → Scanner → Prop
  | refl (s : Scanner) : Leads s [] s
  | token {s s' s'' : Scanner} {t : Located} {more : List Located} (h : s.next = (.ok t, s'))
      (ht : t.token ≠ .eof) (hmore : Leads s' more s'') : Leads s (t :: more) s''

theorem Leads.cuts {s s' : Scanner} {ts us : List Located} {ending : Except ParseError Located}
    (h : s.Leads ts s') (hrest : s'.Cuts us ending) : s.Cuts (ts ++ us) ending := by
  induction h with
  | refl s => exact hrest
  | token h ht hmore ih => exact .token h ht (ih hrest)

/-- The tokens at the front of a text are the same whenever what stands behind them is alike. -/
theorem Leads.alike {s s' : Scanner} {ts : List Located} (h : s.Leads ts s') :
    ∃ p, s.rest = p ++ s'.rest ∧
      ∀ q, Alike s'.rest q → Leads ⟨p ++ q, s.line⟩ ts ⟨q, s'.line⟩ := by
  induction h with
  | refl s => exact ⟨[], rfl, fun q _ => .refl _⟩
  | @token s s₁ s' t more h ht hmore ih =>
    obtain ⟨p, hp, hlead⟩ := ih
    obtain ⟨w, c, p₁, hrest, -, -, hnext⟩ := exists_of_next h ht
    obtain ⟨text, line⟩ := s
    obtain rfl : text = w ++ (c :: p₁ ++ s₁.rest) := hrest
    have hsame := h.symm.trans (hnext line s₁.rest (.refl _))
    have htoken : t = ⟨t.token, line + w.count '\n'⟩ := Except.ok.inj (congrArg Prod.fst hsame)
    have hline : s₁.line = line + w.count '\n' := congrArg (fun r => r.2.line) hsame
    refine ⟨w ++ (c :: p₁ ++ p), by simp [hp], fun q hq => ?_⟩
    have hstep : next ⟨w ++ (c :: p₁ ++ p) ++ q, line⟩ = (.ok t, ⟨p ++ q, s₁.line⟩) := by
      rw [List.append_assoc, List.append_assoc, hnext line (p ++ q) (hp ▸ hq.append p), ← htoken, hline]
    exact .token hstep ht (hlead q hq)

end Scanner

/-! ### Boundaries -/

/-- The place between the texts is between two tokens of the whole text, and in no comment: up to there
are tokens, and blank space behind the last one. -/
def Boundary (s₁ s₂ : String) : Prop :=
  ∃ tokens w line, Blanks w ∧
    (Scanner.ofString (s₁ ++ s₂)).Leads tokens ⟨w ++ s₂.toList, line⟩

theorem Blanks.append {w w' : List Char} (h : Blanks w) (h' : Blanks w') : Blanks (w ++ w') := by
  induction h with
  | nil => exact h'
  | space hc hw ih => exact .space hc ih
  | line htext hw ih =>
    rw [List.cons_append, List.cons_append, List.append_assoc, List.cons_append]
    exact .line htext ih
  | block htext hw ih =>
    rw [List.cons_append, List.cons_append, List.append_assoc, List.cons_append, List.cons_append]
    exact .block htext ih

/-- Blank space in front of a place makes no difference to what is next. -/
theorem Scanner.next_blanks {w : List Char} (h : Blanks w) (text : List Char) (line : Nat) :
    next ⟨w ++ text, line⟩ = next ⟨text, line + w.count '\n'⟩ := by
  rw [next, next, skipBlank_blanks h]

theorem toList_of_boundary {s₁ s₂ : String} {p w : List Char}
    (h : (Scanner.ofString (s₁ ++ s₂)).rest = p ++ (w ++ s₂.toList)) : s₁.toList = p ++ w := by
  have hwhole : s₁.toList ++ s₂.toList = p ++ w ++ s₂.toList := by
    rw [List.append_assoc, ← String.toList_append]
    exact h
  exact List.append_cancel_right hwhole

/-- A boundary is also where the tokens of the text in front of it end. -/
theorem Boundary.alone {s₁ s₂ : String} (h : Boundary s₁ s₂) : Boundary s₁ "" := by
  obtain ⟨tokens, w, line, hw, hlead⟩ := h
  obtain ⟨p, hp, hsame⟩ := hlead.alike
  have hs₁ : s₁.toList = p ++ w := toList_of_boundary hp
  refine ⟨tokens, w, line, hw, ?_⟩
  have heq : Scanner.ofString (s₁ ++ "") = ⟨p ++ w, 1⟩ := by
    simp [Scanner.ofString, hs₁]
  rw [heq, String.toList_empty, List.append_nil]
  exact hsame w (.apart (isBreak_of_blanks hw))

/-- The tokens of a text with blank space put in are those of the text but for the lines, as is the failure
that they end with. -/
theorem unlined_ofString_insert {s₁ s₂ w : String} (h : Boundary s₁ s₂) (hw : Blanks w.toList) :
    unlined (ParserState.ofString (s₁ ++ w ++ s₂)) = unlined (ParserState.ofString (s₁ ++ s₂)) := by
  obtain ⟨tokens, b, line, hb, hlead⟩ := h
  obtain ⟨p, hp, hsame⟩ := hlead.alike
  have hs₁ : s₁.toList = p ++ b := toList_of_boundary hp
  have hlead' : (Scanner.ofString (s₁ ++ w ++ s₂)).Leads tokens
      ⟨b ++ (w.toList ++ s₂.toList), line⟩ := by
    have heq : Scanner.ofString (s₁ ++ w ++ s₂) = ⟨p ++ (b ++ (w.toList ++ s₂.toList)), 1⟩ := by
      simp [Scanner.ofString, String.toList_append, hs₁]
    rw [heq]
    exact hsame _ (.insert b (isBreak_of_blanks hw) _)
  have hnext : unlined (Scanner.next ⟨b ++ (w.toList ++ s₂.toList), line⟩) =
      unlined (Scanner.next ⟨b ++ s₂.toList, line⟩) := by
    rw [← List.append_assoc, Scanner.next_blanks (hb.append hw), Scanner.next_blanks hb]
    exact Scanner.unlined_next rfl
  have hcuts := hlead.cuts (Scanner.cuts_tokens _)
  have hcuts' := hlead'.cuts (Scanner.cuts_tokens _)
  obtain ⟨hbehind, hending⟩ := Scanner.unlined_of_cuts (Scanner.cuts_tokens _) (Scanner.cuts_tokens _) hnext
  obtain ⟨hahead, hlast⟩ := Scanner.unlined_of_cuts (Scanner.cuts_tokens _) hcuts rfl
  obtain ⟨hahead', hlast'⟩ := Scanner.unlined_of_cuts (Scanner.cuts_tokens _) hcuts' rfl
  have htokens : unlined (Scanner.ofString (s₁ ++ w ++ s₂)).tokens.1 =
      unlined (Scanner.ofString (s₁ ++ s₂)).tokens.1 := by
    rw [hahead, hahead', unlined_append, unlined_append, hbehind]
  have hfailure : unlined (Scanner.ofString (s₁ ++ w ++ s₂)).tokens.2 =
      unlined (Scanner.ofString (s₁ ++ s₂)).tokens.2 := by
    rw [hlast, hlast', hending]
  exact congrArg₂ (fun ahead ending => ({ ahead, ending, line := 0 } : ParserState)) htokens hfailure

theorem unlined_parse (source : String) :
    unlined (parse source) = (Parser.file.run (unlined (ParserState.ofString source))).map Prod.fst := by
  rw [Parser.blind_file.run, parse_eq]
  cases Parser.file.run (ParserState.ofString source) <;> rfl

/-- Blank space may be put between two tokens of a text. Then the same is read but for the lines, or the
text is refused for the same reason but for the line. -/
theorem parse_insert {s₁ s₂ w : String} (h : Boundary s₁ s₂) (hw : Blanks w.toList) :
    (∃ file file', parse (s₁ ++ w ++ s₂) = .ok file ∧ parse (s₁ ++ s₂) = .ok file' ∧
      unlined file = unlined file') ∨
    ∃ e e', parse (s₁ ++ w ++ s₂) = .error e ∧ parse (s₁ ++ s₂) = .error e' ∧
      unlined e = unlined e' := by
  have hsame : unlined (parse (s₁ ++ w ++ s₂)) = unlined (parse (s₁ ++ s₂)) := by
    rw [unlined_parse, unlined_parse, unlined_ofString_insert h hw]
  cases hfirst : parse (s₁ ++ w ++ s₂) with
  | ok file =>
    cases hsecond : parse (s₁ ++ s₂) with
    | ok file' =>
      rw [hfirst, hsecond] at hsame
      exact .inl ⟨file, file', rfl, rfl, Except.ok.inj hsame⟩
    | error e' =>
      rw [hfirst, hsecond] at hsame
      cases hsame
  | error e =>
    cases hsecond : parse (s₁ ++ s₂) with
    | ok file' =>
      rw [hfirst, hsecond] at hsame
      cases hsame
    | error e' =>
      rw [hfirst, hsecond] at hsame
      exact .inr ⟨e, e', rfl, rfl, Except.error.inj hsame⟩

/-- Comments are put between a number and the semicolon behind it. -/
theorem parse_insert_comments :
    Boundary "option a=1" ";" ∧ Blanks " /* b */ // c\n".toList ∧
    ∃ file file', parse ("option a=1" ++ " /* b */ // c\n" ++ ";") = .ok file ∧
      parse ("option a=1" ++ ";") = .ok file' ∧ unlined file = unlined file' := by
  have hboundary : Boundary "option a=1" ";" := by
    refine ⟨[⟨.ident "option", 1⟩, ⟨.ident "a", 1⟩, ⟨.symbol '=', 1⟩, ⟨.int 1, 1⟩], [], 1, .nil, ?_⟩
    exact .token rfl (by decide) (.token rfl (by decide) (.token rfl (by decide)
      (.token rfl (by decide) (.refl _))))
  have hblanks : Blanks (' ' :: '/' :: '*' :: ([' ', 'b', ' '] ++ '*' :: '/' :: ' ' :: '/' :: '/' ::
      ([' ', 'c'] ++ '\n' :: []))) :=
    .space (by decide) (.block (by decide) (.space (by decide) (.line (by decide) .nil)))
  have hparse : parse ("option a=1" ++ ";") = .ok { options := .ofList [("a", .int 1)] } := by cbv
  have hsame := parse_insert (w := " /* b */ // c\n") hboundary hblanks
  refine ⟨hboundary, hblanks, hsame.resolve_right ?_⟩
  rintro ⟨e, e', -, hrefused, -⟩
  rw [hparse] at hrefused
  cases hrefused

end Protobuf.Schema

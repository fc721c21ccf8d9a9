import Protobuf.Proofs.Schema.Grammar
import Protobuf.Proofs.Schema.Scanner

/-!
# Tokens of schema texts

A token that is a name has characters. All tokens that a text is cut into are so. So this may be relied
on wherever a token is taken: it is what holds of the state at any time.

## Main definitions

* `ParserState.All` — all tokens that are left have a property.
* `ParserState.Proper` — all tokens that are left are as those of a text.
* `SyntaxFault.isLexical` — the faults of the scanner.
* `IsNumber` — what the scanner makes of a number.

## Main results

* `Schema.proper_tokens` — the tokens of a text are so
* `Scanner.isLexical_of_next` — the scanner fails with its own faults only
-/

namespace Protobuf.Schema

/-- A token that is a name has characters. -/
def Token.Proper (t : Token) : Prop :=
  t ≠ .ident ""

/-! ### Numbers -/

/-- The fault is one of the scanner. -/
def SyntaxFault.isLexical : SyntaxFault → Bool
  | unterminatedComment => true
  | illegalHexNumber _ => true
  | illegalNumber _ => true
  | emptyHexEscape => true
  | octalEscapeTooLarge _ => true
  | _ => false

/-- What the scanner makes of a number: a token that is one, or a fault. -/
inductive IsNumber : Except SyntaxFault Token → Prop
  | int (value : Nat) : IsNumber (.ok (.int value))
  | float (bits : UInt64) : IsNumber (.ok (.float bits))
  | error {fault : SyntaxFault} (h : fault.isLexical) : IsNumber (.error fault)

theorem isNumber_endNumber (text : List Char) {token : Except SyntaxFault Token} (h : IsNumber token)
    (rest : List Char) : IsNumber (endNumber text token rest).1 := by
  rw [endNumber]
  split
  · exact .error rfl
  · exact h

theorem isNumber_integerToken (digits : List Char) : IsNumber (integerToken digits) := by
  unfold integerToken
  extract_lets value
  clear_value value
  cases value with
  | none => exact .error rfl
  | some value => exact .int value

theorem isNumber_scanHex (mark rest : List Char) : IsNumber (scanHex mark rest).1 := by
  rw [scanHex]
  split
  · exact .error rfl
  · exact isNumber_endNumber _ (.int _) _

theorem isNumber_scanNumber (text : List Char) : IsNumber (scanNumber text).1 := by
  rw [scanNumber.eq_def]
  split
  · exact isNumber_scanHex _ _
  · exact isNumber_scanHex _ _
  · rw [scanDecimal]
    rcases scanFraction _ with ⟨fraction, pointText, rest⟩
    dsimp only
    rcases scanExponent rest with ⟨exponent, exponentText, rest⟩
    dsimp only
    split
    · exact .error rfl
    · exact isNumber_endNumber _ (.float _) _
    · split
      · exact isNumber_endNumber _ (isNumber_integerToken _) _
      · exact isNumber_endNumber _ (.float _) _

theorem isLexical_scanNumber {text : List Char} {fault : SyntaxFault}
    (h : (scanNumber text).1 = .error fault) : fault.isLexical := by
  have hnumber := isNumber_scanNumber text
  rw [h] at hnumber
  cases hnumber
  assumption

/-! ### The scanner -/

/-- The result is a token that a text may have, if it is a token. -/
def ProperResult {ε : Type} (r : Except ε Token) : Prop :=
  ∀ t, r = .ok t → t.Proper

theorem properResult_tokenAt (line : Nat) (text : List Char) :
    ProperResult (Scanner.tokenAt line text).1 := by
  intro t ht
  cases text with
  | nil =>
    cases ht
    rintro ⟨⟩
  | cons c rest =>
    obtain ⟨-, bytes, -, rfl⟩ | ⟨-, ⟨-, hscan⟩ | ⟨-, ⟨-, path, -, rfl⟩ | ⟨-, -, rfl, -⟩⟩⟩ :=
      Scanner.tokenAt_eq_ok (Prod.ext ht rfl)
    · rintro ⟨⟩
    · have hnumber := isNumber_scanNumber (c :: rest)
      rw [hscan] at hnumber
      cases hnumber <;> rintro ⟨⟩
    · intro heq
      have hlist := congrArg String.toList (Token.ident.inj heq)
      rw [String.toList_ofList] at hlist
      cases hlist
    · rintro ⟨⟩

theorem proper_next {s : Scanner} {t : Located} (h : s.next.1 = .ok t) : t.token.Proper := by
  rw [Scanner.next] at h
  split at h
  · cases h
  · rename_i line rest _
    dsimp only at h
    cases htoken : (Scanner.tokenAt line rest).1 with
    | error e =>
      rw [htoken] at h
      cases h
    | ok token =>
      rw [htoken] at h
      cases h
      exact properResult_tokenAt line rest token htoken

theorem proper_tokensWithin (fuel : Nat) (s : Scanner) :
    (∀ t ∈ (s.tokensWithin fuel).1, t.token.Proper) ∧
      ∀ t, (s.tokensWithin fuel).2 = .ok t → t.token.Proper := by
  induction fuel generalizing s with
  | zero => exact ⟨by simp [Scanner.tokensWithin], fun t ht => by cases ht; rintro ⟨⟩⟩
  | succ fuel ih =>
    rw [Scanner.tokensWithin]
    split
    · exact ⟨by simp, fun t ht => by cases ht⟩
    · exact ⟨by simp, fun t ht => by cases ht; rintro ⟨⟩⟩
    · rename_i t s' _ hnext
      have ht : t.token.Proper := proper_next (by rw [hnext])
      exact ⟨List.forall_mem_cons.mpr ⟨ht, (ih s').1⟩, (ih s').2⟩

/-- If the tokens end without a failure, they end with the end of the text. -/
theorem ending_tokensWithin {fuel : Nat} {s : Scanner} {t : Located}
    (h : (s.tokensWithin fuel).2 = .ok t) : t.token = .eof := by
  induction fuel generalizing s with
  | zero =>
    cases h
    rfl
  | succ fuel ih =>
    rw [Scanner.tokensWithin] at h
    split at h
    · cases h
    · cases h
      rfl
    · exact ih h

/-! ### Failures of the scanner -/

theorem isLexical_escape {c : Char} {rest : List Char} {fault : SyntaxFault}
    (h : (escape c rest).1 = .error fault) : fault.isLexical := by
  unfold escape at h
  extract_lets digits value at h
  split at h
  · split at h
    · cases h
      rfl
    · cases h
  · split at h
    · split at h
      · cases h
        rfl
      · cases h
    · split at h <;> cases h

theorem isLexical_scanLiteral {quote : Char} {skip : Nat} {text : List Char} {fault : SyntaxFault}
    (h : (scanLiteral quote skip text).1 = .error (.escape fault)) : fault.isLexical := by
  induction skip, text using scanLiteral.induct quote with
  | case1 skip =>
    rw [scanLiteral] at h
    cases h
  | case2 c rest skip ih =>
    rw [scanLiteral] at h
    exact ih h
  | case3 rest =>
    rw [scanLiteral_line] at h
    cases h
  | case4 rest hline =>
    rw [scanLiteral_quote hline] at h
    cases h
  | case5 _ hne =>
    rw [scanLiteral_backslash hne] at h
    cases h
  | case6 c rest fault' taken hescape _ hne =>
    rw [scanLiteral_refused hne hescape] at h
    cases h
    exact isLexical_escape (congrArg Prod.fst hescape)
  | case7 c rest bytes taken hescape more behind hmore _ hne ih =>
    rw [scanLiteral_escape hne hescape hmore] at h
    cases more with
    | ok more => cases h
    | error e =>
      cases h
      exact ih (congrArg Prod.fst hmore)
  | case8 c rest hline hne hescape more behind hmore ih =>
    rw [scanLiteral_plain hline hne hescape hmore] at h
    cases more with
    | ok more => cases h
    | error e =>
      cases h
      exact ih (congrArg Prod.fst hmore)

theorem isLexical_tokenAt {line line' : Nat} {text : List Char} {fault : SyntaxFault}
    (h : (Scanner.tokenAt line text).1 = .error (.malformed line' fault)) : fault.isLexical := by
  rw [Scanner.tokenAt.eq_def] at h
  split at h
  · cases h
  · split at h
    · split at h
      · cases h
      · cases h
      · rename_i hliteral
        cases h
        exact isLexical_scanLiteral (congrArg Prod.fst hliteral)
    · split at h
      · obtain ⟨fault, hfault, heq⟩ := mapError_eq_error.mp h
        cases heq
        exact isLexical_scanNumber hfault
      · split at h
        · cases h
        · split at h <;> cases h

/-- The faults of the scanner are not those of the grammar. -/
theorem Scanner.isLexical_of_next {s s' : Scanner} {line : Nat} {fault : SyntaxFault}
    (h : s.next = (.error (.malformed line fault), s')) : fault.isLexical := by
  rw [next] at h
  split at h
  · cases h
    rfl
  · rename_i line' rest _
    dsimp only at h
    cases htoken : (tokenAt line' rest).1 with
    | ok token =>
      rw [htoken] at h
      cases h
    | error e =>
      rw [htoken] at h
      cases h
      exact isLexical_tokenAt htoken

/-! ### The grammar -/

/-- All tokens that are left have the property `P`, the end of the text included. -/
structure ParserState.All (P : Token → Prop) (s : ParserState) : Prop where
  ahead : ∀ t ∈ s.ahead, P t.token
  ending : ∀ t, s.ending = .ok t → P t.token

/-- All tokens that are left are as those of a text. -/
abbrev ParserState.Proper : ParserState → Prop :=
  ParserState.All Token.Proper

/-- The tokens of a text are so. -/
theorem proper_tokens (s : Scanner) :
    ParserState.Proper { ahead := s.tokens.1, ending := s.tokens.2 } :=
  ⟨(proper_tokensWithin _ s).1, (proper_tokensWithin _ s).2⟩

namespace Parser

open ParserState (All Proper)

variable {P : Token → Prop}

/-- A token that is taken is one of those that are left. -/
theorem gives_next : Gives (All P) next fun t => P t.token := by
  rintro ⟨ahead, ending, seen, line, dialect⟩ hs t s' hrun
  cases ahead with
  | cons first more =>
    cases hrun
    obtain ⟨hfirst, hmore⟩ := List.forall_mem_cons.mp hs.ahead
    exact ⟨hfirst, hmore, hs.ending⟩
  | nil =>
    cases ending with
    | error e => cases hrun
    | ok last =>
      cases hrun
      exact ⟨hs.ending t rfl, hs.ahead, hs.ending⟩

instance : Lasting (All P) where
  next := gives_next.tidy
  peek := by
    refine ⟨?_⟩
    rintro ⟨ahead, ending, seen, line, dialect⟩ hs t s' hrun
    cases ahead with
    | cons first more =>
      cases hrun
      exact ⟨trivial, hs.ahead, hs.ending⟩
    | nil =>
      cases ending with
      | error e => cases hrun
      | ok last =>
        cases hrun
        exact ⟨trivial, hs.ahead, hs.ending⟩
  setLine line := ⟨fun s hs a s' hrun => by cases hrun; exact ⟨trivial, hs.ahead, hs.ending⟩⟩

instance (line : Nat) : Tidy Proper (dialectStatement line) :=
  tidy_dialectStatement (fun _ _ hs => ⟨hs.ahead, hs.ending⟩) line

theorem gives_body {σ : Type} {place : Place} {member : σ → String → Located → Parser σ}
    {J : σ → Prop} (hmember : ∀ s word t, word ≠ "" → t.token = .ident word → J s →
      Gives Proper (member s word t) J) {s : σ} (hs : J s) :
    Gives Proper (body place member s) J := by
  refine gives_iterate (fun s hs => gives_bodyStep gives_next (fun s word t hword ht hs => ?_) hs) hs
  exact hmember s word t (fun hempty => ht (hword.trans (congrArg _ hempty))) hword hs

theorem gives_path : Gives Proper path fun text => text ≠ "" := by
  refine gives_next.bind fun t ht => ?_
  split
  · rename_i text htext
    exact Gives.pure fun hempty => ht (htext.trans (congrArg _ hempty))
  · exact Gives.throw _

end Parser

end Protobuf.Schema

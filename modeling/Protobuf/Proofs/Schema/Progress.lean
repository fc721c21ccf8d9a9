import Protobuf.Proofs.Schema.Scanner
import Protobuf.Proofs.Schema.Tokens

/-!
# Reading comes to an end

Each token takes characters, and each round of a loop of the grammar that goes on takes tokens. So
scanning and reading come to an end by themselves. The bounds on the numbers of tokens and of rounds
never make a difference: what is read is what reading without bounds gives.

## Main definitions

* `Scanner.Cuts` — a text is cut into tokens, however many there are.
* `Parser.Rounds` — what a loop gives, however many rounds it takes.
* `Parser.IsLoop` — the loops of the grammar.
* `Parser.Spends` — what the action gives in some way has cost a token or more.

## Main results

* `Scanner.cuts_tokens` — scanning is not bounded
* `Parser.IsLoop.goes`, `Parser.IsLoop.rounds` — loops take tokens, and are not bounded
-/

namespace Protobuf.Schema

/-! ### Scanning -/

/-- The text from a place on is cut into tokens, one after the other, up to its end or a failure. -/
inductive Scanner.Cuts : Scanner → List Located → Except ParseError Located → Prop
  | failure {s s' : Scanner} {e : ParseError} (h : s.next = (.error e, s')) : Cuts s [] (.error e)
  | ending {s s' : Scanner} {line : Nat} (h : s.next = (.ok ⟨.eof, line⟩, s')) :
      Cuts s [] (.ok ⟨.eof, line⟩)
  | token {s s' : Scanner} {t : Located} {more : List Located} {ending : Except ParseError Located}
      (h : s.next = (.ok t, s')) (ht : t.token ≠ .eof) (hmore : Cuts s' more ending) :
      Cuts s (t :: more) ending

namespace Scanner

/-- A token takes a character or more. -/
theorem length_next {s s' : Scanner} {t : Located} (h : s.next = (.ok t, s')) (ht : t.token ≠ .eof) :
    s'.rest.length < s.rest.length := by
  obtain ⟨w, c, p, heq, -⟩ := exists_of_next h ht
  rw [heq]
  simp only [List.length_append, List.length_cons]
  omega

theorem cuts_tokensWithin {fuel : Nat} {s : Scanner} (h : s.rest.length < fuel) :
    Cuts s (s.tokensWithin fuel).1 (s.tokensWithin fuel).2 := by
  induction fuel generalizing s with
  | zero => cases h
  | succ fuel ih =>
    rw [tokensWithin]
    split
    · rename_i hnext
      exact .failure hnext
    · rename_i hnext
      exact .ending hnext
    · rename_i t s' hne hnext
      have ht : t.token ≠ .eof := by
        obtain ⟨token, line⟩ := t
        rintro rfl
        exact hne line rfl
      exact .token hnext ht (ih (by have := length_next hnext ht; omega))

theorem cuts_tokens (s : Scanner) : Cuts s s.tokens.1 s.tokens.2 :=
  cuts_tokensWithin (Nat.lt_succ_self _)

end Scanner

/-! ### Actions that take tokens -/

/-- The tokens are followed by the end of the text, if by no failure. -/
def ParserState.Ends (s : ParserState) : Prop :=
  ∀ t, s.ending = .ok t → t.token = .eof

/-- At most `n` tokens are left. -/
structure ParserState.AtMost (n : Nat) (s : ParserState) : Prop where
  ends : s.Ends
  length : s.ahead.length ≤ n

theorem ends_ofString (source : String) : (ParserState.ofString source).Ends :=
  fun _ ht => ending_tokensWithin ht

namespace Parser

open ParserState (AtMost)

variable {α β : Type} {n : Nat}

instance : Lasting (AtMost n) where
  next := by
    refine ⟨?_⟩
    rintro ⟨ahead, ending, seen, line, dialect⟩ hs t s' hrun
    cases ahead with
    | cons first more =>
      cases hrun
      exact ⟨trivial, hs.ends, Nat.le_of_succ_le hs.length⟩
    | nil =>
      cases ending with
      | error e => cases hrun
      | ok last =>
        cases hrun
        exact ⟨trivial, hs.ends, hs.length⟩
  peek := by
    refine ⟨?_⟩
    rintro ⟨ahead, ending, seen, line, dialect⟩ hs t s' hrun
    cases ahead with
    | cons first more =>
      cases hrun
      exact ⟨trivial, hs.ends, hs.length⟩
    | nil =>
      cases ending with
      | error e => cases hrun
      | ok last =>
        cases hrun
        exact ⟨trivial, hs.ends, hs.length⟩
  setLine line := ⟨fun s hs a s' hrun => by cases hrun; exact ⟨trivial, hs.ends, hs.length⟩⟩

instance (line : Nat) : Tidy (AtMost n) (dialectStatement line) :=
  tidy_dialectStatement (fun _ _ hs => ⟨hs.ends, hs.length⟩) line

/-- If the action gives something with the property `Q`, it has taken a token or more. -/
def Spends (p : Parser α) (Q : α → Prop) : Prop :=
  ∀ s, s.Ends → ∀ a s', p.run s = .ok (a, s') → Q a → s'.ahead.length < s.ahead.length

namespace Spends

variable {p : Parser α} {f : α → Parser β} {Q : β → Prop}

theorem never {P : α → Prop} (h : Gives (fun _ => True) p fun a => ¬P a) : Spends p P :=
  fun s _ a s' hrun ha => absurd ha (h s trivial a s' hrun).1

/-- The first of two actions has taken a token. -/
theorem first (hp : Spends p fun _ => True) (hf : ∀ a n, Tidy (AtMost n) (f a))
    [hkeeps : ∀ n, Tidy (AtMost n) p] : Spends (p >>= f) Q := by
  intro s hs b s'' hrun _
  rw [StateT.run_bind] at hrun
  obtain ⟨⟨a, s'⟩, hfirst, hrun⟩ := bind_eq_ok.mp hrun
  have hless := hp s hs a s' hfirst trivial
  have hs' := ((hkeeps _).gives s ⟨hs, Nat.le_refl _⟩ a s' hfirst).2
  exact Nat.lt_of_le_of_lt ((hf a _).gives s' ⟨hs'.ends, Nat.le_refl _⟩ b s'' hrun).2.length hless

/-- The second of two actions has taken a token. -/
theorem later [hp : ∀ n, Tidy (AtMost n) p] (hf : ∀ a, Spends (f a) Q) : Spends (p >>= f) Q := by
  intro s hs b s'' hrun hb
  rw [StateT.run_bind] at hrun
  obtain ⟨⟨a, s'⟩, hfirst, hrun⟩ := bind_eq_ok.mp hrun
  have hs' := ((hp _).gives s ⟨hs, Nat.le_refl _⟩ a s' hfirst).2
  exact Nat.lt_of_lt_of_le (hf a s' hs'.ends b s'' hrun hb) hs'.length

end Spends

theorem spends_next : Spends next fun t => t.token ≠ .eof := by
  rintro ⟨ahead, ending, seen, line, dialect⟩ hs t s' hrun ht
  cases ahead with
  | cons first more =>
    cases hrun
    exact Nat.lt_succ_self _
  | nil =>
    cases ending with
    | error e => cases hrun
    | ok last =>
      cases hrun
      exact absurd (hs t rfl) ht

/-- What comes after the end of the text has been taken is out of the question. -/
theorem spends_next_bind {f : Located → Parser β} {Q : β → Prop}
    (hf : ∀ t n, Tidy (AtMost n) (f t))
    (hend : ∀ t, t.token = .eof → Gives (fun _ => True) (f t) fun b => ¬Q b) :
    Spends (next >>= f) Q := by
  intro s hs b s'' hrun hb
  rw [StateT.run_bind] at hrun
  obtain ⟨⟨t, s'⟩, hnext, hrun⟩ := bind_eq_ok.mp hrun
  have hs' : s'.AtMost s.ahead.length := (Tidy.gives s ⟨hs, Nat.le_refl _⟩ t s' hnext).2
  have hrest := ((hf t _).gives s' ⟨hs'.ends, Nat.le_refl _⟩ b s'' hrun).2.length
  by_cases ht : t.token = .eof
  · exact absurd hb (hend t ht s' trivial b s'' hrun).1
  · exact Nat.lt_of_le_of_lt hrest (spends_next s hs t s' hnext ht)

/-- What comes after the end of the text has been looked at is out of the question. Otherwise the token
that has been looked at is taken. -/
theorem spends_peek_bind {f : Located → Parser β} {Q : β → Prop}
    (hf : ∀ t, Gives (fun _ => True) (f t) (fun b => ¬Q b) ∨
      t.token ≠ .eof ∧ ∃ g, f t = next >>= g ∧ ∀ t n, Tidy (AtMost n) (g t)) :
    Spends (peek >>= f) Q := by
  rintro ⟨ahead, ending, seen, line, dialect⟩ hs b s'' hrun hb
  rw [StateT.run_bind] at hrun
  obtain ⟨⟨t, s'⟩, hpeek, hrun⟩ := bind_eq_ok.mp hrun
  rcases hf t with hnever | ⟨ht, g, hg, hrest⟩
  · exact absurd hb (hnever s' trivial b s'' hrun).1
  · cases ahead with
    | nil =>
      cases ending with
      | error e => cases hpeek
      | ok last =>
        cases hpeek
        exact absurd (hs t rfl) ht
    | cons first more =>
      cases hpeek
      dsimp only at hrun
      rw [hg, StateT.run_bind] at hrun
      obtain ⟨⟨t', s₁⟩, hnext, hrun⟩ := bind_eq_ok.mp hrun
      have hs₁ : s₁.AtMost more.length := by
        cases hnext
        exact ⟨hs, Nat.le_refl _⟩
      exact Nat.lt_succ_of_le ((hrest t' _).gives s₁ hs₁ b s'' hrun).2.length

/-! ### Tokens of one kind -/

theorem spends_fieldId : Spends fieldId fun _ => True := by
  refine spends_next_bind (fun t n => by split <;> infer_instance) fun t ht => ?_
  rw [ht]
  exact Gives.throw _

theorem spends_stringLiteral : Spends stringLiteral fun _ => True := by
  refine spends_next_bind (fun t n => by split <;> infer_instance) fun t ht => ?_
  rw [ht]
  exact Gives.throw _

/-! ### Loops -/

/-- The loops of the grammar, by the step that is repeated. -/
inductive IsLoop : {σ α : Type} → (σ → Parser (σ ⊕ α)) → Prop
  | skipStatement : IsLoop skipStep
  | optionName : IsLoop optionNameStep
  | stringLiterals : IsLoop literalStep
  | aggregateList (levels : Nat) (key : String) :
      IsLoop (listStep (constantWith (aggregate levels)) key)
  | aggregate (levels : Nat) : IsLoop (aggregateStep (aggregate levels))
  | fieldOptions (levels : Nat) : IsLoop (settingStep levels)
  | ranges : IsLoop rangeStep
  | reservedNames : IsLoop reservedNameStep
  | enumeration (place : Place) (levels : Nat) : IsLoop (bodyStep place (enumMember levels))
  | oneof (place : Place) (levels : Nat) (name : String) :
      IsLoop (bodyStep place (oneofMember levels (messageBody levels) name))
  | extendBlock (place : Place) (levels : Nat) :
      IsLoop (bodyStep place (extendMember levels (messageBody levels)))
  | message (place : Place) (levels : Nat) :
      IsLoop (bodyStep place (messageMember levels (messageBody levels)))
  | method (place : Place) (levels : Nat) (name : String) :
      IsLoop (bodyStep place (methodMember levels name))
  | service (place : Place) (levels : Nat) (name : String) :
      IsLoop (bodyStep place (serviceMember levels name))
  | file : IsLoop fileStep

/-- A member of a body, or a mark between members, takes a token. -/
theorem spends_bodyStep {σ : Type} {place : Place} {member : σ → String → Located → Parser σ}
    (hmember : ∀ s word t, t.token = .ident word → ∀ n, Tidy (AtMost n) (member s word t)) (s : σ) :
    Spends (bodyStep place member s) fun r => r.isLeft := by
  refine spends_next_bind (fun t n => ?_) fun t ht => ?_
  · split
    · infer_instance
    · infer_instance
    · rename_i word hword
      have := hmember s word t hword n
      infer_instance
    · infer_instance
  · rw [ht]
    exact Gives.throw _

theorem tidy_bodyStep {σ : Type} {place : Place} {member : σ → String → Located → Parser σ}
    (hmember : ∀ s word t, t.token = .ident word → ∀ n, Tidy (AtMost n) (member s word t)) (s : σ)
    (n : Nat) : Tidy (AtMost n) (bodyStep place member s) :=
  (gives_bodyStep (T := fun _ => True) (J := fun _ => True) Tidy.gives
    (fun s word t hword _ _ => (hmember s word t hword n).gives) trivial).tidy

theorem spends_optionName : Spends optionName fun _ => True := by
  have hmore : ∀ first n, Tidy (AtMost n) (iterate optionNameStep first) :=
    fun first n => tidy_iterate inferInstance first
  refine spends_next_bind (fun t n => by split <;> infer_instance) fun t ht => ?_
  rw [ht]
  exact (Gives.throw (Q := fun _ => False) _).bind fun _ hfalse => hfalse.elim

theorem spends_optionSetting (levels : Nat) : Spends (optionSetting levels) fun _ => True :=
  Spends.first spends_optionName fun _ _ => inferInstance

theorem spends_constantWith (aggregate : Parser Constant) [∀ n, Tidy (AtMost n) aggregate] :
    Spends (constantWith aggregate) fun _ => True := by
  have hmore : ∀ text n, Tidy (AtMost n) (iterate literalStep text) :=
    fun text n => tidy_iterate inferInstance text
  refine spends_next_bind (fun t n => ?_) fun t ht => ?_
  · split
    case h_10 =>
      split
      · exact tidy_bind fun n => by split <;> infer_instance
      · infer_instance
    all_goals infer_instance
  · rw [ht]
    exact Gives.throw _

theorem spends_aggregateStep (aggregate : Parser Constant) [∀ n, Tidy (AtMost n) aggregate]
    (fields : List (String × Constant)) :
    Spends (aggregateStep aggregate fields) fun r => r.isLeft := by
  refine spends_next_bind (fun t n => ?_) fun t ht => ?_
  · extract_lets rest
    have hrest : ∀ key?, Tidy (AtMost n) (rest key?) := by
      intro key?
      simp only [rest]
      split
      · exact tidy_bind fun colon => tidy_bind fun brace => inferInstance
      · infer_instance
    split <;> infer_instance
  · rw [ht]
    exact (Gives.throw (Q := fun _ => False) _).bind fun _ hfalse => hfalse.elim

theorem spends_fileStep (file : FileDecl) : Spends (fileStep file) fun r => r.isLeft := by
  refine spends_next_bind (fun t n => ?_) fun t ht => ?_
  · split
    · infer_instance
    · infer_instance
    · rename_i word hword
      have := tidy_statement (I := AtMost n) file t fun _ : word = "syntax" => inferInstance
      infer_instance
    · infer_instance
  · rw [ht]
    exact Gives.pure (by simp)

namespace IsLoop

variable {σ : Type} {step : σ → Parser (σ ⊕ α)}

theorem spends (h : IsLoop step) (x : σ) : Spends (step x) fun r => r.isLeft := by
  cases h with
  | skipStatement =>
    refine spends_next_bind (fun t n => by split <;> infer_instance) fun t ht => ?_
    rw [ht]
    exact Gives.throw _
  | optionName =>
    refine spends_peek_bind fun t => ?_
    split
    · rename_i part hpart
      split
      · exact .inr ⟨by simp [hpart], _, rfl, fun _ _ => inferInstance⟩
      · exact .inl (Gives.pure (by simp))
    · exact .inl (Gives.pure (by simp))
  | stringLiterals =>
    refine spends_peek_bind fun t => ?_
    split
    · rename_i more hmore
      exact .inr ⟨by simp [hmore], _, rfl, fun _ _ => inferInstance⟩
    · exact .inl (Gives.pure (by simp))
  | aggregateList levels key =>
    refine Spends.later fun closed => ?_
    split
    · exact .never (Gives.pure (by simp))
    · exact .first (spends_constantWith _) fun _ _ => inferInstance
  | aggregate levels => exact spends_aggregateStep _ x
  | fieldOptions levels =>
    exact .first (spends_optionSetting levels) fun setting n => tidy_bind fun t => by
      split <;> infer_instance
  | ranges => exact .first spends_fieldId fun _ _ => inferInstance
  | reservedNames => exact .first spends_stringLiteral fun _ _ => inferInstance
  | enumeration place levels => exact spends_bodyStep (fun _ _ _ _ _ => inferInstance) x
  | oneof place levels name =>
    exact spends_bodyStep (fun s _ _ ht _ => tidy_oneofMember name s ht) x
  | extendBlock place levels => exact spends_bodyStep (fun e _ _ ht _ => tidy_extendMember e ht) x
  | message place levels => exact spends_bodyStep (fun m _ _ ht _ => tidy_messageMember m ht) x
  | method place levels name => exact spends_bodyStep (fun _ _ _ _ _ => inferInstance) x
  | service place levels name => exact spends_bodyStep (fun _ _ _ _ _ => inferInstance) x
  | file => exact spends_fileStep x

theorem tidy (h : IsLoop step) (x : σ) (n : Nat) : Tidy (AtMost n) (step x) := by
  cases h with
  | enumeration place levels => exact tidy_bodyStep (fun _ _ _ _ _ => inferInstance) x n
  | oneof place levels name =>
    exact tidy_bodyStep (fun s _ _ ht _ => tidy_oneofMember name s ht) x n
  | extendBlock place levels => exact tidy_bodyStep (fun e _ _ ht _ => tidy_extendMember e ht) x n
  | message place levels => exact tidy_bodyStep (fun m _ _ ht _ => tidy_messageMember m ht) x n
  | method place levels name => exact tidy_bodyStep (fun _ _ _ _ _ => inferInstance) x n
  | service place levels name => exact tidy_bodyStep (fun _ _ _ _ _ => inferInstance) x n
  | file =>
    refine tidy_bind fun t => ?_
    split
    · infer_instance
    · infer_instance
    · rename_i word hword
      have := tidy_statement (I := AtMost n) x t fun _ : word = "syntax" => inferInstance
      infer_instance
    · infer_instance
  | _ => infer_instance

/-- A round that goes on takes a token or more. -/
theorem goes (h : IsLoop step) {a b : σ × ParserState} (hround : Goes step a b) (ha : a.2.Ends) :
    b.2.ahead.length < a.2.ahead.length :=
  h.spends a.1 a.2 ha _ _ hround rfl

end IsLoop

/-- What a loop gives that starts with `x` in the state `s`, however many rounds it takes. -/
inductive Rounds {σ : Type} (step : σ → Parser (σ ⊕ α)) :
    σ → ParserState → Except ParseError (α × ParserState) → Prop
  | last {x : σ} {a : α} {s s' : ParserState} (h : (step x).run s = .ok (.inr a, s')) :
      Rounds step x s (.ok (a, s'))
  | failure {x : σ} {s : ParserState} {e : ParseError} (h : (step x).run s = .error e) :
      Rounds step x s (.error e)
  | more {x y : σ} {s s' : ParserState} {r : Except ParseError (α × ParserState)}
      (h : Goes step (x, s) (y, s')) (hmore : Rounds step y s' r) : Rounds step x s r

/-- A loop of the grammar gives what it would give without a bound on its rounds. -/
theorem IsLoop.rounds {σ : Type} {step : σ → Parser (σ ⊕ α)} (h : IsLoop step) (x : σ)
    {s : ParserState} (hs : s.Ends) : Rounds step x s ((iterate step x).run s) := by
  have hover : ∀ (tokens : List Located) (x : σ) (s : ParserState), s.Ends →
      s.ahead.length ≤ tokens.length → Rounds step x s ((iterateOver step tokens x).run s) := by
    intro tokens
    induction tokens with
    | nil =>
      intro x s hs hlength
      rw [iterateOver, StateT.run_bind]
      rcases hstep : (step x).run s with e | ⟨y | a, s'⟩
      · exact .failure hstep
      · -- a round that goes on takes a token, and none is left
        have hless : s'.ahead.length < s.ahead.length :=
          h.goes (a := (x, s)) (b := (y, s')) hstep hs
        exact absurd (Nat.lt_of_lt_of_le hless hlength) (Nat.not_lt_zero _)
      · exact .last hstep
    | cons t tokens ih =>
      intro x s hs hlength
      rw [iterateOver, StateT.run_bind]
      rcases hstep : (step x).run s with e | ⟨y | a, s'⟩
      · exact .failure hstep
      · have hround : Goes step (x, s) (y, s') := hstep
        have hs' : s'.AtMost s.ahead.length :=
          ((h.tidy x _).gives s ⟨hs, Nat.le_refl _⟩ _ s' hstep).2
        exact .more hround (ih y s' hs'.ends
          (Nat.le_of_lt_succ (Nat.lt_of_lt_of_le (h.goes hround hs) hlength)))
      · exact .last hstep
  exact hover s.ahead x s hs (Nat.le_refl _)

end Parser

end Protobuf.Schema

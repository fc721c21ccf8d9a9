import Mathlib
import Protobuf.Proofs.Schema.Lines
import Protobuf.Proofs.Schema.Reading

/-!
# Errors and the tokens they are about

The line in an error about a schema text is that of the token which the error is about. There is one
exception: a name with a dot where a plain name is declared is looked at for its line before it is taken, and
so the error carries the line of the token in front of the name.

## Main definitions

* `SyntaxFault.IsAbout` — the token that a fault is about.
* `ParseError.Told` — the error carries the line of a token of the text.
* `ParserState.At`, `ParserState.Took` — which token is next, and which one has been taken last.
* `Parser.Tells` — from which states an action leads to which, with errors that are told.
* `Parser.Follows` — the errors of the action are told wherever it begins.

Both come with the laws of the monad, and with one of loops.
-/

namespace Protobuf.Schema

/-! ### Errors -/

/-- The token that a fault of the grammar is about. Illegal names are left out here. -/
def SyntaxFault.IsAbout : SyntaxFault → Token → Prop
  | expected _ found, t => t = found
  | unexpected found _, t => t = found
  | duplicatePackage, t => t = .ident "package"
  | illegalPackageName _, t => t = .ident "package"
  | unknownDialect _, t => t = .ident "syntax"
  | nestingTooDeep, t => t = .symbol '\x7b'
  | requiredNotAllowed, t => t = .ident "required"
  | missingRule, t => ∃ word, t = .ident word
  | groupsNotAllowed, t => ∃ word, t = .ident word
  | groupNameNotCapital _, t => ∃ word, t = .ident word
  | labelInOneof _, t => ∃ word, t = .ident word ∧ (Parser.ruleOfLabel? word).isSome
  | illegalEnumValueName name, t => t = .ident name
  | enumValueOutOfRange value, t => t = .int value.natAbs
  | fieldIdOutOfRange value, t => t = .int value
  | integerOutOfRange value, t => t = .int value.natAbs
  | aggregateFieldWithoutValue key, t => t = .ident key ∨ t = .symbol '['
  | _, _ => False

/-- The error carries the line of a token of the text. -/
inductive ParseError.Told (source : String) : ParseError → Prop
  /-- There are only tokens before the place at which the scanner fails. -/
  | scanner {k : Nat} {e : ParseError} (h : Lexer.nth source k = .error e)
      (hbefore : ∀ i < k, ∃ t, Lexer.nth source i = .ok t) : Told source e
  /-- The line is that of the token which the fault is about. -/
  | token {k : Nat} {t : Located} {fault : SyntaxFault} (h : Lexer.nth source k = .ok t)
      (hfault : fault.IsAbout t.token) : Told source (.malformed t.line fault)
  /-- The line is that of the token in front of the illegal name. -/
  | front {k line : Nat} {before : Located} {text : String} (hbefore : Lexer.nth source k = .ok before)
      (h : Lexer.nth source (k + 1) = .ok ⟨.ident text, line⟩) :
      Told source (.malformed before.line (.illegalName text))
  /-- The word in front of the illegal name could have begun a map field, and so the name has been looked
  at already. The line is that of the name. -/
  | name {k line line' : Nat} {text : String} (hbefore : Lexer.nth source k = .ok ⟨.ident "map", line'⟩)
      (h : Lexer.nth source (k + 1) = .ok ⟨.ident text, line⟩) :
      Told source (.malformed line (.illegalName text))

/-! ### States -/

/-- The token with the number `n` is the next one. At most one token has been looked at. -/
structure ParserState.At (source : String) (n : Nat) (s : ParserState) : Prop where
  ahead : s.ahead = (Scanner.ofString source).tokens.1.drop n
  ending : s.ending = (Scanner.ofString source).tokens.2
  seen : s.seen ≤ 1

/-- The state is one in the course of reading the text. -/
def ParserState.Within (source : String) (s : ParserState) : Prop :=
  ∃ n, s.At source n

/-- The token `t` with the number `n` has been taken last. The next one has been looked at only behind the
word `map`. -/
structure ParserState.Took (source : String) (n : Nat) (t : Located) (s : ParserState) : Prop where
  next : s.At source (n + 1)
  token : Lexer.nth source n = .ok t
  line : s.line = t.line
  unseen : s.seen = 0 ∨ t.token = .ident "map"

namespace ParserState

variable {source : String} {n : Nat} {t : Located} {s : ParserState}

theorem At.within (h : s.At source n) : s.Within source :=
  ⟨n, h⟩

theorem Took.within (h : s.Took source n t) : s.Within source :=
  ⟨n + 1, h.next⟩

theorem Within.ends (h : s.Within source) : s.Ends := by
  obtain ⟨n, h⟩ := h
  intro t ht
  rw [h.ending] at ht
  exact ends_ofString source t ht

theorem At.start (source : String) : (ParserState.ofString source).At source 0 :=
  ⟨rfl, rfl, Nat.zero_le _⟩

/-- The token that is looked at stays the next one. -/
theorem At.look (h : s.At source n) : At source n { s with seen := max s.seen 1 } :=
  ⟨h.ahead, h.ending, max_le h.seen (Nat.le_refl 1)⟩

/-- What is next is the token with the next number, or the failure of the scanner. -/
theorem At.next (h : s.At source n) :
    (∃ t more, s.ahead = t :: more ∧ Lexer.nth source n = .ok t ∧
      more = (Scanner.ofString source).tokens.1.drop (n + 1)) ∨
    s.ahead = [] ∧ (Scanner.ofString source).tokens.1.drop (n + 1) = [] ∧
      ((∃ t, s.ending = .ok t ∧ Lexer.nth source n = .ok t) ∨
        ∃ e, s.ending = .error e ∧ e.Told source) := by
  obtain ⟨htokens, hend⟩ := Lexer.nth_tokens source
  have hends : ∀ t, (Scanner.ofString source).tokens.2 = .ok t → t.token = .eof :=
    ends_ofString source
  have hahead := h.ahead
  have hending := h.ending
  generalize (Scanner.ofString source).tokens = tokens at *
  by_cases hn : n < tokens.1.length
  · rw [List.drop_eq_getElem_cons hn] at hahead
    exact .inl ⟨_, _, hahead, htokens n _ (List.getElem?_eq_getElem hn), rfl⟩
  · have hle : tokens.1.length ≤ n := Nat.le_of_not_lt hn
    refine .inr ⟨hahead.trans (List.drop_eq_nil_of_le hle), List.drop_eq_nil_of_le (by omega), ?_⟩
    cases hlast : tokens.2 with
    | ok t =>
      obtain ⟨token, line⟩ := t
      obtain rfl : token = .eof := hends _ hlast
      exact .inl ⟨_, hending.trans hlast, Lexer.nth_of_eof (hend.trans hlast) hle⟩
    | error e =>
      refine .inr ⟨e, hending.trans hlast, .scanner (hend.trans hlast) fun i hi => ?_⟩
      exact ⟨_, htokens i _ (List.getElem?_eq_getElem hi)⟩

end ParserState

namespace Parser

open ParserState (At Took Within)

variable {source : String} {α β : Type}

/-! ### Contracts -/

/-- From a state in `P` the action leads to one in `Q`, given the result, or to an error that carries the
line of a token. -/
def Tells (source : String) (P : ParserState → Prop) (p : Parser α) (Q : α → ParserState → Prop) :
    Prop :=
  ∀ s, P s → match p.run s with
    | .ok (a, s') => Q a s'
    | .error e => e.Told source

/-- Wherever in the text the action begins, its errors carry the lines of tokens. -/
class Follows (source : String) (p : Parser α) : Prop where
  tells : Tells source (Within source) p fun _ => Within source

namespace Tells

variable {P P' : ParserState → Prop} {p : Parser α} {f : α → Parser β} {Q Q' : α → ParserState → Prop}
  {R : β → ParserState → Prop}

theorem pure {a : α} (h : ∀ s, P s → Q a s) : Tells source P (Pure.pure a) Q :=
  fun s hs => h s hs

theorem fail {line : Nat} {fault : SyntaxFault}
    (h : ∀ s, P s → (ParseError.malformed line fault).Told source) :
    Tells source P (Parser.fail line fault) Q :=
  fun s hs => h s hs

theorem bind (hp : Tells source P p Q) (hf : ∀ a, Tells source (Q a) (f a) R) :
    Tells source P (p >>= f) R := by
  intro s hs
  have hfirst := hp s hs
  rw [StateT.run_bind]
  rcases hrun : p.run s with e | ⟨a, s'⟩
  · rw [hrun] at hfirst
    exact hfirst
  · rw [hrun] at hfirst
    exact hf a s' hfirst

theorem mono (hp : Tells source P p Q) (hP : ∀ s, P' s → P s) (hQ : ∀ a s, Q a s → Q' a s) :
    Tells source P' p Q' := by
  intro s hs
  have hrun' := hp s (hP s hs)
  rcases hrun : p.run s with e | ⟨a, s'⟩ <;> rw [hrun] at hrun'
  · exact hrun'
  · exact hQ a s' hrun'

theorem weaken (hp : Tells source P p Q) (hP : ∀ s, P' s → P s) : Tells source P' p Q :=
  hp.mono hP fun _ _ hs => hs

theorem imp (hp : Tells source P p Q) (hQ : ∀ a s, Q a s → Q' a s) : Tells source P p Q' :=
  hp.mono (fun _ hs => hs) hQ

theorem map {g : α → β} (hp : Tells source P p fun a => R (g a)) : Tells source P (g <$> p) R := by
  rw [map_eq_pure_bind]
  exact hp.bind fun a => Tells.pure fun s hs => hs

theorem ite {c : Prop} [Decidable c] {q : Parser α} (hp : c → Tells source P p Q)
    (hq : ¬c → Tells source P q Q) : Tells source P (if c then p else q) Q := by
  split
  · exact hp ‹_›
  · exact hq ‹_›

/-- What is known apart from the state may be used throughout. -/
theorem known {c : Prop} (hc : ∀ s, P s → c) (h : c → Tells source P p Q) : Tells source P p Q :=
  fun s hs => h (hc s hs) s hs

/-- What is known to exist may be used throughout. -/
theorem elim {ι : Type} {P : ι → ParserState → Prop} (h : ∀ i, Tells source (P i) p Q) :
    Tells source (fun s => ∃ i, P i s) p Q :=
  fun s ⟨i, hs⟩ => h i s hs

/-- An action that may begin anywhere may begin here. -/
theorem follow [h : Follows source p] (hP : ∀ s, P s → s.Within source) :
    Tells source P p fun _ => Within source :=
  h.tells.weaken hP

/-- What comes after an action that may begin anywhere. -/
theorem andThen [Follows source p] (hP : ∀ s, P s → s.Within source)
    (hf : ∀ a, Tells source (Within source) (f a) R) : Tells source P (p >>= f) R :=
  (follow hP).bind hf

/-- Nothing comes after a failure. -/
theorem refuse {line : Nat} {fault : SyntaxFault}
    (h : ∀ s, P s → (ParseError.malformed line fault).Told source) :
    Tells source P (Parser.fail line fault >>= f) R :=
  (fail (Q := fun _ _ => False) h).bind fun _ _ hfalse => hfalse.elim

/-- A check that fails with an error that is told. -/
theorem check {c : Prop} [Decidable c] {line : Nat} {fault : SyntaxFault} {rest : PUnit → Parser β}
    (hfault : c → ∀ s, P s → (ParseError.malformed line fault).Told source)
    (h : ¬c → Tells source P (rest ⟨⟩) R) :
    Tells source P (if c then Parser.fail line fault >>= rest else rest ⟨⟩) R := by
  split
  · exact refuse (hfault ‹_›)
  · exact h ‹_›

theorem dialect {Q : Dialect → ParserState → Prop} (h : ∀ d s, P s → Q d s) :
    Tells source P Parser.dialect Q :=
  fun s hs => h s.dialect s hs

/-- What every round of a loop tells, the loop tells. -/
theorem iterate {σ : Type} {step : σ → Parser (σ ⊕ α)} (hloop : IsLoop step)
    {J : σ → ParserState → Prop} (hends : ∀ x s, J x s → s.Ends)
    (hstep : ∀ x, Tells source (J x) (step x) (Sum.elim J Q)) (x : σ) :
    Tells source (J x) (iterate step x) Q := by
  intro s hs
  -- the induction is on the rounds that are taken, each of which leads on within `J`
  have hrounds := hloop.rounds x (hends x s hs)
  generalize (Parser.iterate step x).run s = r at hrounds
  induction hrounds with
  | @last x a s s' h =>
    have hround := hstep x s hs
    rw [h] at hround
    exact hround
  | @failure x s e h =>
    have hround := hstep x s hs
    rw [h] at hround
    exact hround
  | @more x y s s' r h _ ih =>
    have hround := hstep x s hs
    rw [show (step x).run s = _ from h] at hround
    exact ih hround

end Tells

/-! ### Tokens -/

theorem tells_next (n : Nat) : Tells source (At source n) next (Took source n) := by
  intro s hs
  have hseen := hs.seen
  have hending := hs.ending
  have hnext := hs.next
  obtain ⟨ahead, ending, seen, line, dialect⟩ := s
  have hunseen : seen - 1 = 0 := Nat.sub_eq_zero_of_le hseen
  have hseen' : seen - 1 ≤ 1 := by rw [hunseen]; exact Nat.zero_le _
  obtain ⟨t, more, rfl, htoken, hmore⟩ | ⟨rfl, hover, ⟨t, rfl, htoken⟩ | ⟨e, rfl, htold⟩⟩ := hnext
  · exact ⟨⟨hmore, hending, hseen'⟩, htoken, rfl, .inl hunseen⟩
  · exact ⟨⟨hover.symm, hending, hseen'⟩, htoken, rfl, .inl hunseen⟩
  · exact htold

/-- Looking at a token leaves nothing behind but that. -/
theorem run_peek {n : Nat} {s : ParserState} (hs : s.At source n) :
    (∃ t, Lexer.nth source n = .ok t ∧ peek.run s = .ok (t, { s with seen := max s.seen 1 })) ∨
      ∃ e, peek.run s = .error e ∧ e.Told source := by
  have hnext := hs.next
  obtain ⟨ahead, ending, seen, line, dialect⟩ := s
  obtain ⟨t, more, rfl, htoken, -⟩ | ⟨rfl, -, ⟨t, rfl, htoken⟩ | ⟨e, rfl, htold⟩⟩ := hnext
  · exact .inl ⟨t, htoken, rfl⟩
  · exact .inl ⟨t, htoken, rfl⟩
  · exact .inr ⟨e, rfl, htold⟩

theorem tells_peek (n : Nat) :
    Tells source (At source n) peek fun t s => s.At source n ∧ Lexer.nth source n = .ok t := by
  intro s hs
  obtain ⟨t, htoken, hrun⟩ | ⟨e, hrun, htold⟩ := run_peek hs
  · rw [hrun]
    exact ⟨hs.look, htoken⟩
  · rw [hrun]
    exact htold

/-- What stands behind the word `map` is looked at. -/
theorem tells_peek_map (n : Nat) {t : Located} (ht : t.token = .ident "map") :
    Tells source (Took source n t) peek fun _ => Took source n t := by
  intro s hs
  obtain ⟨u, -, hrun⟩ | ⟨e, hrun, htold⟩ := run_peek hs.next
  · rw [hrun]
    exact ⟨hs.next.look, hs.token, hs.line, .inr ht⟩
  · rw [hrun]
    exact htold

section Follows

variable {p : Parser α} {f : α → Parser β}

theorem Follows.of_at (h : ∀ n, Tells source (At source n) p fun _ => Within source) :
    Follows source p :=
  ⟨.elim h⟩

theorem follows_next {f : Located → Parser β}
    (h : ∀ n t, Tells source (Took source n t) (f t) fun _ => Within source) :
    Follows source (next >>= f) :=
  .of_at fun n => (tells_next n).bind (h n)

/-- What follows is looked at case by case. -/
theorem follows_bind [hp : Follows source p] (h : ∀ a, Follows source (f a)) :
    Follows source (p >>= f) :=
  ⟨hp.tells.bind fun a => (h a).tells⟩

theorem follows_iterate {σ : Type} {step : σ → Parser (σ ⊕ α)} (hloop : IsLoop step)
    (hstep : ∀ x, Follows source (step x)) (x : σ) : Follows source (iterate step x) := by
  refine ⟨.iterate (J := fun _ => Within source) hloop (fun _ _ hs => hs.ends) (fun x => ?_) x⟩
  exact (hstep x).tells.imp fun r _ hs => by cases r <;> exact hs

instance (a : α) : Follows source (pure a : Parser α) :=
  ⟨.pure fun _ hs => hs⟩

instance [Follows source p] [∀ a, Follows source (f a)] : Follows source (p >>= f) :=
  follows_bind inferInstance

instance (g : α → β) [hp : Follows source p] : Follows source (g <$> p) :=
  ⟨.map (R := fun _ => Within source) hp.tells⟩

instance {c : Prop} [Decidable c] {q : Parser α} [hp : Follows source p] [hq : Follows source q] :
    Follows source (if c then p else q) :=
  ⟨.ite (fun _ => hp.tells) fun _ => hq.tells⟩

instance : Follows source dialect :=
  ⟨.dialect fun _ _ hs => hs⟩

instance : Follows source next :=
  .of_at fun n => (tells_next n).imp fun _ _ hs => hs.within

instance : Follows source peek :=
  .of_at fun n => (tells_peek n).imp fun _ _ hs => hs.1.within

end Follows

theorem tells_expectSymbol (c : Char) (n : Nat) :
    Tells source (At source n) (expectSymbol c) fun _ s =>
      ∃ line, s.Took source n ⟨.symbol c, line⟩ := by
  refine (tells_next n).bind fun t => ?_
  obtain ⟨token, line⟩ := t
  refine .ite (fun ht => .pure fun s hs => ?_) fun _ => .fail fun s hs => .token hs.token rfl
  cases ht
  exact ⟨line, hs⟩

instance (c : Char) : Follows source (expectSymbol c) :=
  .of_at fun n => (tells_expectSymbol c n).imp fun _ _ ⟨_, hs⟩ => hs.within

instance (keyword : String) : Follows source (expectKeyword keyword) :=
  follows_next fun _ _ => .ite (fun _ => .pure fun _ hs => hs.within) fun _ =>
    .fail fun _ hs => .token hs.token rfl

theorem tells_path (n : Nat) :
    Tells source (At source n) path fun text s => ∃ line, s.Took source n ⟨.ident text, line⟩ := by
  refine (tells_next n).bind fun t => ?_
  obtain ⟨token, line⟩ := t
  dsimp only
  split
  · exact .pure fun s hs => ⟨line, hs⟩
  · exact .fail fun s hs => .token hs.token rfl

instance : Follows source path :=
  .of_at fun n => (tells_path n).imp fun _ _ ⟨_, hs⟩ => hs.within

/-- The line that is current behind a token is that of the token, unless the next one has been looked
at. -/
theorem tells_currentLine {n : Nat} {t : Located} :
    Tells source (Took source n t) currentLine fun line s => s.Took source n t ∧
      (line = t.line ∨ t.token = .ident "map" ∧ ∀ u, Lexer.nth source (n + 1) = .ok u → line = u.line) := by
  intro s hs
  have hnext := hs.next.next
  obtain ⟨ahead, ending, seen, line, dialect⟩ := s
  obtain hseen | hseen := Nat.eq_zero_or_pos seen
  · cases hseen
    exact ⟨hs, .inl hs.line⟩
  · -- the next token has been looked at, so the last one is the word `map`
    have ht : t.token = .ident "map" := hs.unseen.resolve_left (Nat.ne_of_gt hseen)
    obtain ⟨seen, rfl⟩ := Nat.exists_eq_succ_of_ne_zero (Nat.ne_of_gt hseen)
    obtain ⟨u, more, rfl, htoken, -⟩ | ⟨rfl, -, ⟨u, rfl, htoken⟩ | ⟨e, rfl, -⟩⟩ := hnext
    · exact ⟨hs, .inr ⟨ht, fun u' hu' => by cases htoken.symm.trans hu'; rfl⟩⟩
    · exact ⟨hs, .inr ⟨ht, fun u' hu' => by cases htoken.symm.trans hu'; rfl⟩⟩
    · exact ⟨hs, .inl hs.line⟩

/-- The line for the error is looked up before the name is taken. -/
theorem tells_name {n : Nat} {t : Located} :
    Tells source (Took source n t) name fun text s =>
      ∃ line, s.Took source (n + 1) ⟨.ident text, line⟩ := by
  refine tells_currentLine.bind fun line => ?_
  refine .known (fun s hs => And.intro hs.1.token hs.2) fun ⟨ht, hline⟩ => ?_
  refine ((tells_path (n + 1)).weaken fun s hs => hs.1.next).bind fun text => ?_
  refine .ite (fun _ => .fail fun s ⟨line', hs⟩ => ?_) fun _ => .pure fun s hs => hs
  obtain rfl | ⟨hmap, hline⟩ := hline
  · exact .front ht hs.token
  · obtain rfl : line = line' := hline _ hs.token
    obtain ⟨token, line'⟩ := t
    obtain rfl : token = .ident "map" := hmap
    exact .name ht hs.token

instance : Follows source stringLiteral :=
  follows_next fun _ _ => by
    split
    · exact .pure fun _ hs => hs.within
    · exact .fail fun _ hs => .token hs.token rfl

instance : Follows source fieldId :=
  follows_next fun _ _ => by
    split
    · refine .ite (fun _ => .pure fun _ hs => hs.within) fun _ => .fail fun _ hs => .token hs.token ?_
      assumption
    · exact .fail fun _ hs => .token hs.token rfl

instance : Follows source enumNumber := by
  -- the number is the first token, or the one behind its sign
  have hnumber : ∀ value : Nat → Int, (∀ magnitude, (value magnitude).natAbs = magnitude) →
      ∀ n t, Tells source (Took source n t)
        (match t.token with
          | .int magnitude =>
            if value magnitude ∈ IntRange.int32 then pure (value magnitude).toInt32
            else fail t.line (.enumValueOutOfRange (value magnitude))
          | found => fail t.line (.expected .enumValue found)) fun _ => Within source := by
    intro value hvalue n t
    split
    · rename_i magnitude hmagnitude
      refine .ite (fun _ => .pure fun _ hs => hs.within) fun _ => .fail fun _ hs => .token hs.token ?_
      rw [hmagnitude, SyntaxFault.IsAbout, hvalue]
    · exact .fail fun _ hs => .token hs.token rfl
  unfold enumNumber
  refine follows_next fun n first => ?_
  dsimp only
  split
  · exact ((tells_next _).weaken fun _ hs => hs.next).bind
      (hnumber (fun magnitude => -magnitude) (by simp) _)
  · exact hnumber (fun magnitude => magnitude) (by simp) _ first

theorem tells_acceptSymbol (c : Char) (n : Nat) :
    Tells source (At source n) (acceptSymbol c) fun accepted s =>
      if accepted then ∃ line, s.Took source n ⟨.symbol c, line⟩ else s.At source n := by
  refine (tells_peek n).bind fun t => .known (fun s hs => hs.2) fun htoken => ?_
  obtain ⟨token, line⟩ := t
  refine .ite (fun ht => ?_) fun _ => .pure fun s hs => hs.1
  cases ht
  refine ((tells_next n).weaken fun s hs => hs.1).bind fun t => .pure fun s hs => ?_
  cases htoken.symm.trans hs.token
  exact ⟨line, hs⟩

instance (c : Char) : Follows source (acceptSymbol c) :=
  .of_at fun n => (tells_acceptSymbol c n).imp fun accepted s hs => by
    cases accepted with
    | true => exact hs.elim fun _ hs => hs.within
    | false => exact At.within hs

instance (keyword : String) : Follows source (acceptKeyword keyword) := by
  unfold acceptKeyword
  infer_instance

instance (u : Unit) : Follows source (skipStep u) :=
  follows_next fun _ _ => by
    split
    · exact .pure fun _ hs => hs.within
    · exact .fail fun _ hs => .token hs.token ‹_›
    · exact .pure fun _ hs => hs.within

instance : Follows source skipStatement :=
  follows_iterate .skipStatement inferInstance ()

/-! ### Options -/

/-- An opening brace has been taken last. -/
def Opened (source : String) (s : ParserState) : Prop :=
  ∃ n line, s.Took source n ⟨.symbol '\x7b', line⟩

theorem Opened.within {s : ParserState} (h : Opened source s) : s.Within source :=
  h.elim fun _ h => h.elim fun _ hs => hs.within

theorem tells_acceptSymbol_brace :
    Tells source (Within source) (acceptSymbol '\x7b') fun accepted s =>
      if accepted then Opened source s else s.Within source := by
  refine .elim fun n => (tells_acceptSymbol '\x7b' n).imp fun accepted s hs => ?_
  cases accepted with
  | true => exact ⟨n, hs⟩
  | false => exact At.within hs

/-- An opening brace is one level too many. -/
theorem tells_nestingTooDeep {Q : α → ParserState → Prop} :
    Tells source (Opened source) (do fail (← currentLine) .nestingTooDeep) Q := by
  refine .elim fun n => .elim fun line => tells_currentLine.bind fun line' => ?_
  refine .fail fun s ⟨hs, hline⟩ => ?_
  obtain rfl | ⟨hmap, -⟩ := hline
  · exact .token hs.token rfl
  · cases hmap

instance (text : String) : Follows source (optionNameStep text) :=
  follows_bind fun t => by split <;> infer_instance

instance : Follows source optionName := by
  have hmore : ∀ first, Follows source (iterate optionNameStep first) :=
    follows_iterate .optionName inferInstance
  refine follows_next fun n t => ?_
  split
  · exact .follow fun _ hs => hs.within
  · exact .follow fun _ hs => hs.within
  · exact .refuse fun _ hs => .token hs.token rfl

theorem tells_integerConstant {n : Nat} {t : Located} {magnitude : Nat} (negative : Bool)
    (ht : t.token = .int magnitude) :
    Tells source (Took source n t) (integerConstant magnitude negative t.line) fun _ =>
      Within source := by
  unfold integerConstant
  refine .ite (fun _ => .pure fun _ hs => hs.within) fun _ => .ite (fun hnegative => ?_) fun _ =>
    .pure fun _ hs => hs.within
  refine .fail fun _ hs => .token hs.token ?_
  rw [ht, SyntaxFault.IsAbout, if_pos hnegative, Int.natAbs_neg, Int.natAbs_natCast]

instance (text : String) : Follows source (literalStep text) :=
  follows_bind fun t => by split <;> infer_instance

section Aggregate

variable {aggregate : Parser Constant}

theorem follows_constantWith (haggregate : Tells source (Opened source) aggregate fun _ => Within source) :
    Follows source (constantWith aggregate) := by
  have hmore : ∀ text, Follows source (iterate literalStep text) :=
    follows_iterate .stringLiterals inferInstance
  refine follows_next fun n t => ?_
  split
  case h_6 magnitude hmagnitude => exact tells_integerConstant false hmagnitude
  case h_8 => exact .follow fun _ hs => hs.within
  case h_9 hbrace =>
    obtain ⟨token, line⟩ := t
    cases hbrace
    exact haggregate.weaken fun s hs => ⟨n, line, hs⟩
  case h_10 =>
    refine .ite (fun _ => ?_) fun _ => .fail fun _ hs => .token hs.token rfl
    refine ((tells_next _).weaken fun _ hs => hs.next).bind fun u => ?_
    split
    case h_3 magnitude hmagnitude => exact tells_integerConstant _ hmagnitude
    case h_5 => exact .fail fun _ hs => .token hs.token rfl
    all_goals exact .pure fun _ hs => hs.within
  case h_11 => exact .fail fun _ hs => .token hs.token rfl
  all_goals exact .pure fun _ hs => hs.within

theorem follows_listStep {constant : Parser Constant} [Follows source constant] (key : String)
    (fields : List (String × Constant)) : Follows source (listStep constant key fields) := by
  unfold listStep
  infer_instance

/-- A field of an aggregate without a value is told by its name, or by the bracket around it. -/
theorem follows_aggregateStep {levels : Nat}
    (haggregate : Tells source (Opened source) (Parser.aggregate levels) fun _ => Within source)
    (fields : List (String × Constant)) :
    Follows source (aggregateStep (Parser.aggregate levels) fields) := by
  have := follows_constantWith haggregate
  have hlist : ∀ key fields,
      Follows source (aggregateList (constantWith (Parser.aggregate levels)) key fields) := fun key =>
    follows_iterate (.aggregateList levels key) (follows_listStep key)
  unfold aggregateStep
  refine follows_next fun n t => ?_
  extract_lets rest
  -- where the value is missing, the name of the field has been taken
  have hrest : Lexer.nth source n = .ok t → ∀ key, (t.token = .ident key ∨ t.token = .symbol '[') →
      Tells source (Within source) (rest (some key)) fun _ => Within source := by
    intro htoken key ht
    simp only [rest]
    refine .andThen (fun _ hs => hs) fun colon => tells_acceptSymbol_brace.bind fun brace => ?_
    cases brace with
    | true => exact haggregate.bind fun value => .pure fun _ hs => hs
    | false =>
      refine .ite (fun h => by cases h) fun _ => .ite (fun _ => ?_) fun _ =>
        .fail fun _ _ => .token htoken ht
      exact .follow fun _ hs => hs
  refine .known (fun s hs => hs.token) fun htoken => ?_
  refine .weaken (P := Within source) ?_ fun _ hs => hs.within
  split
  · exact .pure fun _ hs => hs
  · exact .pure fun _ hs => hs
  · exact .pure fun _ hs => hs
  · exact hrest htoken _ (.inl ‹_›)
  · exact .andThen (fun _ hs => hs) fun inner => .andThen (fun _ hs => hs) fun _ =>
      hrest htoken _ (.inr ‹_›)
  · exact .refuse fun _ _ => .token htoken rfl

end Aggregate

theorem tells_aggregate (levels : Nat) :
    Tells source (Opened source) (aggregate levels) fun _ => Within source := by
  induction levels with
  | zero =>
    rw [aggregate]
    exact tells_nestingTooDeep
  | succ levels ih =>
    rw [aggregate]
    have := follows_iterate (.aggregate levels) (follows_aggregateStep ih) []
    exact this.tells.weaken fun _ hs => hs.within

instance (levels : Nat) : Follows source (constant levels) :=
  follows_constantWith (tells_aggregate levels)

instance (levels : Nat) : Follows source (optionSetting levels) := by
  unfold optionSetting
  infer_instance

instance (levels : Nat) (options : Options) : Follows source (optionStatement levels options) := by
  unfold optionStatement
  infer_instance

instance (levels : Nat) (options : Options) : Follows source (settingStep levels options) :=
  follows_bind fun setting => follows_next fun n t => by
    split
    · exact .pure fun _ hs => hs.within
    · exact .pure fun _ hs => hs.within
    · exact .fail fun _ hs => .token hs.token rfl

instance (levels : Nat) : Follows source (fieldOptions levels) := by
  have hmore : ∀ options, Follows source (iterate (settingStep levels) options) :=
    follows_iterate (.fieldOptions levels) inferInstance
  unfold fieldOptions
  infer_instance

/-! ### Members and statements -/

instance (found : List (UInt32 × UInt32)) : Follows source (rangeStep found) := by
  unfold rangeStep
  infer_instance

instance (levels : Nat) : Follows source (ranges levels) := by
  have hranges : Follows source (iterate rangeStep []) := follows_iterate .ranges inferInstance []
  unfold ranges
  infer_instance

instance (names : List Reserved) : Follows source (reservedNameStep names) := by
  unfold reservedNameStep
  infer_instance

instance (levels : Nat) : Follows source (reserved levels) := by
  have hnames : Follows source (iterate reservedNameStep []) :=
    follows_iterate .reservedNames inferInstance []
  unfold reserved
  refine follows_bind fun t => ?_
  split <;> infer_instance

/-- What holds of a body so far holds when it has been read. -/
theorem tells_body {σ : Type} {place : Place} {member : σ → String → Located → Parser σ} {J : σ → Prop}
    (hloop : IsLoop (bodyStep place member))
    (hmember : ∀ x word n t, t.token = .ident word → J x →
      Tells source (Took source n t) (member x word t) fun y s => J y ∧ s.Within source)
    {P : ParserState → Prop} (hP : ∀ s, P s → s.Within source) {x : σ} (hx : J x) :
    Tells source P (body place member x) fun y s => J y ∧ s.Within source := by
  refine .weaken (.iterate (J := fun x s => J x ∧ s.Within source) hloop (fun _ _ hs => hs.2.ends)
    (fun x => ?_) x) fun s hs => ⟨hx, hP s hs⟩
  refine .known (fun s hs => hs.1) fun hx => .weaken (P := Within source) ?_ fun s hs => hs.2
  refine .elim fun n => (tells_next n).bind fun t => ?_
  split
  · exact .pure fun _ hs => ⟨hx, hs.within⟩
  · exact .pure fun _ hs => ⟨hx, hs.within⟩
  · rename_i word hword
    exact (hmember x word n t hword hx).bind fun y => .pure fun _ hs => hs
  · exact .fail fun _ hs => .token hs.token rfl

/-- The rule of a field is told by its label, or by the first word of its type. -/
theorem tells_fieldRule {P : ParserState → Prop} {label : Option Rule} {oneof : Option String} {line : Nat}
    (hrequired : label = some .required → ∃ k, Lexer.nth source k = .ok ⟨.ident "required", line⟩)
    (hfirst : ∃ k word, Lexer.nth source k = .ok ⟨.ident word, line⟩) :
    Tells source P (fieldRule label oneof line) fun _ => P := by
  unfold fieldRule
  refine (Tells.dialect (Q := fun _ => P) fun _ _ hs => hs).bind fun d => ?_
  split
  · obtain ⟨k, htoken⟩ := hrequired rfl
    exact .fail fun _ _ => .token htoken rfl
  · exact .pure fun _ hs => hs
  · exact .pure fun _ hs => hs
  · exact .pure fun _ hs => hs
  · obtain ⟨k, word, htoken⟩ := hfirst
    exact .fail fun _ _ => .token htoken ⟨word, rfl⟩

theorem ruleOfLabel?_eq_required {word : String} (h : ruleOfLabel? word = some .required) :
    word = "required" := by
  rw [ruleOfLabel?.eq_def] at h
  split at h <;> first | rfl | cases h

instance : Follows source methodType := by
  unfold methodType
  refine follows_bind fun first => ?_
  extract_lets rest
  refine ⟨.ite (fun _ => (follows_bind fun t => ?_).tells) fun _ => Follows.tells⟩
  split <;> infer_instance

theorem tells_methodMember (levels : Nat) (method : String) (options : Options) (word : String)
    (n : Nat) (t : Located) : Tells source (Took source n t)
      (methodMember levels method options word t) fun _ => Within source := by
  unfold methodMember
  exact .ite (fun _ => .follow fun _ hs => hs.within) fun _ => .fail fun _ hs => .token hs.token rfl

instance (levels : Nat) (method : String) : Follows source (methodBody levels method) := by
  unfold methodBody
  refine follows_next fun n t => ?_
  split
  · exact .pure fun _ hs => hs.within
  · refine .imp (tells_body (J := fun _ => True) (.method _ levels method) (fun options word n t _ _ => ?_)
      (fun _ hs => hs.within) trivial) fun _ _ hs => hs.2
    exact (tells_methodMember levels method options word n t).imp fun _ _ hs =>
      ⟨trivial, hs⟩
  · exact .fail fun _ hs => .token hs.token rfl

theorem tells_method (levels : Nat) {n : Nat} {t : Located} :
    Tells source (Took source n t) (method levels) fun _ => Within source := by
  unfold method
  refine tells_name.bind fun name => .weaken (P := Within source) ?_ fun _ ⟨_, hs⟩ => hs.within
  exact .andThen (fun _ hs => hs) fun _ => .andThen (fun _ hs => hs) fun _ =>
    .andThen (fun _ hs => hs) fun _ => .andThen (fun _ hs => hs) fun _ => .follow fun _ hs => hs

theorem tells_dialectStatement {n : Nat} {t : Located} (ht : t.token = .ident "syntax") :
    Tells source (Took source n t) (dialectStatement t.line) fun _ => Within source := by
  have hdialect : ∀ d, Follows source (modify fun s => { s with dialect := d } : Parser PUnit) :=
    fun d => ⟨fun s ⟨n, hs⟩ => ⟨n, hs.ahead, hs.ending, hs.seen⟩⟩
  unfold dialectStatement
  refine .known (fun s hs => hs.token) fun htoken => .andThen (fun _ hs => hs.within) fun _ =>
    .andThen (fun _ hs => hs) fun text => ?_
  split
  · exact .follow fun _ hs => hs
  · exact .follow fun _ hs => hs
  · exact .refuse fun _ _ => .token htoken ht

instance : Follows source importStatement := by
  unfold importStatement
  refine follows_next fun n t => ?_
  split
  · exact .follow fun _ hs => hs.within
  · exact .follow fun _ hs => hs.within
  · exact .follow fun _ hs => hs.within
  · exact .refuse fun _ hs => .token hs.token rfl

end Parser

end Protobuf.Schema

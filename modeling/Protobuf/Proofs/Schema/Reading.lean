import Protobuf.Proofs.Schema.Progress

/-!
# Reading a given text

What is read from a text that is known in part is found by following the grammar along it. At each place
of the text it is known what is next there, so an action has a known outcome: it gives something and leads
to a place further on, or it is refused.

## Main definitions

* `ParserState.On` — the tokens that are left are those from a place of a text on.
* `Parser.Reads` — the outcome of an action at a place.

Outcomes come with the laws of the monad, and with one of loops.
-/

namespace Protobuf.Schema

namespace Scanner

theorem Cuts.unique {s : Scanner} {ts us : List Located} {ending ending' : Except ParseError Located}
    (h : s.Cuts ts ending) (h' : s.Cuts us ending') : us = ts ∧ ending' = ending := by
  induction h generalizing us with
  | failure h =>
    cases h' with
    | failure h' =>
      cases h.symm.trans h'
      exact ⟨rfl, rfl⟩
    | ending h' => cases h.symm.trans h'
    | token h' _ _ => cases h.symm.trans h'
  | ending h =>
    cases h' with
    | failure h' => cases h.symm.trans h'
    | ending h' =>
      cases h.symm.trans h'
      exact ⟨rfl, rfl⟩
    | token h' ht _ =>
      cases h.symm.trans h'
      exact absurd rfl ht
  | token h ht hmore ih =>
    cases h' with
    | failure h' => cases h.symm.trans h'
    | ending h' =>
      cases h.symm.trans h'
      exact absurd rfl ht
    | token h' _ hmore' =>
      cases h.symm.trans h'
      obtain ⟨rfl, rfl⟩ := ih hmore'
      exact ⟨rfl, rfl⟩

theorem Cuts.of_next_eq {s s' : Scanner} {ts : List Located} {ending : Except ParseError Located}
    (h : s.Cuts ts ending) (heq : s'.next = s.next) : s'.Cuts ts ending := by
  cases h with
  | failure h => exact .failure (heq.trans h)
  | ending h => exact .ending (heq.trans h)
  | token h ht hmore => exact .token (heq.trans h) ht hmore

theorem tokens_of_cuts {s : Scanner} {ts : List Located} {ending : Except ParseError Located}
    (h : s.Cuts ts ending) : s.tokens = (ts, ending) :=
  Prod.ext (h.unique (cuts_tokens s)).1 (h.unique (cuts_tokens s)).2

end Scanner

/-- The tokens that are left are those of a text from a place on, which is written in `proto2`. -/
structure ParserState.On (place : Scanner) (s : ParserState) : Prop where
  tokens : (s.ahead, s.ending) = place.tokens
  dialect : s.dialect = .proto2

theorem ParserState.On.ends {place : Scanner} {s : ParserState} (h : s.On place) : s.Ends := by
  intro t ht
  have hending : s.ending = place.tokens.2 := congrArg Prod.snd h.tokens
  exact ending_tokensWithin (hending.symm.trans ht)

namespace Parser

variable {α β γ σ : Type}

/-- An action has given something and led to a place, or it has been refused. -/
inductive Outcome : Except ParseError (α × ParserState) → Option (α × Scanner) → Prop
  | given {a : α} {s : ParserState} {p : Scanner} (hs : s.On p) : Outcome (.ok (a, s)) (some (a, p))
  | refused {e : ParseError} : Outcome (.error e) none

variable {p : Parser α} {f : α → Parser β} {place place' place'' : Scanner}

/-- From a place of a text on, the action has the outcome `r`. -/
def Reads (p : Parser α) (place : Scanner) (r : Option (α × Scanner)) : Prop :=
  ∀ s, s.On place → Outcome (p.run s) r

namespace Reads

theorem pure (a : α) : Reads (Pure.pure a) place (some (a, place)) :=
  fun _ hs => .given hs

theorem fail (line : Nat) (fault : SyntaxFault) :
    Reads (Parser.fail line fault : Parser α) place none :=
  fun _ _ => .refused

theorem bind {a : α} {r : Option (β × Scanner)} (hp : Reads p place (some (a, place')))
    (hf : Reads (f a) place' r) : Reads (p >>= f) place r := by
  intro s hs
  rw [StateT.run_bind]
  have hfirst := hp s hs
  generalize p.run s = first at hfirst
  cases hfirst with
  | given hs' => exact hf _ hs'

theorem refused (hp : Reads p place none) : Reads (p >>= f) place none := by
  intro s hs
  rw [StateT.run_bind]
  have hfirst := hp s hs
  generalize p.run s = first at hfirst
  cases hfirst
  exact .refused

/-- What is done with the result of the first action is known whatever it is. -/
theorem bindMap {o : Option γ} {g : γ → α} {k : γ → β}
    (hp : Reads p place (o.map fun c => (g c, place')))
    (hf : ∀ c, Reads (f (g c)) place' (some (k c, place''))) :
    Reads (p >>= f) place (o.map fun c => (k c, place'')) := by
  cases o with
  | none => exact refused hp
  | some c => exact bind hp (hf c)

theorem map {o : Option γ} {g : γ → α} {k : α → β} (hp : Reads p place (o.map fun c => (g c, place'))) :
    Reads (k <$> p) place (o.map fun c => (k (g c), place')) := by
  rw [map_eq_pure_bind]
  exact bindMap hp fun c => pure _

/-- A space before a token makes no difference. -/
theorem space {rest : List Char} {line : Nat} {r : Option (α × Scanner)} (h : Reads p ⟨rest, line⟩ r) :
    Reads p ⟨' ' :: rest, line⟩ r := by
  have hnext : Scanner.next ⟨' ' :: rest, line⟩ = Scanner.next ⟨rest, line⟩ := rfl
  have htokens := Scanner.tokens_of_cuts ((Scanner.cuts_tokens ⟨rest, line⟩).of_next_eq hnext)
  exact fun s hs => h s ⟨hs.tokens.trans htokens, hs.dialect⟩

end Reads

theorem reads_next {t : Located} (h : place.next = (.ok t, place')) (ht : t.token ≠ .eof) :
    Reads next place (some (t, place')) := by
  rintro ⟨ahead, ending, seen, line, dialect⟩ ⟨htokens, hdialect⟩
  rw [Scanner.tokens_of_cuts (.token h ht (Scanner.cuts_tokens place'))] at htokens
  cases htokens
  exact .given ⟨rfl, hdialect⟩

theorem reads_next_end {line : Nat} (h : place.next = (.ok ⟨.eof, line⟩, place')) :
    Reads next place (some (⟨.eof, line⟩, place)) := by
  rintro ⟨ahead, ending, seen, line, dialect⟩ ⟨htokens, hdialect⟩
  have hplace := htokens
  rw [Scanner.tokens_of_cuts (.ending h)] at htokens
  cases htokens
  exact .given ⟨hplace, hdialect⟩

theorem reads_next_failure {e : ParseError} (h : place.next = (.error e, place')) :
    Reads next place none := by
  rintro ⟨ahead, ending, seen, line, dialect⟩ ⟨htokens, hdialect⟩
  rw [Scanner.tokens_of_cuts (.failure h)] at htokens
  cases htokens
  exact .refused

theorem reads_peek {t : Located} (h : place.next = (.ok t, place')) (ht : t.token ≠ .eof) :
    Reads peek place (some (t, place)) := by
  rintro ⟨ahead, ending, seen, line, dialect⟩ ⟨htokens, hdialect⟩
  have hplace := htokens
  rw [Scanner.tokens_of_cuts (.token h ht (Scanner.cuts_tokens place'))] at htokens
  cases htokens
  exact .given ⟨hplace, hdialect⟩

/-! ### Loops -/

theorem Rounds.unique {step : σ → Parser (σ ⊕ α)} {x : σ} {s : ParserState}
    {r r' : Except ParseError (α × ParserState)} (h : Rounds step x s r) (h' : Rounds step x s r') :
    r' = r := by
  induction h with
  | last h =>
    cases h' with
    | last h' => cases h.symm.trans h'; rfl
    | failure h' => cases h.symm.trans h'
    | more h' _ => cases h.symm.trans h'
  | failure h =>
    cases h' with
    | last h' => cases h.symm.trans h'
    | failure h' => cases h.symm.trans h'; rfl
    | more h' _ => cases h.symm.trans h'
  | more h hmore ih =>
    cases h' with
    | last h' => cases h.symm.trans h'
    | failure h' => cases h.symm.trans h'
    | more h' hmore' =>
      cases goes_unique h h'
      exact ih hmore'

/-- A loop is its first round, and the loop again if that goes on. -/
theorem IsLoop.run_iterate {step : σ → Parser (σ ⊕ α)} (h : IsLoop step) (x : σ) {s : ParserState}
    (hs : s.Ends) :
    (iterate step x).run s = (step x >>= Sum.elim (iterate step) Pure.pure).run s := by
  refine Rounds.unique ?_ (h.rounds x hs)
  rw [StateT.run_bind]
  rcases hstep : (step x).run s with e | ⟨y | a, s'⟩
  · exact .failure hstep
  · have hround : Goes step (x, s) (y, s') := hstep
    have hs' : s'.AtMost s.ahead.length := ((h.tidy x _).gives s ⟨hs, Nat.le_refl _⟩ _ s' hstep).2
    exact .more hround (h.rounds y hs'.ends)
  · exact .last hstep

theorem Reads.iterate {step : σ → Parser (σ ⊕ α)} (hloop : IsLoop step) {x : σ}
    {r : Option (α × Scanner)} (h : Reads (step x >>= Sum.elim (iterate step) Pure.pure) place r) :
    Reads (iterate step x) place r := by
  intro s hs
  rw [hloop.run_iterate x hs.ends]
  exact h s hs

/-! ### Tokens of one kind -/

theorem Reads.line {f : Nat → Parser β} {r : Option (β × Scanner)}
    (h : ∀ line, Reads (f line) place r) : Reads (currentLine >>= f) place r := by
  intro s hs
  have hline : ∃ line, currentLine.run s = .ok (line, s) := by
    obtain ⟨ahead, ending, seen, line, dialect⟩ := s
    cases seen with
    | zero => exact ⟨_, rfl⟩
    | succ seen =>
      cases ahead with
      | cons t more => exact ⟨_, rfl⟩
      | nil => cases ending <;> exact ⟨_, rfl⟩
  obtain ⟨line, hline⟩ := hline
  rw [StateT.run_bind, hline]
  exact h line s hs

theorem reads_dialect : Reads dialect place (some (.proto2, place)) := by
  intro s hs
  have hrun : dialect.run s = .ok (.proto2, s) := by
    rw [← hs.dialect]
    rfl
  rw [hrun]
  exact .given hs

variable {line : Nat}

theorem reads_path {text : String} (h : place.next = (.ok ⟨.ident text, line⟩, place')) :
    Reads path place (some (text, place')) :=
  (reads_next h (by simp)).bind (.pure text)

theorem reads_name {text : String} (h : place.next = (.ok ⟨.ident text, line⟩, place'))
    (hplain : text.contains '.' = false) : Reads name place (some (text, place')) := by
  refine .line fun line => (reads_path h).bind ?_
  rw [hplain]
  exact .pure text

theorem reads_expectSymbol {c : Char} (h : place.next = (.ok ⟨.symbol c, line⟩, place')) :
    Reads (expectSymbol c) place (some ((), place')) := by
  refine (reads_next h (by simp)).bind ?_
  rw [if_pos rfl]
  exact .pure ()

theorem reads_acceptSymbol {c : Char} (h : place.next = (.ok ⟨.symbol c, line⟩, place')) :
    Reads (acceptSymbol c) place (some (true, place')) := by
  refine (reads_peek h (by simp)).bind ?_
  rw [if_pos rfl]
  exact (reads_next h (by simp)).bind (.pure true)

theorem reads_fieldId {n : Nat} (h : place.next = (.ok ⟨.int n, line⟩, place'))
    (hn : n < UInt32.size) : Reads fieldId place (some (n.toUInt32, place')) := by
  refine (reads_next h (by simp)).bind ?_
  dsimp only
  rw [if_pos hn]
  exact .pure _

end Parser
end Protobuf.Schema

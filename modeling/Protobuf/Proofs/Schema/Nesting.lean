import Protobuf.Proofs.Schema.Depth
import Protobuf.Proofs.Schema.Outline
import Protobuf.Proofs.Schema.Progress

/-!
# The nesting of texts

The grammar reads messages, groups and aggregates in each other up to a bound. It is followed along the
outline of the text: at each place the braces that it is between are those that the outline has open
there. So it never goes on where too many are open, and refuses a text for its nesting only there.

## Main definitions

* `Parser.Walks` — an action that starts at a place with some outline, and where it leads to.
* `Parser.Still` — the action stays in the statement that it starts in.

## Main results

* `Schema.nesting_le_of_parse` — a text that is read does not nest too deep
* `Schema.lt_nesting_of_parse` — a text is refused for its nesting only if it nests too deep
* `Schema.parse_terminates` — reading comes to an end by itself, within the bound on nesting
-/

namespace Protobuf.Schema

/-- The fault is that a text nests too deep. -/
@[reducible] def SyntaxFault.isNesting : SyntaxFault → Bool
  | .nestingTooDeep => true
  | _ => false

/-- The condition is seen not to hold. -/
class Fails (b : Bool) : Prop where
  eq : b = false

instance : Fails false :=
  ⟨rfl⟩

/-- The text nests too deep. -/
def ParseError.TooDeep (e : ParseError) : Prop :=
  ∃ line, e = .malformed line .nestingTooDeep

/-- The tokens that are left are those of a text, and no failure of the scanner is one of nesting. -/
structure ParserState.Lexed (s : ParserState) : Prop where
  ahead : ∀ t ∈ s.ahead, t.token ≠ .eof
  ends : s.Ends
  failure : ∀ e, s.ending = .error e → ¬e.TooDeep

namespace Parser

variable {α β : Type} {o : Outline} {opened : List Brace}

/-- From a place with the outline `o` the action leads to a place with an outline as `Q` says, given the
result. It is refused for nesting only if the text nests too deep. -/
def Walks (o : Outline) (p : Parser α) (Q : α → Outline → Prop) : Prop :=
  ∀ s, s.Lexed →
    (∀ a s', p.run s = .ok (a, s') →
      s'.Lexed ∧ ∃ taken, s.ahead = taken ++ s'.ahead ∧ Q a (o.after taken)) ∧
    ∀ e, p.run s = .error e → e.TooDeep → maxNesting < (o.after s.ahead).deepest

namespace Walks

variable {p : Parser α} {f : α → Parser β} {P Q : α → Outline → Prop} {R : β → Outline → Prop}

theorem pure {a : α} (h : Q a o) : Walks o (Pure.pure a) Q := by
  refine fun s hs => ⟨fun b s' hrun => ?_, fun e hrun => by cases hrun⟩
  cases hrun
  exact ⟨hs, [], rfl, h⟩

theorem fail (line : Nat) (fault : SyntaxFault) [h : Fails fault.isNesting] :
    Walks o (Parser.fail line fault : Parser α) Q := by
  refine fun s hs => ⟨fun b s' hrun => (by cases hrun), fun e hrun hdeep => ?_⟩
  cases hrun
  obtain ⟨_, heq⟩ := hdeep
  cases heq
  cases h.eq

/-- Too many braces are open. -/
theorem failDeep (h : maxNesting < o.deepest) {line : Nat} {fault : SyntaxFault} :
    Walks o (Parser.fail line fault : Parser α) Q := by
  refine fun s hs => ⟨fun b s' hrun => (by cases hrun), fun e hrun hdeep => ?_⟩
  exact Nat.lt_of_lt_of_le h (Outline.deepest_le_after _)

theorem mono (hp : Walks o p P) (h : ∀ a o', P a o' → Q a o') : Walks o p Q := by
  refine fun s hs => ⟨fun a s' hrun => ?_, (hp s hs).2⟩
  obtain ⟨hs', taken, htaken, ha⟩ := (hp s hs).1 a s' hrun
  exact ⟨hs', taken, htaken, h a _ ha⟩

theorem bind (hp : Walks o p P) (hf : ∀ a o', P a o' → Walks o' (f a) R) : Walks o (p >>= f) R := by
  intro s hs
  rcases hfirst : p.run s with e | ⟨a, s'⟩
  · refine ⟨fun b s'' hrun => ?_, fun e' hrun => ?_⟩
    · rw [StateT.run_bind, hfirst] at hrun
      cases hrun
    · rw [StateT.run_bind, hfirst] at hrun
      cases hrun
      exact (hp s hs).2 e hfirst
  · obtain ⟨hs', taken, htaken, ha⟩ := (hp s hs).1 a s' hfirst
    have hrest := hf a _ ha s' hs'
    rw [StateT.run_bind, hfirst]
    refine ⟨fun b s'' hrun => ?_, fun e hrun hdeep => ?_⟩
    · obtain ⟨hs'', more, hmore, hb⟩ := hrest.1 b s'' hrun
      refine ⟨hs'', taken ++ more, by rw [htaken, hmore, List.append_assoc], ?_⟩
      rw [Outline.after_append]
      exact hb
    · rw [htaken, Outline.after_append]
      exact hrest.2 e hrun hdeep

theorem map {g : α → β} (hp : Walks o p fun a o' => R (g a) o') : Walks o (g <$> p) R := by
  rw [map_eq_pure_bind]
  exact hp.bind fun a o' ha => Walks.pure ha

theorem ite {c : Prop} [Decidable c] {q : Parser α} (hp : c → Walks o p Q) (hq : ¬c → Walks o q Q) :
    Walks o (if c then p else q) Q := by
  split
  · exact hp ‹_›
  · exact hq ‹_›

/-- What comes after a check is done only if the check has not failed. -/
theorem check {c : Prop} [Decidable c] {line : Nat} {fault : SyntaxFault} [Fails fault.isNesting]
    {rest : PUnit → Parser β} (h : Walks o (rest ⟨⟩) R) :
    Walks o (if c then Parser.fail line fault >>= rest else rest ⟨⟩) R :=
  Walks.ite (fun _ => (Walks.fail (Q := fun _ _ => False) line fault).bind fun _ _ hf => hf.elim)
    fun _ => h

theorem checkNot {c : Prop} [Decidable c] {line : Nat} {fault : SyntaxFault} [Fails fault.isNesting]
    {rest : PUnit → Parser β} (h : Walks o (rest ⟨⟩) R) :
    Walks o (if c then rest ⟨⟩ else Parser.fail line fault >>= rest) R :=
  Walks.ite (fun _ => h) fun _ =>
    (Walks.fail (Q := fun _ _ => False) line fault).bind fun _ _ hf => hf.elim

/-- What is only looked at leads nowhere. -/
theorem of_run {Q : α → Outline → Prop} (h : ∀ s, ∃ a, p.run s = .ok (a, s) ∧ Q a o) : Walks o p Q := by
  intro s hs
  obtain ⟨a, hrun, ha⟩ := h s
  rw [hrun]
  refine ⟨fun b s' heq => ?_, fun e heq => by cases heq⟩
  cases heq
  exact ⟨hs, [], rfl, ha⟩

theorem currentLine : Walks o Parser.currentLine fun _ o' => o' = o := by
  refine of_run fun s => ?_
  obtain ⟨ahead, ending, _ | seen, line, dialect⟩ := s
  · exact ⟨_, rfl, rfl⟩
  · cases ahead with
    | cons t more => exact ⟨_, rfl, rfl⟩
    | nil => cases ending <;> exact ⟨_, rfl, rfl⟩

theorem next_bind {f : Located → Parser β}
    (hf : ∀ t, t.token ≠ .eof → Walks (o.next t.token) (f t) R)
    (hend : ∀ t, t.token = .eof → Walks o (f t) R) : Walks o (next >>= f) R := by
  rintro ⟨ahead, ending, seen, line, dialect⟩ hs
  cases ahead with
  | cons t more =>
    obtain ⟨ht, hmore⟩ := List.forall_mem_cons.mp hs.ahead
    obtain ⟨hok, herror⟩ := hf t ht ⟨more, ending, seen - 1, t.line, dialect⟩ ⟨hmore, hs.ends, hs.failure⟩
    refine ⟨fun b s' hrun => ?_, fun e hrun hdeep => herror e hrun hdeep⟩
    obtain ⟨hs', taken, htaken, hb⟩ := hok b s' hrun
    exact ⟨hs', t :: taken, congrArg (t :: ·) htaken, hb⟩
  | nil =>
    cases ending with
    | error e =>
      refine ⟨fun b s' hrun => (by cases hrun), fun e' hrun hdeep => ?_⟩
      cases hrun
      exact absurd hdeep (hs.failure e rfl)
    | ok last =>
      exact hend last (hs.ends last rfl) ⟨[], .ok last, seen - 1, last.line, dialect⟩
        ⟨hs.ahead, hs.ends, hs.failure⟩

/-- The next token is looked at, and then may be taken. -/
theorem peek_bind {f : Located → Parser β}
    (hf : ∀ t, Walks o (f t) R ∨ t.token ≠ .eof ∧
      ∃ g, f t = Parser.next >>= g ∧ ∀ t', t'.token = t.token → Walks (o.next t.token) (g t') R) :
    Walks o (peek >>= f) R := by
  rintro ⟨ahead, ending, seen, line, dialect⟩ hs
  let looked : ParserState := ⟨ahead, ending, max seen 1, line, dialect⟩
  have hlooked : looked.Lexed := ⟨hs.ahead, hs.ends, hs.failure⟩
  cases ahead with
  | cons t more =>
    rcases hf t with ht | ⟨-, g, hg, htake⟩
    · exact ht looked hlooked
    · have hrun : (peek >>= f).run ⟨t :: more, ending, seen, line, dialect⟩ =
          (g t).run ⟨more, ending, max seen 1 - 1, t.line, dialect⟩ := by
        show (f t).run looked = _
        rw [hg]
        rfl
      obtain ⟨ht, hmore⟩ := List.forall_mem_cons.mp hs.ahead
      obtain ⟨hok, herror⟩ := htake t rfl ⟨more, ending, max seen 1 - 1, t.line, dialect⟩
        ⟨hmore, hs.ends, hs.failure⟩
      rw [hrun]
      refine ⟨fun b s' hrest => ?_, herror⟩
      obtain ⟨hs', taken, htaken, hb⟩ := hok b s' hrest
      exact ⟨hs', t :: taken, congrArg (t :: ·) htaken, hb⟩
  | nil =>
    cases ending with
    | error e =>
      refine ⟨fun b s' hrun => (by cases hrun), fun e' hrun hdeep => ?_⟩
      cases hrun
      exact absurd hdeep (hs.failure e rfl)
    | ok last =>
      rcases hf last with ht | ⟨ht, -⟩
      · exact ht looked hlooked
      · exact absurd (hs.ends last rfl) ht

theorem iterate {σ : Type} {step : σ → Parser (σ ⊕ α)} {J : σ → Outline → Prop}
    (hstep : ∀ x o', J x o' → Walks o' (step x) fun r o'' => r.elim (J · o'') (Q · o'')) {x : σ}
    (hx : J x o) : Walks o (Parser.iterate step x) Q := by
  have hover : ∀ (tokens : List Located) (x : σ) (o : Outline), J x o →
      Walks o (iterateOver step tokens x) Q := by
    intro tokens
    induction tokens with
    | nil =>
      intro x o hx
      rw [iterateOver]
      refine (hstep x o hx).bind fun r o' hr => ?_
      cases r with
      | inl y => exact currentLine.bind fun line o'' _ => Walks.fail line _
      | inr a => exact Walks.pure hr
    | cons t more ih =>
      intro x o hx
      rw [iterateOver]
      refine (hstep x o hx).bind fun r o' hr => ?_
      cases r with
      | inl y => exact ih y o' hr
      | inr a => exact Walks.pure hr
  intro s hs
  exact hover s.ahead x o hx s hs

end Walks

/-! ### Actions within a statement -/

/-- The punctuation character stands within statements. -/
class Inner (c : Char) : Prop where
  eq : (Token.symbol c).isMark = false

instance : Inner '=' := ⟨rfl⟩
instance : Inner ',' := ⟨rfl⟩
instance : Inner ':' := ⟨rfl⟩
instance : Inner '(' := ⟨rfl⟩
instance : Inner ')' := ⟨rfl⟩
instance : Inner '[' := ⟨rfl⟩
instance : Inner ']' := ⟨rfl⟩
instance : Inner '<' := ⟨rfl⟩
instance : Inner '>' := ⟨rfl⟩

/-- The action stays in the statement. -/
class Still (opened : List Brace) (p : Parser α) : Prop where
  walks : ∀ o : Outline, o.Inside opened → Walks o p fun _ o' => o'.Inside opened

section Still

variable {p : Parser α} {f : α → Parser β}

instance (a : α) : Still opened (pure a : Parser α) :=
  ⟨fun _ ho => Walks.pure ho⟩

instance [hp : Still opened p] [hf : ∀ a, Still opened (f a)] : Still opened (p >>= f) :=
  ⟨fun o ho => (hp.walks o ho).bind fun a o' ho' => (hf a).walks o' ho'⟩

instance (g : α → β) [hp : Still opened p] : Still opened (g <$> p) :=
  ⟨fun o ho => Walks.map (hp.walks o ho)⟩

instance {c : Prop} [Decidable c] {q : Parser α} [hp : Still opened p] [hq : Still opened q] :
    Still opened (if c then p else q) := by
  split
  · exact hp
  · exact hq

instance (line : Nat) (fault : SyntaxFault) [Fails fault.isNesting] :
    Still opened (fail line fault : Parser α) :=
  ⟨fun _ _ => Walks.fail line fault⟩

theorem still_bind [hp : Still opened p] (h : ∀ a, Still opened (f a)) : Still opened (p >>= f) :=
  inferInstance

instance : Still opened currentLine :=
  ⟨fun _ ho => Walks.currentLine.mono fun _ _ heq => heq ▸ ho⟩

instance : Still opened dialect :=
  ⟨fun _ ho => Walks.of_run fun _ => ⟨_, rfl, ho⟩⟩

/-- What is known of a token may be used behind it, if the marks are refused there. -/
theorem still_next {f : Located → Parser β} (hf : ∀ t, t.token.isMark = false → Still opened (f t))
    (hmark : ∀ t, t.token.isMark → ∀ o, Walks o (f t) fun _ o' => o'.Inside opened) :
    Still opened (next >>= f) := by
  refine ⟨fun o ho => Walks.next_bind (fun t ht => ?_) fun t ht => ?_⟩
  · cases hplain : t.token.isMark with
    | true => exact hmark t hplain _
    | false => exact (hf t hplain).walks _ (ho.next hplain)
  · exact (hf t (by rw [ht]; rfl)).walks o ho

theorem walks_expectSymbol (c : Char) :
    Walks o (expectSymbol c) fun _ o' => o' = o.next (.symbol c) := by
  refine Walks.next_bind (fun t _ => Walks.ite (fun ht => ?_) fun _ => Walks.fail _ _) fun t ht => ?_
  · rw [ht]
    exact Walks.pure rfl
  · rw [ht]
    exact Walks.fail _ _

instance (c : Char) [hc : Inner c] : Still opened (expectSymbol c) :=
  ⟨fun _ ho => (walks_expectSymbol c).mono fun _ _ heq => heq ▸ ho.next hc.eq⟩

theorem walks_path : Walks o path fun text o' => o' = o.next (.ident text) := by
  refine Walks.next_bind (fun t _ => ?_) fun t ht => ?_
  · split
    · rename_i htoken
      rw [htoken]
      exact Walks.pure rfl
    · exact Walks.fail _ _
  · rw [ht]
    exact Walks.fail _ _

instance : Still opened path :=
  ⟨fun _ ho => walks_path.mono fun _ _ heq => heq ▸ ho.next rfl⟩

theorem walks_name : Walks o name fun text o' => o' = o.next (.ident text) := by
  refine Walks.currentLine.bind fun line o' heq => ?_
  subst heq
  refine walks_path.bind fun text o' heq => Walks.ite (fun _ => Walks.fail _ _) fun _ => ?_
  exact Walks.pure heq

instance : Still opened name :=
  ⟨fun _ ho => walks_name.mono fun _ _ heq => heq ▸ ho.next rfl⟩

theorem walks_fieldId : Walks o fieldId fun _ o' => ∃ value, o' = o.next (.int value) := by
  refine Walks.next_bind (fun t _ => ?_) fun t ht => ?_
  · split
    · rename_i value htoken
      rw [htoken]
      exact Walks.ite (fun _ => Walks.pure ⟨value, rfl⟩) fun _ => Walks.fail _ _
    · exact Walks.fail _ _
  · rw [ht]
    exact Walks.fail _ _

instance : Still opened fieldId :=
  ⟨fun _ ho => walks_fieldId.mono fun _ _ ⟨_, heq⟩ => heq ▸ ho.next rfl⟩

/-- A token of a kind that has no marks. -/
theorem still_next_of {f : Located → Parser β} (hf : ∀ t, Still opened (f t))
    (hmark : ∀ t c, t.token = .symbol c → ∀ o, Walks o (f t) fun _ o' => o'.Inside opened) :
    Still opened (next >>= f) := by
  refine still_next (fun t _ => hf t) fun t ht => ?_
  cases htoken : t.token with
  | symbol c => exact hmark t c htoken
  | _ =>
    rw [htoken] at ht
    cases ht

instance (keyword : String) : Still opened (expectKeyword keyword) := by
  refine still_next_of inferInstance fun t c ht o => ?_
  rw [ht]
  exact Walks.fail _ _

instance : Still opened stringLiteral := by
  refine still_next_of (fun t => by split <;> infer_instance) fun t c ht o => ?_
  rw [ht]
  exact Walks.fail _ _

instance : Still opened enumNumber := by
  unfold enumNumber
  refine still_next (fun first _ => ?_) fun first ht o => ?_
  · dsimp only
    split
    · refine still_next_of (fun t => by split <;> infer_instance) fun t c ht o => ?_
      rw [ht]
      exact Walks.fail _ _
    · rw [pure_bind]
      split <;> infer_instance
  · cases htoken : first.token with
    | symbol c =>
      dsimp only
      rw [if_neg]
      · rw [pure_bind, htoken]
        exact Walks.fail _ _
      · rintro hminus
        rw [htoken, hminus] at ht
        cases ht
    | _ =>
      rw [htoken] at ht
      cases ht

instance (line : Nat) : Still opened (setLine line) :=
  ⟨fun o ho s hs => ⟨fun a s' hrun => by
    cases hrun; exact ⟨⟨hs.ahead, hs.ends, hs.failure⟩, [], rfl, ho⟩, fun e hrun => by cases hrun⟩⟩

theorem walks_acceptSymbol (c : Char) :
    Walks o (acceptSymbol c) fun accepted o' => o' = if accepted then o.next (.symbol c) else o := by
  refine Walks.peek_bind fun t => ?_
  by_cases ht : t.token = .symbol c
  · refine .inr ⟨by simp [ht], _, if_pos ht, fun t' _ => Walks.pure ?_⟩
    rw [ht]
    rfl
  · rw [if_neg ht]
    exact .inl (Walks.pure rfl)

instance (c : Char) [hc : Inner c] : Still opened (acceptSymbol c) := by
  refine ⟨fun o ho => (walks_acceptSymbol c).mono fun accepted o' heq => ?_⟩
  rw [heq]
  cases accepted with
  | true => exact ho.next hc.eq
  | false => exact ho

instance (keyword : String) : Still opened (acceptKeyword keyword) := by
  refine ⟨fun o ho => Walks.peek_bind fun t => ?_⟩
  by_cases ht : t.token = .ident keyword
  · refine .inr ⟨by simp [ht], _, if_pos ht, fun t' _ => Walks.pure (ho.next ?_)⟩
    rw [ht]
    rfl
  · rw [if_neg ht]
    exact .inl (Walks.pure ho)

theorem still_peek {f : Located → Parser β} (hf : ∀ t, Still opened (f t)) :
    Still opened (peek >>= f) :=
  ⟨fun o ho => Walks.peek_bind fun t => .inl ((hf t).walks o ho)⟩

theorem still_iterate {σ : Type} {step : σ → Parser (σ ⊕ α)} (hstep : ∀ x, Still opened (step x))
    (x : σ) : Still opened (iterate step x) := by
  refine ⟨fun o ho => Walks.iterate (J := fun _ o' => o'.Inside opened) (fun x o' ho' => ?_) ho⟩
  exact ((hstep x).walks o' ho').mono fun r o'' h => by cases r <;> exact h

/-! ### Options -/

instance (text : String) : Still opened (optionNameStep text) := by
  refine ⟨fun o ho => Walks.peek_bind fun t => ?_⟩
  split
  · rename_i part hpart
    split
    · refine .inr ⟨by simp [hpart], _, rfl, fun t' _ => Walks.pure (ho.next ?_)⟩
      rw [hpart]
      rfl
    · exact .inl (Walks.pure ho)
  · exact .inl (Walks.pure ho)

instance : Still opened optionName := by
  have hmore : ∀ first, Still opened (iterate optionNameStep first) := still_iterate inferInstance
  unfold optionName
  refine still_next (fun t _ => by split <;> infer_instance) fun t ht o => ?_
  split
  · rename_i htoken
    rw [htoken] at ht
    cases ht
  · rename_i htoken
    rw [htoken] at ht
    cases ht
  · exact (Walks.fail (Q := fun _ _ => False) _ _).bind fun _ _ hfalse => hfalse.elim

instance (magnitude : Nat) (negative : Bool) (line : Nat) :
    Still opened (integerConstant magnitude negative line) := by
  unfold integerConstant
  infer_instance

instance (text : String) : Still opened (literalStep text) := by
  refine ⟨fun o ho => Walks.peek_bind fun t => ?_⟩
  split
  · rename_i more hmore
    refine .inr ⟨by simp [hmore], _, rfl, fun t' _ => Walks.pure (ho.next ?_)⟩
    rw [hmore]
    rfl
  · exact .inl (Walks.pure ho)

/-- The action reads an aggregate from behind its opening brace. -/
class Aggregates (opened : List Brace) (aggregate : Parser Constant) : Prop where
  walks : ∀ o : Outline, o.Inside opened → o.brace = .aggregate →
    Walks (o.next (.symbol '\x7b')) aggregate fun _ o' => o'.Inside opened

theorem brace_of_equals {read : List Token} (h : o.read = .symbol '=' :: read) :
    o.brace = .aggregate := by
  rw [Outline.brace, h]
  split <;> rfl

/-- A brace in the place of a constant opens an aggregate. -/
theorem walks_constantWith {aggregate : Parser Constant} [hagg : Aggregates opened aggregate]
    (ho : o.Inside opened) (hbrace : o.brace = .aggregate) :
    Walks o (constantWith aggregate) fun _ o' => o'.Inside opened := by
  have hmore : ∀ text, Still opened (iterate literalStep text) := still_iterate inferInstance
  refine Walks.next_bind (fun t ht => ?_) fun t ht => ?_
  · have hstays : t.token.isMark = false → (o.next t.token).Inside opened := ho.next
    split
    case h_9 htoken =>
      rw [htoken]
      exact hagg.walks o ho hbrace
    case h_10 sign _ htoken =>
      refine Walks.ite (fun hsign => ?_) fun _ => Walks.fail _ _
      have hread := hstays (by rw [htoken]; rcases hsign with rfl | rfl <;> rfl)
      refine (still_next_of (fun n => ?_) fun n c hn o => ?_).walks _ hread
      · split <;> infer_instance
      · rw [hn]
        exact Walks.fail _ _
    case h_6 htoken => exact Still.walks _ (hstays (by rw [htoken]; rfl))
    case h_8 htoken => exact Still.walks _ (hstays (by rw [htoken]; rfl))
    case h_11 => exact Walks.fail _ _
    all_goals
      rename_i htoken
      exact Walks.pure (hstays (by rw [htoken]; rfl))
  · rw [ht]
    exact Walks.fail _ _

section Aggregate

variable {aggregate : Parser Constant} [hagg : Aggregates (.aggregate :: opened) aggregate]

theorem brace_of_aggregate (h : o.opened = .aggregate :: opened) : o.brace = .aggregate := by
  rw [Outline.brace, h]
  rfl

instance : Still (.aggregate :: opened) (constantWith aggregate) :=
  ⟨fun _ ho => walks_constantWith ho (brace_of_aggregate ho.opened)⟩

instance (key : String) (fields : List (String × Constant)) :
    Still (.aggregate :: opened) (listStep (constantWith aggregate) key fields) := by
  unfold listStep
  infer_instance

instance (key : String) (fields : List (String × Constant)) :
    Still (.aggregate :: opened) (aggregateList (constantWith aggregate) key fields) :=
  still_iterate inferInstance fields

theorem walks_aggregateStep (ho : o.Inside (.aggregate :: opened))
    (fields : List (String × Constant)) :
    Walks o (aggregateStep aggregate fields) fun r o' =>
      r.elim (fun _ => o'.Inside (.aggregate :: opened)) fun _ => o'.Inside opened := by
  refine Walks.next_bind (fun t ht => ?_) fun t ht => ?_
  · extract_lets rest
    -- in whatever way the key was written, what stands behind it is read alike
    have hrest : ∀ key? (o : Outline), o.Inside (.aggregate :: opened) → Walks o (rest key?) fun r o' =>
        r.elim (fun _ => o'.Inside (.aggregate :: opened)) fun _ => o'.Inside opened := by
      intro key? o ho
      simp only [rest]
      split
      · rename_i key
        refine (Still.walks o ho).bind fun colon o ho => ?_
        refine (walks_acceptSymbol _).bind fun brace o' heq => ?_
        subst heq
        refine Walks.ite (fun hbrace => ?_) fun hbrace => ?_
        · subst hbrace
          exact (hagg.walks o ho (brace_of_aggregate ho.opened)).bind fun value o' ho' => Walks.pure ho'
        · rw [if_neg hbrace]
          refine Walks.ite (fun _ => ?_) fun _ => Walks.fail _ _
          refine (Still.walks o ho).bind fun bracket o ho => Walks.ite (fun _ => ?_) fun _ => ?_
          · exact (Still.walks o ho).bind fun fields o ho => Walks.pure ho
          · exact (Still.walks o ho).bind fun value o ho => Walks.pure ho
      · exact Walks.pure ho
    have hstays : t.token.isMark = false → (o.next t.token).Inside (.aggregate :: opened) := ho.next
    split
    · rename_i htoken
      rw [htoken]
      exact Walks.pure ho.toWithin.pop
    · rename_i htoken
      rw [pure_bind]
      exact hrest none _ (hstays (by rw [htoken]; rfl))
    · rename_i htoken
      rw [pure_bind, htoken]
      exact hrest none _ (ho.semicolon.inside (by simp))
    · rename_i key htoken
      rw [pure_bind]
      exact hrest (some key) _ (hstays (by rw [htoken]; rfl))
    · rename_i htoken
      refine (Still.walks _ (hstays (by rw [htoken]; rfl))).bind fun inner o ho => ?_
      refine (Still.walks o ho).bind fun _ o ho => ?_
      rw [pure_bind]
      exact hrest (some _) o ho
    · exact (Walks.fail (Q := fun _ _ => False) _ _).bind fun _ _ hfalse => hfalse.elim
  · rw [ht]
    exact (Walks.fail (Q := fun _ _ => False) _ _).bind fun _ _ hfalse => hfalse.elim

end Aggregate

variable {levels : Nat}

/-- Aggregates are read in each other as long as there are levels left. The one that is too deep is refused
where it begins. -/
instance [hlevel : Level levels opened] : Aggregates opened (aggregate levels) := by
  induction levels generalizing opened with
  | zero =>
    refine ⟨fun o ho hbrace => ?_⟩
    rw [aggregate]
    refine Walks.currentLine.bind fun line o' heq => Walks.failDeep ?_
    rw [heq]
    refine ho.tooDeep ?_
    rw [hbrace, depth_cons_of_nests rfl]
    exact Nat.lt_succ_of_le hlevel.eq.ge
  | succ levels ih =>
    have hinner : Level levels (.aggregate :: opened) := inferInstance
    have haggregate : Aggregates (.aggregate :: opened) (aggregate levels) := ih
    refine ⟨fun o ho hbrace => ?_⟩
    rw [aggregate]
    refine Walks.iterate (J := fun _ o' => o'.Inside (.aggregate :: opened))
      (fun fields o ho => walks_aggregateStep ho fields) ?_
    have hpush := ho.push (hbrace ▸ hinner.depth_le)
    rw [hbrace] at hpush
    exact hpush.inside (by simp)

/-! ### Settings -/

section Level

variable [Level levels opened]

instance : Still opened (optionSetting levels) := by
  refine ⟨fun o ho => ?_⟩
  unfold optionSetting
  refine (Still.walks o ho).bind fun name o ho => (walks_expectSymbol '=').bind fun _ o' heq => ?_
  subst heq
  exact (walks_constantWith (ho.next rfl) (brace_of_equals rfl)).bind fun value o ho => Walks.pure ho

/-- The settings end with a bracket. -/
theorem walks_settingStep (ho : o.Inside opened) (options : Options) :
    Walks o (settingStep levels options) fun r o' =>
      o'.Inside opened ∧ r.elim (fun _ => True) fun _ => o'.read.head? = some (.symbol ']') := by
  refine (Still.walks o ho).bind fun setting o ho => Walks.next_bind (fun t ht => ?_) fun t ht => ?_
  · split
    · rename_i htoken
      rw [htoken]
      exact Walks.pure ⟨ho.next rfl, trivial⟩
    · rename_i htoken
      rw [htoken]
      exact Walks.pure ⟨ho.next rfl, rfl⟩
    · exact Walks.fail _ _
  · rw [ht]
    exact Walks.fail _ _

theorem walks_fieldOptions (ho : o.Inside opened) :
    Walks o (fieldOptions levels) fun _ o' =>
      o'.Inside opened ∧ (o' = o ∨ o'.read.head? = some (.symbol ']')) := by
  refine (walks_acceptSymbol '[').bind fun accepted o' heq => ?_
  subst heq
  cases accepted with
  | false => exact Walks.pure ⟨ho, .inl rfl⟩
  | true =>
    refine Walks.iterate (J := fun _ o' => o'.Inside opened)
      (fun options o ho => (walks_settingStep ho options).mono fun r o' h => ?_) (ho.next rfl)
    cases r with
    | inl more => exact h.1
    | inr all => exact ⟨h.1, .inr h.2⟩

instance : Still opened (fieldOptions levels) :=
  ⟨fun _ ho => (walks_fieldOptions ho).mono fun _ _ h => h.1⟩

/-- A statement that sets an option ends where another one may begin. -/
theorem walks_optionStatement (ho : o.Inside opened) (options : Options) :
    Walks o (optionStatement levels options) fun _ o' =>
      o'.Within opened ∧ o'.read.head? = some (.symbol ';') := by
  refine (Still.walks o ho).bind fun setting o ho => (walks_expectSymbol ';').bind fun _ o' heq => ?_
  subst heq
  exact Walks.pure ⟨ho.semicolon, rfl⟩

/-! ### Enums -/

/-- A statement that reserves something is skipped, whatever braces it has. -/
theorem walks_skipStatement (hopened : o.opened = opened) (hskip : o.skipping)
    (hshallow : o.deepest ≤ maxNesting) :
    Walks o skipStatement fun _ o' => o'.Within opened ∧ o'.read.head? = some (.symbol ';') := by
  refine Walks.iterate (J := fun _ o => o.opened = opened ∧ o.skipping = true ∧ o.deepest ≤ maxNesting)
    (fun _ o ⟨hopened, hskip, hshallow⟩ => ?_) ⟨hopened, hskip, hshallow⟩
  refine Walks.next_bind (fun t ht => ?_) fun t ht => ?_
  · have hnext : o.next t.token =
        { o with read := t.token :: o.read, skipping := t.token ≠ .symbol ';' } := by
      rw [Outline.next, if_pos hskip]
    rw [hnext]
    split
    · rename_i htoken
      exact Walks.pure ⟨⟨hopened, by simp [htoken], hshallow⟩, congrArg some htoken⟩
    · exact Walks.fail _ _
    · rename_i htoken _
      exact Walks.pure ⟨hopened, by simpa using htoken, hshallow⟩
  · rw [ht]
    exact Walks.fail _ _

omit [Level levels opened] in
theorem inside_next_of_ne (ho : o.Within opened) {word : String} (hword : word ≠ "reserved") :
    (o.next (.ident word)).Inside opened := by
  rw [Outline.next_of_reads ho.reads rfl]
  refine ⟨⟨ho.opened, by simp [hword], ho.shallow⟩, ?_⟩
  rintro ⟨-, hread | hread⟩ <;> cases hread

/-- Another statement of an enum may begin at the place. -/
structure AtValue (opened : List Brace) (o : Outline) : Prop extends
    Outline.Within (.enumeration :: opened) o where
  value : o.AtValue

omit [Level levels opened] in
theorem AtValue.of_semicolon (ho : o.Within (.enumeration :: opened))
    (hread : o.read.head? = some (.symbol ';')) : AtValue opened o :=
  ⟨ho, by rw [ho.opened]; rfl, .inr hread⟩

theorem walks_enumMember (ho : AtValue opened o) (e : EnumDecl) {word : String} (t : Located) :
    Walks (o.next (.ident word)) (enumMember levels e word t) fun _ o' => AtValue opened o' := by
  unfold enumMember
  refine Walks.ite (fun hword => ?_) fun _ => Walks.ite (fun hword => ?_) fun hword =>
    Walks.ite (fun _ => Walks.fail _ _) fun _ => ?_
  · have hread : (o.next (.ident word)).Inside (.enumeration :: opened) :=
      inside_next_of_ne ho.toWithin (by rw [hword]; decide)
    exact (walks_optionStatement hread e.options).bind fun _ o' h => Walks.pure (.of_semicolon h.1 h.2)
  · subst hword
    have hnext : o.next (.ident "reserved") = _ := Outline.next_of_reads ho.reads rfl
    have hopened : (o.next (.ident "reserved")).opened = .enumeration :: opened := by
      rw [hnext]
      exact ho.opened
    have hskip : (o.next (.ident "reserved")).skipping = true := by
      rw [hnext]
      exact decide_eq_true ⟨rfl, ho.value⟩
    have hshallow : (o.next (.ident "reserved")).deepest ≤ maxNesting := by
      rw [hnext]
      exact ho.shallow
    exact (walks_skipStatement hopened hskip hshallow).bind fun _ o' h =>
      Walks.pure (.of_semicolon h.1 h.2)
  · have hread : (o.next (.ident word)).Inside (.enumeration :: opened) :=
      inside_next_of_ne ho.toWithin hword
    refine (Still.walks _ hread).bind fun _ o ho => (Still.walks o ho).bind fun id o ho =>
      (Still.walks o ho).bind fun options o ho => (walks_expectSymbol ';').bind fun _ o' heq => ?_
    subst heq
    exact Walks.pure (.of_semicolon ho.semicolon rfl)

end Level

/-! ### Blocks -/

/-- The place is right behind the word. -/
def Behind (word : String) (o : Outline) : Prop :=
  o.read.head? = some (.ident word)

section Statements

variable [hplain : Statements opened]

instance : Still opened (expectSymbol ';') := by
  refine ⟨fun o ho => (walks_expectSymbol ';').mono fun _ o' heq => ?_⟩
  subst heq
  exact ho.semicolon.inside hplain.enumeration

theorem brace_of_statements (ho : o.Inside opened) : o.brace = braceBehind o.read := by
  rw [Outline.brace, if_neg (ho.opened ▸ hplain.aggregate)]

/-- A brace behind a word and a name. -/
theorem brace_of_behind (ho : o.Inside opened) {word : String} (h : Behind word o) {b : Brace}
    (hb : Brace.ofWord word = b) (text : String) : (o.next (.ident text)).brace = b := by
  subst hb
  rw [brace_of_statements (ho.next rfl), Outline.read_next]
  unfold Behind at h
  cases hread : o.read with
  | nil =>
    rw [hread] at h
    cases h
  | cons t more =>
    rw [hread] at h
    cases h
    rfl

omit hplain in
theorem walks_open {b : Brace} (ho : o.Inside opened) (hbrace : o.brace = b)
    (hdepth : depth (b :: opened) ≤ maxNesting) :
    Walks o (expectSymbol '\x7b') fun _ o' => o'.Within (b :: opened) ∧ o'.read.head? = some (.symbol '\x7b') := by
  refine (walks_expectSymbol _).mono fun _ o' heq => ?_
  subst heq hbrace
  exact ⟨ho.push hdepth, rfl⟩

theorem walks_enumeration [hlevel : Level levels opened] (ho : o.Inside opened) (hword : Behind "enum" o)
    (line : Nat) : Walks o (enumeration levels line) fun _ o' => o'.Inside opened := by
  unfold enumeration
  refine walks_name.bind fun text o' heq => ?_
  subst heq
  refine (walks_open (ho.next rfl) (brace_of_behind ho hword rfl text) hlevel.depth_le).bind fun _ o h => ?_
  have hvalue : AtValue opened o := ⟨h.1, by rw [h.1.opened]; rfl, .inl h.2⟩
  refine (Walks.iterate (J := fun _ o => AtValue opened o) (Q := fun _ o => o.Inside opened)
    (fun e o ho => ?_) hvalue).bind fun e o ho => Walks.pure ho
  refine Walks.next_bind (fun t ht => ?_) fun t ht => ?_
  · split
    · rename_i htoken
      rw [htoken]
      exact Walks.pure ho.toWithin.pop
    · rename_i htoken
      rw [htoken]
      exact Walks.pure (.of_semicolon ho.semicolon rfl)
    · rename_i word htoken
      rw [htoken]
      exact (walks_enumMember ho e t).bind fun e o ho => Walks.pure ho
    · exact Walks.fail _ _
  · rw [ht]
    exact Walks.fail _ _

omit hplain in
theorem walks_body {σ : Type} {place : Place} {member : σ → String → Located → Parser σ} {b : Brace}
    [hinner : Statements (b :: opened)]
    (hmember : ∀ s word t (o : Outline), t.token = .ident word → o.Inside (b :: opened) →
      Behind word o → Walks o (member s word t) fun _ o' => o'.Inside (b :: opened))
    (ho : o.Within (b :: opened)) (s : σ) :
    Walks o (body place member s) fun _ o' => o'.Inside opened := by
  refine Walks.iterate (J := fun _ o => o.Inside (b :: opened)) (fun s o ho => ?_)
    (ho.inside hinner.enumeration)
  refine Walks.next_bind (fun t ht => ?_) fun t ht => ?_
  · split
    · rename_i htoken
      rw [htoken]
      exact Walks.pure ho.toWithin.pop
    · rename_i htoken
      rw [htoken]
      exact Walks.pure (ho.semicolon.inside hinner.enumeration)
    · rename_i word htoken
      rw [htoken]
      exact (hmember s word t _ htoken (ho.next rfl) rfl).bind fun s o ho => Walks.pure ho
    · exact Walks.fail _ _
  · rw [ht]
    exact Walks.fail _ _

/-! ### Fields -/

instance (label : Option Rule) (oneof : Option String) (line : Nat) :
    Still opened (fieldRule label oneof line) :=
  still_bind fun d => by split <;> infer_instance

variable [hlevel : Level levels opened]

instance (options : Options) : Still opened (optionStatement levels options) := by
  unfold optionStatement
  infer_instance

instance (line : Nat) : Still opened (mapField levels line) := by
  unfold mapField
  exact still_bind fun _ => still_bind fun _ => still_bind fun _ => still_bind fun _ => inferInstance

instance (found : List (UInt32 × UInt32)) : Still opened (rangeStep found) := by
  unfold rangeStep
  infer_instance

instance : Still opened (ranges levels) := by
  have hranges : Still opened (iterate rangeStep []) := still_iterate inferInstance []
  unfold ranges
  infer_instance

instance (names : List Reserved) : Still opened (reservedNameStep names) := by
  unfold reservedNameStep
  infer_instance

instance : Still opened (reserved levels) := by
  have hnames : Still opened (iterate reservedNameStep []) := still_iterate inferInstance []
  unfold reserved
  exact still_peek fun t => by split <;> infer_instance

/-- The reader reads the body of a message where so many levels are left. -/
class Bodies (levels : Nat) (body : BodyReader) : Prop where
  walks : ∀ {opened : List Brace} [Statements opened] [Level levels opened] (o : Outline)
    (m : MessageDecl), o.Inside opened → o.brace = .message →
      Walks o (body m) fun _ o' => o'.Inside opened

variable {body : BodyReader} [hbody : Bodies levels body]

instance (rule : Rule) (oneof : Option String) (line : Nat) :
    Still opened (group levels body rule oneof line) := by
  refine ⟨fun o ho => ?_⟩
  unfold group
  refine (Still.walks o ho).bind fun d o ho => ?_
  extract_lets rest
  refine Walks.check ?_
  refine (Still.walks o ho).bind fun name o ho => ?_
  extract_lets rest'
  refine Walks.checkNot ?_
  refine (Still.walks o ho).bind fun _ o ho => walks_fieldId.bind fun id o' heq => ?_
  obtain ⟨value, rfl⟩ := heq
  refine (walks_fieldOptions (ho.next rfl)).bind fun options o' h => ?_
  have hbrace : o'.brace = .message := by
    rw [brace_of_statements h.1]
    rcases h.2 with rfl | hread
    · rfl
    · cases hmore : o'.read with
      | nil => rfl
      | cons t more =>
        rw [hmore] at hread
        cases hread
        rfl
  exact (hbody.walks o' _ h.1 hbrace).bind fun m o ho => Walks.pure ho

instance (rule : Rule) (typeName : String) (oneof : Option String) (line : Nat) :
    Still opened (typedField levels body rule typeName oneof line) := by
  unfold typedField
  infer_instance

instance (label : Option Rule) (oneof : Option String) (line : Nat) :
    Still opened (field levels body label oneof line) := by
  unfold field
  infer_instance

theorem still_labelledField {word : String} {t : Located} (ht : t.token = .ident word) :
    Still opened (labelledField levels body word t) := by
  unfold labelledField
  split
  · infer_instance
  · rw [pushBack_field ht]
    infer_instance

theorem still_oneofMember (name : String) (s : MessageDecl × Options) {word : String} {t : Located}
    (ht : t.token = .ident word) : Still opened (oneofMember levels body name s word t) := by
  unfold oneofMember
  split
  · infer_instance
  · split
    · infer_instance
    · rw [← bind_assoc, pushBack_field ht]
      infer_instance

/-! ### Messages -/

theorem walks_oneof (ho : o.Inside opened) (hword : Behind "oneof" o) (m : MessageDecl) :
    Walks o (oneof levels body m) fun _ o' => o'.Inside opened := by
  unfold oneof
  refine walks_name.bind fun text o' heq => ?_
  subst heq
  refine (walks_open (b := .block) (ho.next rfl) (brace_of_behind ho hword rfl text)
    hlevel.depth_le).bind fun _ o h => ?_
  refine (walks_body (fun s word t o ht ho _ => ?_) h.1 _).bind fun s o ho => Walks.pure ho
  exact (still_oneofMember text s ht).walks o ho

theorem walks_extendBlock (ho : o.Inside opened) (hword : Behind "extend" o) (line : Nat) :
    Walks o (extendBlock levels body line) fun _ o' => o'.Inside opened := by
  unfold extendBlock
  refine walks_path.bind fun text o' heq => ?_
  subst heq
  refine (walks_open (b := .block) (ho.next rfl) (brace_of_behind ho hword rfl text)
    hlevel.depth_le).bind fun _ o h => ?_
  refine (walks_body (fun e word t o ht ho _ => ?_) h.1 _).bind fun e o ho => Walks.pure ho
  exact ((still_labelledField ht).walks o ho).bind fun parsed o ho => Walks.pure ho

variable (levels) in
include hlevel hbody in
theorem walks_message (ho : o.Inside opened) (hword : Behind "message" o) (line : Nat) :
    Walks o (message body line) fun _ o' => o'.Inside opened := by
  unfold message
  refine walks_name.bind fun text o' heq => ?_
  subst heq
  exact hbody.walks _ _ (ho.next rfl) (brace_of_behind ho hword rfl text)

theorem walks_messageMember (ho : o.Inside opened) (m : MessageDecl) {word : String} {t : Located}
    (ht : t.token = .ident word) (hword : Behind word o) :
    Walks o (messageMember levels body m word t) fun _ o' => o'.Inside opened := by
  have hlabelled : Still opened (labelledField levels body word t) := still_labelledField ht
  simp only [messageMember]
  split
  · exact (walks_message levels ho hword t.line).bind fun inside o ho => Walks.pure ho
  · exact (walks_enumeration ho hword t.line).bind fun e o ho => Walks.pure ho
  · exact walks_oneof ho hword m
  · exact Still.walks o ho
  · exact Still.walks o ho
  · exact Still.walks o ho
  · exact (walks_extendBlock ho hword t.line).bind fun block o ho => Walks.pure ho
  · exact (still_peek fun t' => by split <;> infer_instance).walks o ho
  · exact Still.walks o ho

omit hlevel in
instance (levels : Nat) : Bodies levels (messageBody levels) := by
  induction levels with
  | zero =>
    refine ⟨fun {opened} _ hlevel o m ho hbrace => ?_⟩
    rw [messageBody]
    refine (walks_expectSymbol _).bind fun _ o' heq => Walks.currentLine.bind fun line o'' heq' => ?_
    subst heq heq'
    refine Walks.failDeep (ho.tooDeep ?_)
    rw [hbrace, depth_cons_of_nests rfl]
    exact Nat.lt_succ_of_le hlevel.eq.ge
  | succ levels ih =>
    refine ⟨fun {opened} _ hlevel o m ho hbrace => ?_⟩
    have hinner : Level levels (.message :: opened) := inferInstance
    rw [messageBody]
    refine (walks_open ho hbrace hinner.depth_le).bind fun _ o h => Walks.map ?_
    exact walks_body (fun m word t o ht ho hword => walks_messageMember ho m ht hword) h.1 m

/-! ### Services -/

instance : Still opened methodType := by
  unfold methodType
  refine still_bind fun first => ?_
  extract_lets rest
  split
  · exact still_peek fun t => by split <;> infer_instance
  · infer_instance

instance (method : String) (options : Options) (word : String) (t : Located) :
    Still opened (methodMember levels method options word t) := by
  unfold methodMember
  infer_instance

theorem walks_methodBody (ho : o.Inside opened) (hbrace : o.brace = .block) (method : String) :
    Walks o (methodBody levels method) fun _ o' => o'.Inside opened := by
  refine Walks.next_bind (fun t ht => ?_) fun t ht => ?_
  · split
    · rename_i htoken
      rw [htoken]
      exact Walks.pure (ho.semicolon.inside hplain.enumeration)
    · rename_i htoken
      rw [htoken]
      have hpush := ho.push (hbrace ▸ hlevel.depth_le)
      rw [hbrace] at hpush
      exact walks_body (fun options word t o _ ho _ => Still.walks o ho) hpush _
    · exact Walks.fail _ _
  · rw [ht]
    exact Walks.fail _ _

instance : Still opened (method levels) := by
  refine ⟨fun o ho => ?_⟩
  unfold method
  refine (Still.walks o ho).bind fun name o ho => (Still.walks o ho).bind fun _ o ho =>
    (Still.walks o ho).bind fun request o ho => (Still.walks o ho).bind fun _ o ho =>
    (Still.walks o ho).bind fun _ o ho => (Still.walks o ho).bind fun _ o ho =>
    (Still.walks o ho).bind fun response o ho => (walks_expectSymbol ')').bind fun _ o' heq => ?_
  subst heq
  have hbrace : (o.next (.symbol ')')).brace = .block := brace_of_statements (ho.next rfl)
  exact (walks_methodBody (ho.next rfl) hbrace name).bind fun options o ho => Walks.pure ho

instance (name : String) (s : ServiceDecl) (word : String) (t : Located) :
    Still opened (serviceMember levels name s word t) := by
  unfold serviceMember
  infer_instance

theorem walks_service (ho : o.Inside opened) (hword : Behind "service" o) (line : Nat) :
    Walks o (service levels line) fun _ o' => o'.Inside opened := by
  unfold service
  refine walks_name.bind fun text o' heq => ?_
  subst heq
  refine (walks_open (b := .block) (ho.next rfl) (brace_of_behind ho hword rfl text)
    hlevel.depth_le).bind fun _ o h => ?_
  exact (walks_body (fun s word t o _ ho _ => Still.walks o ho) h.1 _).bind fun s o ho => Walks.pure ho

/-! ### Files -/

omit hlevel

instance (d : Dialect) : Still opened (modify fun s => { s with dialect := d } : Parser PUnit) :=
  ⟨fun o ho s hs => ⟨fun a s' hrun => by
    cases hrun; exact ⟨⟨hs.ahead, hs.ends, hs.failure⟩, [], rfl, ho⟩, fun e hrun => by cases hrun⟩⟩

instance (line : Nat) : Still opened (dialectStatement line) := by
  unfold dialectStatement
  refine still_bind fun _ => still_bind fun text => ?_
  split <;> infer_instance

instance (file : FileDecl) (line : Nat) : Still opened (packageStatement file line) := by
  unfold packageStatement
  infer_instance

instance : Still opened importStatement := by
  refine still_next_of (fun t => by split <;> infer_instance) fun t c ht o => ?_
  rw [ht]
  exact (Walks.fail (Q := fun _ _ => False) _ _).bind fun _ _ hfalse => hfalse.elim

theorem walks_statement (ho : o.Inside []) (file : FileDecl) {word : String} (hword : Behind word o)
    (t : Located) : Walks o (statement file word t) fun _ o' => o'.Inside [] := by
  unfold statement
  extract_lets line
  split
  · exact Still.walks o ho
  · exact Still.walks o ho
  · exact Still.walks o ho
  · exact Still.walks o ho
  · exact (walks_message maxNesting ho hword line).bind fun m o ho => Walks.pure ho
  · exact (walks_enumeration ho hword line).bind fun e o ho => Walks.pure ho
  · exact (walks_service ho hword line).bind fun s o ho => Walks.pure ho
  · exact (walks_extendBlock ho hword line).bind fun b o ho => Walks.pure ho
  · exact Walks.fail _ _

theorem walks_fileStep (ho : o.Inside []) (file : FileDecl) :
    Walks o (fileStep file) fun _ o' => o'.Inside [] := by
  refine Walks.next_bind (fun t ht => ?_) fun t ht => ?_
  · split
    · rename_i htoken
      exact absurd htoken ht
    · rename_i htoken
      rw [htoken]
      exact Walks.pure (ho.semicolon.inside (by simp))
    · rename_i word htoken
      rw [htoken]
      exact (walks_statement (ho.next rfl) file rfl t).bind fun file o ho => Walks.pure ho
    · exact Walks.fail _ _
  · rw [ht]
    exact Walks.pure ho

theorem walks_file (ho : o.Inside []) : Walks o file fun _ o' => o'.Inside [] := by
  refine (Walks.iterate (J := fun _ o => o.Inside []) (Q := fun _ o => o.Inside []) (fun file o ho => ?_)
    ho).bind fun decl o ho => (Still.walks o ho).bind fun d o ho => Walks.pure ho
  exact (walks_fileStep ho file).mono fun r o ho => by cases r <;> exact ho

end Statements

end Still

theorem inside_start : Outline.Inside [] {} :=
  ⟨⟨rfl, rfl, Nat.zero_le _⟩, by simp [Outline.AtValue]⟩

theorem lexed_of_reaches {a b : FileDecl × ParserState}
    (hreads : Relation.ReflTransGen (Goes fileStep) a b) (ha : a.2.Lexed) : b.2.Lexed := by
  have hplace : b.2.Lexed ∧ ∃ o : Outline, o.Inside [] := by
    induction hreads with
    | refl => exact ⟨ha, {}, inside_start⟩
    | tail _ hround ih =>
      obtain ⟨hlexed, o, ho⟩ := ih
      obtain ⟨hlexed', taken, -, ho'⟩ := (walks_fileStep ho _ _ hlexed).1 _ _ hround
      exact ⟨hlexed', _, ho'⟩
  exact hplace.1

/-- The last round of the statements has found the end of the text. -/
theorem ahead_of_fileStep {file decl : FileDecl} {s s' : ParserState} (hs : s.Lexed)
    (h : (fileStep file).run s = .ok (.inr decl, s')) : s'.ahead = [] := by
  rw [fileStep, StateT.run_bind] at h
  obtain ⟨⟨t, s₁⟩, hnext, h⟩ := bind_eq_ok.mp h
  dsimp only at h
  split at h
  · rename_i htoken
    cases h
    obtain ⟨ahead, ending, seen, line, dialect⟩ := s
    cases ahead with
    | cons first more =>
      cases hnext
      exact absurd htoken (hs.ahead _ List.mem_cons_self)
    | nil =>
      cases ending with
      | error e => cases hnext
      | ok last =>
        cases hnext
        rfl
  · cases h
  · obtain ⟨_, _, h⟩ := bind_eq_ok.mp h
    cases h
  · cases h

/-- All tokens have been taken when a file has been read. -/
theorem ahead_of_file {s s' : ParserState} (hs : s.Lexed) {decl : FileDecl}
    (h : file.run s = .ok (decl, s')) : s'.ahead = [] := by
  rw [file, StateT.run_bind] at h
  obtain ⟨⟨all, s₁⟩, hstatements, h⟩ := bind_eq_ok.mp h
  cases h
  obtain ⟨y, hreads, hlast⟩ := exists_of_iterate hstatements
  exact ahead_of_fileStep (lexed_of_reaches hreads hs) hlast

end Parser

/-! ### Failures of the scanner -/

theorem isNesting_of_isLexical {fault : SyntaxFault} (h : fault.isLexical) :
    fault.isNesting = false := by
  cases fault <;> first | rfl | cases h

/-- The scanner does not look at nesting. -/
theorem not_tooDeep_next {s s' : Scanner} {e : ParseError} (h : s.next = (.error e, s')) :
    ¬e.TooDeep := by
  rintro ⟨line, rfl⟩
  cases isNesting_of_isLexical (Scanner.isLexical_of_next h)

theorem lexed_of_cuts {s : Scanner} {ahead : List Located} {ending : Except ParseError Located}
    (h : s.Cuts ahead ending) : ParserState.Lexed { ahead, ending } := by
  induction h with
  | failure h =>
    exact ⟨by simp, fun t ht => (by cases ht), fun e he => by cases he; exact not_tooDeep_next h⟩
  | ending h => exact ⟨by simp, fun t ht => (by cases ht; rfl), fun e he => by cases he⟩
  | token h ht hmore ih => exact ⟨List.forall_mem_cons.mpr ⟨ht, ih.ahead⟩, ih.ends, ih.failure⟩

theorem lexed_ofString (source : String) : (ParserState.ofString source).Lexed :=
  lexed_of_cuts (Scanner.cuts_tokens _)

/-- A text that is read does not nest too deep. -/
theorem nesting_le_of_parse {source : String} {file : FileDecl} (h : parse source = .ok file) :
    nesting source ≤ maxNesting := by
  obtain ⟨s, hrun⟩ := parse_eq_ok.mp h
  obtain ⟨-, taken, htaken, hinside⟩ :=
    (Parser.walks_file Parser.inside_start _ (lexed_ofString source)).1 file s hrun
  rw [Parser.ahead_of_file (lexed_ofString source) hrun, List.append_nil] at htaken
  rw [nesting, show (Scanner.ofString source).tokens.1 = taken from htaken]
  exact hinside.shallow

/-- A text is refused for its nesting only if it nests too deep. -/
theorem lt_nesting_of_parse {source : String} {e : ParseError} (h : parse source = .error e)
    (hdeep : e.TooDeep) : maxNesting < nesting source := by
  rw [parse_eq] at h
  cases hrun : Parser.file.run (.ofString source) with
  | ok r =>
    rw [hrun] at h
    cases h
  | error e' =>
    rw [hrun] at h
    cases h
    exact (Parser.walks_file Parser.inside_start _ (lexed_ofString source)).2 _ hrun hdeep

/-- Scanning comes to an end, as each token takes characters; each loop does, as each round that goes on
takes tokens; and no bound on either makes a difference. So reading gives a file or an error. Messages,
groups and aggregates nest at most a hundred deep in a text that is read, and in what is read from it,
and a text is refused for its nesting only if they nest deeper. -/
theorem parse_terminates (source : String) :
    (∀ (s s' : Scanner) (t : Located), s.next = (.ok t, s') → t.token ≠ .eof →
      s'.rest.length < s.rest.length) ∧
    (Scanner.ofString source).Cuts (Scanner.ofString source).tokens.1
      (Scanner.ofString source).tokens.2 ∧
    (∀ {σ α : Type} {step : σ → Parser (σ ⊕ α)}, Parser.IsLoop step →
      (∀ (x y : σ) (s s' : ParserState), s.Ends → (step x).run s = .ok (.inl y, s') →
        s'.ahead.length < s.ahead.length) ∧
      ∀ (x : σ) (s : ParserState), s.Ends →
        Parser.Rounds step x s ((Parser.iterate step x).run s)) ∧
    maxNesting = 100 ∧
    ((∃ file, parse source = .ok file ∧ nesting source ≤ maxNesting ∧ file.Fits maxNesting) ∨
      ∃ e, parse source = .error e ∧ (e.TooDeep → maxNesting < nesting source)) := by
  refine ⟨fun s s' t => Scanner.length_next, Scanner.cuts_tokens _, fun hloop => ⟨?_, ?_⟩, rfl, ?_⟩
  · exact fun x y s s' hs hstep => hloop.goes (a := (x, s)) (b := (y, s')) hstep hs
  · exact fun x s hs => hloop.rounds x hs
  · cases hparse : parse source with
    | ok file => exact .inl ⟨file, rfl, nesting_le_of_parse hparse, fits_of_parse hparse⟩
    | error e => exact .inr ⟨e, rfl, lt_nesting_of_parse hparse⟩

end Protobuf.Schema

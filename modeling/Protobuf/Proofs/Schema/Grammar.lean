import Mathlib.Logic.Relation
import Protobuf.Proofs.Action
import Protobuf.Schema.Parser.File

/-!
# What the grammar keeps

The grammar takes tokens and looks at them. What holds of the state of a parser is kept by all of it if
taking a token keeps it, and looking at one. Then it remains to say what a part of the grammar gives,
which depends on what is kept.

A token is given back where a field has no label, and is read again at once. So giving it back comes to
nothing. The dialect is set in one place, which is left out here.

## Main definitions

* `Parser.Lasting` — what is kept when tokens are taken and looked at.
* `Parser.Gives` — what an action gives as long as something is kept.
* `Parser.Tidy` — the action keeps it.
* `Parser.Goes` — a round of a loop that is not the last one.

Both come with the laws of the monad, and with one of loops.
-/

namespace Protobuf.Schema

/-- The state of a parser at the beginning of a text. -/
def ParserState.ofString (source : String) : ParserState :=
  { ahead := (Scanner.ofString source).tokens.1, ending := (Scanner.ofString source).tokens.2 }

theorem parse_eq (source : String) :
    parse source = (Parser.file.run (.ofString source)).map Prod.fst :=
  rfl

theorem parse_eq_ok {source : String} {file : FileDecl} :
    parse source = .ok file ↔ ∃ s, Parser.file.run (.ofString source) = .ok (file, s) := by
  rw [parse_eq, map_eq_ok]
  exact ⟨fun ⟨⟨_, s⟩, hrun, h⟩ => ⟨s, h ▸ hrun⟩, fun ⟨s, hrun⟩ => ⟨_, hrun, rfl⟩⟩

namespace Parser

variable {α β : Type} {I : ParserState → Prop}

/-- As long as `I` holds, the action gives what has the property `Q`, if anything, and `I` holds
afterwards. -/
def Gives (I : ParserState → Prop) (p : Parser α) (Q : α → Prop) : Prop :=
  ∀ s, I s → ∀ a s', p.run s = .ok (a, s') → Q a ∧ I s'

/-- The action keeps `I`. -/
class Tidy (I : ParserState → Prop) (p : Parser α) : Prop where
  gives : Gives I p fun _ => True

/-- The last token that has been taken stood on line `line`. -/
def setLine (line : Nat) : Parser PUnit :=
  modify fun s => { s with line }

/-- `I` is kept when tokens are taken and looked at. -/
class Lasting (I : ParserState → Prop) : Prop where
  next : Tidy I next
  peek : Tidy I peek
  setLine : ∀ line, Tidy I (setLine line)

/-- What does not depend on the tokens that are left is kept. -/
theorem Lasting.of_fixed (h : ∀ s ahead seen line, I s → I { s with ahead, seen, line }) :
    Lasting I := by
  have hstep : ∀ p : Parser Located, (∀ s t s', p.run s = .ok (t, s') →
      ∃ ahead seen line, s' = { s with ahead, seen, line }) → Tidy I p := by
    refine fun p hp => ⟨fun s hs t s' hrun => ⟨trivial, ?_⟩⟩
    obtain ⟨ahead, seen, line, rfl⟩ := hp s t s' hrun
    exact h s _ _ _ hs
  refine ⟨hstep _ ?_, hstep _ ?_, fun line => ⟨fun s hs a s' hrun => ?_⟩⟩
  case refine_3 =>
    cases hrun
    exact ⟨trivial, h s _ _ _ hs⟩
  all_goals
    rintro ⟨ahead, ending, seen, line, dialect⟩ t s' hrun
    cases ahead with
    | cons first more =>
      cases hrun
      exact ⟨_, _, _, rfl⟩
    | nil =>
      cases ending with
      | error e => cases hrun
      | ok last =>
        cases hrun
        exact ⟨_, _, _, rfl⟩

instance : Lasting fun _ => True :=
  .of_fixed fun _ _ _ _ h => h

namespace Gives

variable {p : Parser α} {f : α → Parser β} {P Q : α → Prop} {R : β → Prop}

theorem pure {a : α} (h : Q a) : Gives I (Pure.pure a) Q := by
  intro s hs b s' hrun
  cases hrun
  exact ⟨h, hs⟩

theorem throw (e : ParseError) : Gives I (MonadExcept.throw e : Parser α) Q := by
  intro s _ a s' hrun
  cases hrun

theorem mono (hp : Gives I p P) (h : ∀ a, P a → Q a) : Gives I p Q :=
  fun s hs a s' hrun => (hp s hs a s' hrun).imp_left (h a)

/-- What is known in two ways is known together. -/
theorem and {J : ParserState → Prop} (hp : Gives I p P) (hp' : Gives J p Q) :
    Gives (fun s => I s ∧ J s) p fun a => P a ∧ Q a := by
  intro s hs a s' hrun
  obtain ⟨ha, hs'⟩ := hp s hs.1 a s' hrun
  obtain ⟨ha', hs''⟩ := hp' s hs.2 a s' hrun
  exact ⟨⟨ha, ha'⟩, hs', hs''⟩

theorem tidy (hp : Gives I p P) : Tidy I p :=
  ⟨hp.mono fun _ _ => trivial⟩

theorem bind (hp : Gives I p P) (hf : ∀ a, P a → Gives I (f a) R) : Gives I (p >>= f) R := by
  intro s hs b s'' hrun
  rw [StateT.run_bind] at hrun
  obtain ⟨⟨a, s'⟩, hfirst, hrun⟩ := bind_eq_ok.mp hrun
  obtain ⟨ha, hs'⟩ := hp s hs a s' hfirst
  exact hf a ha s' hs' b s'' hrun

/-- The result of the first action does not matter. -/
theorem andThen [hp : Tidy I p] (hf : ∀ a, Gives I (f a) R) : Gives I (p >>= f) R :=
  hp.gives.bind fun a _ => hf a

/-- What is done under a condition only does not matter. -/
theorem onlyIf {c : Prop} [Decidable c] {q : Parser PUnit} [Tidy I q] {rest : PUnit → Parser β}
    (h : ∀ r, Gives I (rest r) R) : Gives I (if c then q >>= rest else rest ⟨⟩) R := by
  split
  · exact andThen h
  · exact h _

/-- What is done unless a condition holds does not matter. -/
theorem onlyIfNot {c : Prop} [Decidable c] {q : Parser PUnit} [Tidy I q] {rest : PUnit → Parser β}
    (h : ∀ r, Gives I (rest r) R) : Gives I (if c then rest ⟨⟩ else q >>= rest) R := by
  split
  · exact h _
  · exact andThen h

/-- What comes after a check is done only if the check has not failed. -/
theorem check {c : Prop} [Decidable c] {line : Nat} {fault : SyntaxFault} {rest : PUnit → Parser β}
    (h : ¬c → Gives I (rest ⟨⟩) R) : Gives I (if c then fail line fault >>= rest else rest ⟨⟩) R := by
  split
  · exact (Gives.throw (Q := fun _ => False) _).bind fun _ hfalse => hfalse.elim
  · exact h ‹_›

theorem map {g : α → β} (hp : Gives I p fun a => R (g a)) : Gives I (g <$> p) R := by
  rw [map_eq_pure_bind]
  exact hp.bind fun a ha => Gives.pure ha

/-- Of two actions it is known which one is done. -/
theorem ite {c : Prop} [Decidable c] {q : Parser α} (hp : c → Gives I p Q) (hq : ¬c → Gives I q Q) :
    Gives I (if c then p else q) Q := by
  split
  · exact hp ‹_›
  · exact hq ‹_›

end Gives

/-! ### Tidiness -/

section Tidy

variable {p : Parser α} {f : α → Parser β}

instance (a : α) : Tidy I (pure a : Parser α) :=
  ⟨Gives.pure trivial⟩

instance (e : ParseError) : Tidy I (throw e : Parser α) :=
  ⟨Gives.throw e⟩

instance (line : Nat) (fault : SyntaxFault) : Tidy I (fail line fault : Parser α) :=
  ⟨Gives.throw _⟩

instance [hp : Tidy I p] [hf : ∀ a, Tidy I (f a)] : Tidy I (p >>= f) :=
  ⟨Gives.andThen fun a => (hf a).gives⟩

instance (g : α → β) [hp : Tidy I p] : Tidy I (g <$> p) :=
  ⟨Gives.map hp.gives⟩

instance {c : Prop} [Decidable c] {q : Parser α} [hp : Tidy I p] [hq : Tidy I q] :
    Tidy I (if c then p else q) := by
  split
  · exact hp
  · exact hq

instance : Tidy I (get : Parser ParserState) :=
  ⟨fun s hs a s' hrun => by cases hrun; exact ⟨trivial, hs⟩⟩

instance : Tidy I dialect :=
  ⟨fun s hs a s' hrun => by cases hrun; exact ⟨trivial, hs⟩⟩

/-- What follows is looked at case by case. -/
theorem tidy_bind [hp : Tidy I p] (h : ∀ a, Tidy I (f a)) : Tidy I (p >>= f) :=
  inferInstance

instance : Tidy I currentLine := by
  unfold currentLine
  refine tidy_bind fun s => ?_
  split
  · infer_instance
  · split <;> infer_instance

theorem gives_iterate {σ : Type} {step : σ → Parser (σ ⊕ α)} {J : σ → Prop} {Q : α → Prop}
    (hstep : ∀ s, J s → Gives I (step s) (Sum.elim J Q)) {s : σ} (hs : J s) :
    Gives I (iterate step s) Q := by
  have hover : ∀ (tokens : List Located) (s : σ), J s → Gives I (iterateOver step tokens s) Q := by
    intro tokens
    induction tokens with
    | nil =>
      intro s hs
      rw [iterateOver]
      refine (hstep s hs).bind fun r hr => ?_
      cases r with
      | inl s' => exact Gives.andThen fun line => Gives.throw _
      | inr a => exact Gives.pure hr
    | cons t more ih =>
      intro s hs
      rw [iterateOver]
      refine (hstep s hs).bind fun r hr => ?_
      cases r with
      | inl s' => exact ih s' hr
      | inr a => exact Gives.pure hr
  exact Gives.andThen fun state => hover state.ahead s hs

theorem tidy_iterate {σ : Type} {step : σ → Parser (σ ⊕ α)} (hstep : ∀ s, Tidy I (step s)) (s : σ) :
    Tidy I (iterate step s) := by
  refine (gives_iterate (J := fun _ => True) (Q := fun _ => True) (fun s _ => ?_) trivial).tidy
  exact (hstep s).gives.mono fun r _ => by cases r <;> trivial

/-- One round of a loop, if it goes on. -/
def Goes {σ : Type} (step : σ → Parser (σ ⊕ α)) (a b : σ × ParserState) : Prop :=
  (step a.1).run a.2 = .ok (.inl b.1, b.2)

/-- A round goes on in one way. -/
theorem goes_unique {σ : Type} {step : σ → Parser (σ ⊕ α)} {a b c : σ × ParserState}
    (h : Goes step a b) (h' : Goes step a c) : b = c := by
  obtain ⟨hfirst, hsecond⟩ := Prod.mk.inj (Except.ok.inj (h.symm.trans h'))
  exact Prod.ext (Sum.inl.inj hfirst) hsecond

/-- A loop gives what its last round gives. -/
theorem exists_of_iterate {σ : Type} {step : σ → Parser (σ ⊕ α)} {x : σ} {s s' : ParserState} {a : α}
    (h : (iterate step x).run s = .ok (a, s')) :
    ∃ y, Relation.ReflTransGen (Goes step) (x, s) y ∧ (step y.1).run y.2 = .ok (.inr a, s') := by
  have hover : ∀ (tokens : List Located) (x : σ) (s : ParserState),
      (iterateOver step tokens x).run s = .ok (a, s') →
      ∃ y, Relation.ReflTransGen (Goes step) (x, s) y ∧ (step y.1).run y.2 = .ok (.inr a, s') := by
    intro tokens
    induction tokens with
    | nil =>
      intro x s h
      rw [iterateOver, StateT.run_bind] at h
      obtain ⟨⟨r, s₁⟩, hstep, h⟩ := bind_eq_ok.mp h
      cases r with
      | inl y =>
        -- no further round is allowed, so this one cannot go on
        rw [StateT.run_bind] at h
        obtain ⟨_, _, h⟩ := bind_eq_ok.mp h
        cases h
      | inr b =>
        cases h
        exact ⟨(x, s), .refl, hstep⟩
    | cons t more ih =>
      intro x s h
      rw [iterateOver, StateT.run_bind] at h
      obtain ⟨⟨r, s₁⟩, hstep, h⟩ := bind_eq_ok.mp h
      cases r with
      | inl y =>
        obtain ⟨z, hreach, hlast⟩ := ih y s₁ h
        have hround : Goes step (x, s) (y, s₁) := hstep
        exact ⟨z, hreach.head hround, hlast⟩
      | inr b =>
        cases h
        exact ⟨(x, s), .refl, hstep⟩
  exact hover s.ahead x s h

/-- What is known of the tokens that are taken is known of the first token of a member. -/
theorem gives_bodyStep {σ : Type} {place : Place} {member : σ → String → Located → Parser σ}
    {T : Located → Prop} {J : σ → Prop} (hnext : Gives I next T)
    (hmember : ∀ s word t, t.token = .ident word → T t → J s → Gives I (member s word t) J)
    {s : σ} (hs : J s) : Gives I (bodyStep place member s) (Sum.elim J J) := by
  refine hnext.bind fun t ht => ?_
  split
  · exact Gives.pure hs
  · exact Gives.pure hs
  · rename_i word hword
    exact (hmember s word t hword ht hs).bind fun s' hs' => Gives.pure hs'
  · exact Gives.throw _

end Tidy

/-! ### Tokens of one kind -/

section Lasting

variable [Lasting I]

instance : Tidy I next :=
  Lasting.next

instance : Tidy I peek :=
  Lasting.peek

instance (line : Nat) : Tidy I (setLine line) :=
  Lasting.setLine line

instance (c : Char) : Tidy I (expectSymbol c) := by
  unfold expectSymbol
  infer_instance

instance (keyword : String) : Tidy I (expectKeyword keyword) := by
  unfold expectKeyword
  infer_instance

instance : Tidy I path :=
  tidy_bind fun t => by split <;> infer_instance

instance : Tidy I name := by
  unfold name
  infer_instance

instance : Tidy I stringLiteral :=
  tidy_bind fun t => by split <;> infer_instance

instance : Tidy I fieldId :=
  tidy_bind fun t => by split <;> infer_instance

instance : Tidy I enumNumber := by
  unfold enumNumber
  refine tidy_bind fun first => ?_
  dsimp only
  split <;> exact tidy_bind fun t => by split <;> infer_instance

instance (c : Char) : Tidy I (acceptSymbol c) := by
  unfold acceptSymbol
  infer_instance

instance (keyword : String) : Tidy I (acceptKeyword keyword) := by
  unfold acceptKeyword
  infer_instance

instance (u : Unit) : Tidy I (skipStep u) :=
  tidy_bind fun t => by split <;> infer_instance

instance : Tidy I skipStatement :=
  tidy_iterate inferInstance ()

theorem tidy_body {σ : Type} {place : Place} {member : σ → String → Located → Parser σ}
    (hmember : ∀ s word t, t.token = .ident word → Tidy I (member s word t)) (s : σ) :
    Tidy I (body place member s) :=
  tidy_iterate (fun _ => (gives_bodyStep (T := fun _ => True) (J := fun _ => True) Tidy.gives
    (fun s word t hword _ _ => (hmember s word t hword).gives) trivial).tidy) s

/-! ### Options -/

instance (text : String) : Tidy I (optionNameStep text) :=
  tidy_bind fun t => by split <;> infer_instance

instance : Tidy I optionName := by
  have hmore : ∀ first, Tidy I (iterate optionNameStep first) := tidy_iterate inferInstance
  unfold optionName
  refine tidy_bind fun t => ?_
  split <;> infer_instance

instance (magnitude : Nat) (negative : Bool) (line : Nat) :
    Tidy I (integerConstant magnitude negative line) := by
  unfold integerConstant
  infer_instance

instance (text : String) : Tidy I (literalStep text) :=
  tidy_bind fun t => by split <;> infer_instance

instance (aggregate : Parser Constant) [Tidy I aggregate] : Tidy I (constantWith aggregate) := by
  have hmore : ∀ text, Tidy I (iterate literalStep text) := tidy_iterate inferInstance
  unfold constantWith
  refine tidy_bind fun t => ?_
  split
  case h_10 =>
    split
    · exact tidy_bind fun n => by split <;> infer_instance
    · infer_instance
  all_goals infer_instance

instance (constant : Parser Constant) [Tidy I constant] (key : String)
    (fields : List (String × Constant)) : Tidy I (listStep constant key fields) := by
  unfold listStep
  infer_instance

instance (constant : Parser Constant) [Tidy I constant] (key : String)
    (fields : List (String × Constant)) : Tidy I (aggregateList constant key fields) :=
  tidy_iterate inferInstance fields

instance (aggregate : Parser Constant) [Tidy I aggregate] (fields : List (String × Constant)) :
    Tidy I (aggregateStep aggregate fields) := by
  unfold aggregateStep
  refine tidy_bind fun t => ?_
  extract_lets rest
  have hrest : ∀ key?, Tidy I (rest key?) := by
    intro key?
    simp only [rest]
    split
    · exact tidy_bind fun colon => tidy_bind fun brace => inferInstance
    · infer_instance
  split <;> infer_instance

instance (aggregate : Parser Constant) [Tidy I aggregate] : Tidy I (aggregateFields aggregate) :=
  tidy_iterate inferInstance []

instance (levels : Nat) : Tidy I (aggregate levels) := by
  induction levels with
  | zero =>
    rw [aggregate]
    infer_instance
  | succ levels ih =>
    rw [aggregate]
    infer_instance

instance (levels : Nat) : Tidy I (constant levels) := by
  unfold constant
  infer_instance

instance (levels : Nat) : Tidy I (optionSetting levels) := by
  unfold optionSetting
  infer_instance

instance (levels : Nat) (options : Options) : Tidy I (optionStatement levels options) := by
  unfold optionStatement
  infer_instance

instance (levels : Nat) (options : Options) : Tidy I (settingStep levels options) :=
  tidy_bind fun setting => tidy_bind fun t => by split <;> infer_instance

instance (levels : Nat) : Tidy I (fieldOptions levels) := by
  unfold fieldOptions
  refine tidy_bind fun more => ?_
  split
  · infer_instance
  · exact tidy_iterate inferInstance _

/-! ### Members and statements -/

instance (found : List (UInt32 × UInt32)) : Tidy I (rangeStep found) := by
  unfold rangeStep
  infer_instance

instance (levels : Nat) : Tidy I (ranges levels) := by
  have hranges : Tidy I (iterate rangeStep []) := tidy_iterate inferInstance []
  unfold ranges
  infer_instance

instance (names : List Reserved) : Tidy I (reservedNameStep names) := by
  unfold reservedNameStep
  infer_instance

instance (levels : Nat) : Tidy I (reserved levels) := by
  have hnames : Tidy I (iterate reservedNameStep []) := tidy_iterate inferInstance []
  unfold reserved
  refine tidy_bind fun t => ?_
  split <;> infer_instance

instance (label : Option Rule) (oneof : Option String) (line : Nat) :
    Tidy I (fieldRule label oneof line) :=
  tidy_bind fun d => by split <;> infer_instance

instance (levels line : Nat) : Tidy I (mapField levels line) := by
  unfold mapField
  exact tidy_bind fun _ => tidy_bind fun _ => tidy_bind fun _ => tidy_bind fun _ => inferInstance

instance (levels : Nat) (e : EnumDecl) (word : String) (t : Located) :
    Tidy I (enumMember levels e word t) := by
  unfold enumMember
  infer_instance

instance (levels line : Nat) : Tidy I (enumeration levels line) := by
  have hbody : ∀ place e, Tidy I (body place (enumMember levels) e) := fun place e =>
    tidy_body (fun _ _ _ _ => inferInstance) e
  unfold enumeration
  infer_instance

instance (file : FileDecl) (line : Nat) : Tidy I (packageStatement file line) := by
  unfold packageStatement
  infer_instance

instance : Tidy I importStatement :=
  tidy_bind fun t => by split <;> infer_instance

instance : Tidy I methodType := by
  unfold methodType
  refine tidy_bind fun first => ?_
  extract_lets rest
  split
  · exact tidy_bind fun t => by split <;> infer_instance
  · infer_instance

instance (levels : Nat) (method : String) (options : Options) (word : String) (t : Located) :
    Tidy I (methodMember levels method options word t) := by
  unfold methodMember
  infer_instance

instance (levels : Nat) (method : String) : Tidy I (methodBody levels method) := by
  unfold methodBody
  refine tidy_bind fun t => ?_
  split
  · infer_instance
  · exact tidy_body (fun _ _ _ _ => inferInstance) _
  · infer_instance

instance (levels : Nat) : Tidy I (method levels) := by
  unfold method
  exact tidy_bind fun _ => tidy_bind fun _ => tidy_bind fun _ => tidy_bind fun _ => tidy_bind fun _ =>
    inferInstance

instance (levels : Nat) (name : String) (s : ServiceDecl) (word : String) (t : Located) :
    Tidy I (serviceMember levels name s word t) := by
  unfold serviceMember
  infer_instance

instance (levels line : Nat) : Tidy I (service levels line) := by
  have hbody : ∀ place name s, Tidy I (body place (serviceMember levels name) s) :=
    fun place name s => tidy_body (fun _ _ _ _ => inferInstance) s
  unfold service
  infer_instance

/-! ### Fields and messages -/

/-- A word that is given back is read again as the type of the field. -/
theorem pushBack_field {t : Located} {word : String} (ht : t.token = .ident word) (levels : Nat)
    (body : BodyReader) (label : Option Rule) (oneof : Option String) (line : Nat) :
    (do pushBack t; field levels body label oneof line) = (do
      setLine t.line
      let rule ← fieldRule label oneof line
      typedField levels body rule word oneof line) := by
  obtain ⟨token, _⟩ := t
  cases ht
  funext s
  obtain ⟨ahead, ending, seen, line, dialect⟩ := s
  cases label with
  | none => cases oneof <;> cases dialect <;> rfl
  | some rule => cases rule <;> cases oneof <;> cases dialect <;> rfl

section Body

variable {levels : Nat} {body : BodyReader} [hbody : ∀ m, Tidy I (body m)]

instance (rule : Rule) (oneof : Option String) (line : Nat) :
    Tidy I (group levels body rule oneof line) := by
  unfold group
  refine tidy_bind fun d => ?_
  extract_lets rest
  refine ⟨Gives.check fun _ => Gives.andThen fun name => ?_⟩
  extract_lets rest'
  refine Gives.onlyIfNot fun _ => Gives.andThen fun _ => Gives.andThen fun id =>
    Gives.andThen fun options => ?_
  exact Gives.andThen fun message => Gives.pure trivial

instance (rule : Rule) (typeName : String) (oneof : Option String) (line : Nat) :
    Tidy I (typedField levels body rule typeName oneof line) := by
  unfold typedField
  infer_instance

instance (label : Option Rule) (oneof : Option String) (line : Nat) :
    Tidy I (field levels body label oneof line) := by
  unfold field
  infer_instance

variable (levels body) in
theorem tidy_labelledField {word : String} {t : Located} (ht : t.token = .ident word) :
    Tidy I (labelledField levels body word t) := by
  unfold labelledField
  split
  · infer_instance
  · rw [pushBack_field ht]
    infer_instance

theorem tidy_oneofMember (name : String) (s : MessageDecl × Options) {word : String} {t : Located}
    (ht : t.token = .ident word) : Tidy I (oneofMember levels body name s word t) := by
  unfold oneofMember
  split
  · infer_instance
  · split
    · infer_instance
    · rw [← bind_assoc, pushBack_field ht]
      infer_instance

instance (m : MessageDecl) : Tidy I (oneof levels body m) := by
  have hmembers : ∀ place name s, Tidy I (Parser.body place (oneofMember levels body name) s) :=
    fun place name => tidy_body fun s word t ht => tidy_oneofMember name s ht
  unfold oneof
  infer_instance

theorem tidy_extendMember (e : ExtendDecl) {word : String} {t : Located}
    (ht : t.token = .ident word) : Tidy I (extendMember levels body e word t) := by
  have := tidy_labelledField (I := I) levels body ht
  unfold extendMember
  infer_instance

instance (line : Nat) : Tidy I (extendBlock levels body line) := by
  have hmembers : ∀ place e, Tidy I (Parser.body place (extendMember levels body) e) :=
    fun place => tidy_body fun e word t ht => tidy_extendMember e ht
  unfold extendBlock
  infer_instance

instance (line : Nat) : Tidy I (message body line) := by
  unfold message
  infer_instance

theorem tidy_messageMember (m : MessageDecl) {word : String} {t : Located}
    (ht : t.token = .ident word) : Tidy I (messageMember levels body m word t) := by
  have := tidy_labelledField (I := I) levels body ht
  unfold messageMember
  split <;> infer_instance

end Body

instance (levels : Nat) (m : MessageDecl) : Tidy I (messageBody levels m) := by
  induction levels generalizing m with
  | zero =>
    rw [messageBody]
    infer_instance
  | succ levels ih =>
    have hmembers : ∀ place m,
        Tidy I (Parser.body place (messageMember levels (messageBody levels)) m) :=
      fun place => tidy_body fun m word t ht => tidy_messageMember m ht
    rw [messageBody]
    infer_instance

/-! ### Statements -/

/-- The dialect may be set if that keeps `I`. -/
theorem tidy_dialectStatement (h : ∀ s d, I s → I { s with dialect := d }) (line : Nat) :
    Tidy I (dialectStatement line) := by
  have hdialect : ∀ d, Tidy I (modify fun s => { s with dialect := d } : Parser PUnit) := fun d =>
    ⟨fun s hs a s' hrun => by cases hrun; exact ⟨trivial, h s d hs⟩⟩
  unfold dialectStatement
  refine tidy_bind fun _ => tidy_bind fun text => ?_
  split <;> infer_instance

/-- All other statements only take tokens and look at them. -/
theorem tidy_statement (file : FileDecl) {word : String} (t : Located)
    (hdialect : word = "syntax" → Tidy I (dialectStatement t.line)) :
    Tidy I (statement file word t) := by
  unfold statement
  extract_lets line
  split
  · have := hdialect rfl
    infer_instance
  all_goals infer_instance

end Lasting

/-- Two properties may be kept together. -/
instance {J : ParserState → Prop} [Lasting I] [Lasting J] : Lasting fun s => I s ∧ J s where
  next := (Lasting.next.gives.and Lasting.next.gives).tidy
  peek := (Lasting.peek.gives.and Lasting.peek.gives).tidy
  setLine line := ((Lasting.setLine line).gives.and (Lasting.setLine line).gives).tidy

end Parser

end Protobuf.Schema

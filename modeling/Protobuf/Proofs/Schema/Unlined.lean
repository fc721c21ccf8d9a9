import Protobuf.Proofs.Schema.Grammar

/-!
# Reading without lines

The lines of tokens go into what is read, and into errors, but nothing depends on them. So the grammar
commutes with leaving them out: from tokens without lines it reads what it reads from the tokens, without
lines.

## Main definitions

* `Lined.unlined` — data with the lines left out.
* `Plain` — the data has no lines.
* `Parser.Blind` — an action does on tokens without lines what another one does on tokens.

## Main results

* `Parser.blind_file` — what is read from tokens without lines is what is read from the tokens
-/

namespace Protobuf

/-! ### Data without lines -/

/-- Data that may tell of lines. -/
class Lined (α : Type) where
  /-- The data with all lines left out. -/
  unlined : α → α

export Lined (unlined)

/-- The data does not tell of lines. -/
class Plain (α : Type) [Lined α] : Prop where
  unlined_eq : ∀ a : α, unlined a = a

section Containers

variable {α β : Type}

instance (priority := low) : Lined α :=
  ⟨id⟩

instance (priority := low) : Plain α :=
  ⟨fun _ => rfl⟩

variable [Lined α] [Lined β]

instance : Lined (List α) :=
  ⟨List.map unlined⟩

instance : Lined (Option α) :=
  ⟨Option.map unlined⟩

instance : Lined (α × β) :=
  ⟨Prod.map unlined unlined⟩

instance : Lined (α ⊕ β) :=
  ⟨Sum.map unlined unlined⟩

instance : Lined (Except α β) :=
  ⟨fun r => (r.map unlined).mapError unlined⟩

theorem unlined_reverse (as : List α) : unlined as.reverse = (unlined as).reverse :=
  List.map_reverse

theorem unlined_append (as bs : List α) : unlined (as ++ bs) = unlined as ++ unlined bs :=
  List.map_append

theorem unlined_toList (a : Option α) : unlined a.toList = (unlined a).toList := by
  cases a <;> rfl

variable [Plain α] [Plain β]

theorem eq_of_unlined_eq {a b : α} (h : unlined a = unlined b) : a = b := by
  rwa [Plain.unlined_eq, Plain.unlined_eq] at h

instance : Plain (List α) :=
  ⟨fun as => List.map_id'' Plain.unlined_eq as⟩

instance : Plain (Option α) :=
  ⟨fun a => by cases a <;> simp [unlined, Plain.unlined_eq]⟩

instance : Plain (α × β) :=
  ⟨fun a => Prod.ext (Plain.unlined_eq a.1) (Plain.unlined_eq a.2)⟩

instance : Plain (α ⊕ β) :=
  ⟨fun a => by cases a <;> simp [unlined, Plain.unlined_eq]⟩

end Containers

/-- Of numbers only lines are read by themselves. -/
instance : Lined Nat :=
  ⟨fun _ => 0⟩

instance : Lined FieldDecl :=
  ⟨fun f => { f with line := 0 }⟩

instance : Lined EnumDecl :=
  ⟨fun e => { e with line := 0 }⟩

instance : Lined ServiceDecl :=
  ⟨fun s => { s with line := 0 }⟩

mutual

/-- A message without lines, with all that is declared in it. -/
def MessageDecl.withoutLines : MessageDecl → MessageDecl
  | ⟨name, isGroup, fields, oneofs, enums, messages, blocks, options, ranges, reserved, _⟩ =>
    { name, isGroup, fields := unlined fields, oneofs, enums := unlined enums,
      messages := MessageDecl.allWithoutLines messages, extendBlocks := ExtendDecl.allWithoutLines blocks,
      options, extensionRanges := ranges, reserved }

/-- Messages without lines. -/
def MessageDecl.allWithoutLines : List MessageDecl → List MessageDecl
  | [] => []
  | m :: more => m.withoutLines :: MessageDecl.allWithoutLines more

/-- An extension block without lines, with all that is declared in it. -/
def ExtendDecl.withoutLines : ExtendDeclOf MessageDecl → ExtendDeclOf MessageDecl
  | ⟨extendee, fields, messages, _⟩ =>
    { extendee, fields := unlined fields, messages := MessageDecl.allWithoutLines messages,
      line := 0 }

/-- Extension blocks without lines. -/
def ExtendDecl.allWithoutLines : List (ExtendDeclOf MessageDecl) → List (ExtendDeclOf MessageDecl)
  | [] => []
  | b :: more => ExtendDecl.withoutLines b :: ExtendDecl.allWithoutLines more

end

instance : Lined MessageDecl :=
  ⟨MessageDecl.withoutLines⟩

instance : Lined ExtendDecl :=
  ⟨ExtendDecl.withoutLines⟩

theorem MessageDecl.allWithoutLines_eq (ms : List MessageDecl) : MessageDecl.allWithoutLines ms = unlined ms := by
  induction ms with
  | nil => rfl
  | cons m more ih =>
    rw [MessageDecl.allWithoutLines, ih]
    rfl

theorem ExtendDecl.allWithoutLines_eq (bs : List ExtendDecl) : ExtendDecl.allWithoutLines bs = unlined bs := by
  induction bs with
  | nil => rfl
  | cons b more ih =>
    rw [ExtendDecl.allWithoutLines, ih]
    rfl

theorem MessageDecl.unlined_eq (m : MessageDecl) : unlined m =
    { m with
      fields := unlined m.fields
      enums := unlined m.enums
      messages := unlined m.messages
      extendBlocks := unlined m.extendBlocks
      line := 0 } := by
  cases m
  rw [← MessageDecl.allWithoutLines_eq, ← ExtendDecl.allWithoutLines_eq]
  rfl

theorem ExtendDecl.unlined_eq (b : ExtendDecl) : unlined b =
    { b with fields := unlined b.fields, messages := unlined b.messages, line := 0 } := by
  cases b
  rw [← MessageDecl.allWithoutLines_eq]
  rfl

instance : Lined FileDecl :=
  ⟨fun f => { f with
    messages := unlined f.messages
    enums := unlined f.enums
    services := unlined f.services
    extendBlocks := unlined f.extendBlocks }⟩

namespace Schema

instance : Lined Located :=
  ⟨fun t => { t with line := 0 }⟩

instance : Lined ParseError where
  unlined
    | .malformed _ fault => .malformed 0 fault
    | .unterminatedString _ => .unterminatedString 0
    | .illegalCharacter _ c => .illegalCharacter 0 c

instance : Lined ParserState :=
  ⟨fun s => { s with ahead := unlined s.ahead, ending := unlined s.ending, line := 0 }⟩

namespace Parser

variable {α β : Type}

/-! ### Actions that do not see lines -/

/-- The action `q` does on tokens without lines what the action `p` does on tokens. -/
class Blind [Lined α] (p q : Parser α) : Prop where
  run : ∀ s, q.run (unlined s) = unlined (p.run s)

section Blind

variable [Lined α] [Lined β] {p q : Parser α} {f g : α → Parser β}

theorem Blind.pure {a b : α} (h : unlined a = b) : Blind (Pure.pure a) (Pure.pure b) :=
  ⟨fun _ => h ▸ rfl⟩

instance [Plain α] (a : α) : Blind (Pure.pure a : Parser α) (Pure.pure a) :=
  .pure (Plain.unlined_eq a)

instance (line : Nat) (fault : SyntaxFault) :
    Blind (fail line fault : Parser α) (fail 0 fault) :=
  ⟨fun _ => rfl⟩

theorem Blind.bind (hp : Blind p q) (hf : ∀ a, Blind (f a) (g (unlined a))) :
    Blind (p >>= f) (q >>= g) := by
  refine ⟨fun s => ?_⟩
  rw [StateT.run_bind, StateT.run_bind, hp.run]
  cases p.run s with
  | error e => rfl
  | ok r => exact (hf r.1).run r.2

instance [hp : Blind p q] [hf : ∀ a, Blind (f a) (g (unlined a))] : Blind (p >>= f) (q >>= g) :=
  hp.bind hf

/-- What the first action gives has no lines, so the second one is done with it in both. -/
theorem Blind.andThen [Plain α] [hp : Blind p q] (hf : ∀ a, Blind (f a) (g a)) :
    Blind (p >>= f) (q >>= g) :=
  hp.bind fun a => by
    rw [Plain.unlined_eq a]
    exact hf a

instance [Plain α] [Blind p q] [hf : ∀ a, Blind (f a) (g a)] : Blind (p >>= f) (q >>= g) :=
  .andThen hf

instance [Blind p q] [Plain β] [Plain α] (h : α → β) : Blind (h <$> p) (h <$> q) := by
  rw [map_eq_pure_bind, map_eq_pure_bind]
  infer_instance

instance {c : Prop} [Decidable c] {p' q' : Parser α} [hp : Blind p q] [hq : Blind p' q'] :
    Blind (if c then p else p') (if c then q else q') := by
  split
  · exact hp
  · exact hq

/-- Something is done in both under the same condition. -/
theorem Blind.onlyIf {c : Prop} [Decidable c] {p q : Parser PUnit} [Blind p q]
    {rest rest' : PUnit → Parser β} (h : ∀ r, Blind (rest r) (rest' r)) :
    Blind (if c then p >>= rest else rest ⟨⟩) (if c then q >>= rest' else rest' ⟨⟩) := by
  split
  · exact .andThen h
  · exact h _

/-- Something is done in both unless the same condition holds. -/
theorem Blind.onlyIfNot {c : Prop} [Decidable c] {p q : Parser PUnit} [Blind p q]
    {rest rest' : PUnit → Parser β} (h : ∀ r, Blind (rest r) (rest' r)) :
    Blind (if c then rest ⟨⟩ else p >>= rest) (if c then rest' ⟨⟩ else q >>= rest') := by
  split
  · exact h _
  · exact .andThen h

/-! ### Tokens -/

instance : Blind next next where
  run s := by
    obtain ⟨ahead, ending, seen, line, dialect⟩ := s
    cases ahead with
    | cons t more => rfl
    | nil => cases ending <;> rfl

instance : Blind peek peek where
  run s := by
    obtain ⟨ahead, ending, seen, line, dialect⟩ := s
    cases ahead with
    | cons t more => rfl
    | nil => cases ending <;> rfl

instance : Blind currentLine currentLine where
  run s := by
    obtain ⟨ahead, ending, seen, line, dialect⟩ := s
    cases seen with
    | zero => rfl
    | succ seen =>
      cases ahead with
      | cons t more => rfl
      | nil => cases ending <;> rfl

instance : Blind dialect dialect where
  run _ := rfl

instance (token : Token) (line : Nat) : Blind (pushBack ⟨token, line⟩) (pushBack ⟨token, 0⟩) where
  run _ := rfl

/-- The lines of the tokens that are taken or looked at do not matter. -/
theorem Blind.token {p : Parser Located} [hp : Blind p p] {f g : Located → Parser β}
    (h : ∀ token line, Blind (f ⟨token, line⟩) (g ⟨token, 0⟩)) : Blind (p >>= f) (p >>= g) :=
  hp.bind fun t => h t.token t.line

/-- The line that a message would name does not matter. -/
theorem Blind.line {f g : Nat → Parser β} (h : ∀ line, Blind (f line) (g 0)) :
    Blind (currentLine >>= f) (currentLine >>= g) :=
  .bind inferInstance h

/-! ### Loops -/

section Iterate

variable {σ : Type} [Lined σ]

/-- A loop does not see lines if its steps do not. -/
theorem Blind.iterate {step step' : σ → Parser (σ ⊕ α)}
    (hstep : ∀ x, Blind (step x) (step' (unlined x))) (x : σ) :
    Blind (iterate step x) (iterate step' (unlined x)) := by
  have hover : ∀ (tokens : List Located) (x : σ),
      Blind (iterateOver step tokens x) (iterateOver step' (unlined tokens) (unlined x)) := by
    intro tokens
    induction tokens with
    | nil =>
      intro x
      refine (hstep x).bind fun r => ?_
      cases r with
      | inl y => exact .line fun line => inferInstance
      | inr a => exact .pure rfl
    | cons t more ih =>
      intro x
      refine (hstep x).bind fun r => ?_
      cases r with
      | inl y => exact ih y
      | inr a => exact .pure rfl
  exact ⟨fun s => (hover s.ahead x).run s⟩

instance [Plain σ] {step step' : σ → Parser (σ ⊕ α)} [hstep : ∀ x, Blind (step x) (step' x)] (x : σ) :
    Blind (iterate step x) (iterate step' x) := by
  have hsame : Blind (iterate step x) (iterate step' (unlined x)) := .iterate (fun x => by
    rw [Plain.unlined_eq x]
    exact hstep x) x
  rwa [Plain.unlined_eq x] at hsame

theorem Blind.body {place : Place} {member : σ → String → Located → Parser σ}
    (hmember : ∀ x word token line,
      Blind (member x word ⟨token, line⟩) (member (unlined x) word ⟨token, 0⟩)) (x : σ) :
    Blind (body place member x) (body place member (unlined x)) := by
  refine .iterate (fun x => .token fun token line => ?_) x
  dsimp only
  split
  · exact .pure rfl
  · exact .pure rfl
  · rename_i word
    exact (hmember x word (.ident word) line).bind fun y => .pure rfl
  · infer_instance

end Iterate

/-! ### Tokens of one kind -/

instance (c : Char) : Blind (expectSymbol c) (expectSymbol c) :=
  .token fun _ _ => inferInstance

instance (keyword : String) : Blind (expectKeyword keyword) (expectKeyword keyword) :=
  .token fun _ _ => inferInstance

instance : Blind path path :=
  .token fun token line => by dsimp only; split <;> infer_instance

instance : Blind name name :=
  .line fun _ => inferInstance

instance : Blind stringLiteral stringLiteral :=
  .token fun token line => by dsimp only; split <;> infer_instance

instance : Blind fieldId fieldId :=
  .token fun token line => by dsimp only; split <;> infer_instance

instance : Blind enumNumber enumNumber := by
  refine .token fun first line => ?_
  dsimp only
  split
  · exact .token fun token line => by dsimp only; split <;> infer_instance
  · rw [pure_bind, pure_bind]
    dsimp only
    split <;> infer_instance

instance (c : Char) : Blind (acceptSymbol c) (acceptSymbol c) :=
  .token fun _ _ => inferInstance

instance (keyword : String) : Blind (acceptKeyword keyword) (acceptKeyword keyword) :=
  .token fun _ _ => inferInstance

instance (u : Unit) : Blind (skipStep u) (skipStep u) :=
  .token fun token line => by dsimp only; split <;> infer_instance

instance : Blind skipStatement skipStatement :=
  inferInstanceAs (Blind (iterate skipStep ()) (iterate skipStep ()))

/-! ### Options -/

instance (text : String) : Blind (optionNameStep text) (optionNameStep text) :=
  .token fun token line => by dsimp only; split <;> infer_instance

instance : Blind optionName optionName := by
  refine .token fun token line => ?_
  dsimp only
  split <;> infer_instance

instance (magnitude : Nat) (negative : Bool) (line : Nat) :
    Blind (integerConstant magnitude negative line) (integerConstant magnitude negative 0) := by
  unfold integerConstant
  infer_instance

instance (text : String) : Blind (literalStep text) (literalStep text) :=
  .token fun token line => by dsimp only; split <;> infer_instance

instance (aggregate : Parser Constant) [Blind aggregate aggregate] :
    Blind (constantWith aggregate) (constantWith aggregate) := by
  refine .token fun token line => ?_
  dsimp only
  split
  case h_10 =>
    split
    · exact .token fun token line => by dsimp only; split <;> infer_instance
    · infer_instance
  all_goals infer_instance

instance (constant : Parser Constant) [Blind constant constant] (key : String)
    (fields : List (String × Constant)) :
    Blind (listStep constant key fields) (listStep constant key fields) := by
  unfold listStep
  infer_instance

instance (constant : Parser Constant) [Blind constant constant] (key : String)
    (fields : List (String × Constant)) :
    Blind (aggregateList constant key fields) (aggregateList constant key fields) := by
  unfold aggregateList
  infer_instance

instance (aggregate : Parser Constant) [Blind aggregate aggregate]
    (fields : List (String × Constant)) :
    Blind (aggregateStep aggregate fields) (aggregateStep aggregate fields) := by
  refine .token fun token line => ?_
  extract_lets rest rest'
  have hrest : ∀ key?, Blind (rest key?) (rest' key?) := by
    intro key?
    simp only [rest, rest']
    split
    · exact .andThen fun colon => .andThen fun brace => inferInstance
    · infer_instance
  dsimp only
  split <;> infer_instance

instance (aggregate : Parser Constant) [Blind aggregate aggregate] :
    Blind (aggregateFields aggregate) (aggregateFields aggregate) := by
  unfold aggregateFields
  infer_instance

instance (levels : Nat) : Blind (aggregate levels) (aggregate levels) := by
  induction levels with
  | zero => exact .line fun _ => inferInstance
  | succ levels ih =>
    rw [aggregate]
    infer_instance

instance (levels : Nat) : Blind (constant levels) (constant levels) := by
  unfold constant
  infer_instance

instance (levels : Nat) : Blind (optionSetting levels) (optionSetting levels) := by
  unfold optionSetting
  infer_instance

instance (levels : Nat) (options : Options) :
    Blind (optionStatement levels options) (optionStatement levels options) := by
  unfold optionStatement
  infer_instance

instance (levels : Nat) (options : Options) :
    Blind (settingStep levels options) (settingStep levels options) :=
  .andThen fun setting => .token fun token line => by dsimp only; split <;> infer_instance

instance (levels : Nat) : Blind (fieldOptions levels) (fieldOptions levels) := by
  unfold fieldOptions
  infer_instance

/-! ### Members and statements -/

instance (found : List (UInt32 × UInt32)) : Blind (rangeStep found) (rangeStep found) := by
  refine .andThen fun lo => .andThen fun more => ?_
  dsimp only
  split
  · exact .andThen fun max => by split <;> infer_instance
  · infer_instance

instance (levels : Nat) : Blind (ranges levels) (ranges levels) := by
  unfold ranges
  infer_instance

instance (names : List Reserved) : Blind (reservedNameStep names) (reservedNameStep names) := by
  unfold reservedNameStep
  infer_instance

instance (levels : Nat) : Blind (reserved levels) (reserved levels) := by
  refine .token fun token line => ?_
  dsimp only
  split <;> infer_instance

instance (label : Option Rule) (oneof : Option String) (line : Nat) :
    Blind (fieldRule label oneof line) (fieldRule label oneof 0) :=
  .andThen fun d => by split <;> infer_instance

instance (levels line : Nat) : Blind (mapField levels line) (mapField levels 0) := by
  unfold mapField
  exact .andThen fun _ => .andThen fun _ => .andThen fun _ => .andThen fun _ => .andThen fun _ =>
    .andThen fun _ => .andThen fun _ => .andThen fun _ => .andThen fun _ => .andThen fun _ => .pure rfl

theorem blind_enumMember (levels : Nat) (e : EnumDecl) (word : String) (token : Token) (line : Nat) :
    Blind (enumMember levels e word ⟨token, line⟩)
      (enumMember levels (unlined e) word ⟨token, 0⟩) := by
  unfold enumMember
  split
  · exact .andThen fun options => .pure rfl
  · split
    · exact .andThen fun _ => .pure rfl
    · split
      · infer_instance
      · exact .andThen fun _ => .andThen fun id => .andThen fun options => .andThen fun _ => .pure rfl

instance (levels line : Nat) : Blind (enumeration levels line) (enumeration levels 0) := by
  unfold enumeration
  refine .andThen fun name => .andThen fun _ => ?_
  exact (Blind.body (blind_enumMember levels) { name, values := [], options := {}, line }).bind
    fun e => .pure rfl

instance : Blind importStatement importStatement :=
  .token fun token line => by dsimp only; split <;> infer_instance

instance : Blind methodType methodType := by
  unfold methodType
  refine .andThen fun first => ?_
  dsimp only
  split
  · exact .token fun token line => by dsimp only; split <;> infer_instance
  · infer_instance

theorem blind_methodMember (levels : Nat) (method : String) (options : Options) (word : String)
    (token : Token) (line : Nat) :
    Blind (methodMember levels method options word ⟨token, line⟩)
      (methodMember levels method options word ⟨token, 0⟩) := by
  unfold methodMember
  infer_instance

instance (levels : Nat) (method : String) : Blind (methodBody levels method) (methodBody levels method) := by
  refine .token fun token line => ?_
  dsimp only
  split
  · infer_instance
  · exact .body (blind_methodMember levels method) {}
  · infer_instance

instance (levels : Nat) : Blind (method levels) (method levels) := by
  unfold method
  exact .andThen fun _ => .andThen fun _ => .andThen fun _ => .andThen fun _ => inferInstance

theorem blind_serviceMember (levels : Nat) (name : String) (s : ServiceDecl) (word : String)
    (token : Token) (line : Nat) :
    Blind (serviceMember levels name s word ⟨token, line⟩)
      (serviceMember levels name (unlined s) word ⟨token, 0⟩) := by
  unfold serviceMember
  split
  · exact .andThen fun options => .pure rfl
  · split
    · exact .andThen fun m => .pure rfl
    · infer_instance

instance (levels line : Nat) : Blind (service levels line) (service levels 0) := by
  unfold service
  refine .andThen fun name => .andThen fun _ => ?_
  exact (Blind.body (blind_serviceMember levels name) { name, methods := [], options := {}, line }).bind
    fun s => .pure rfl

/-! ### Fields and messages -/

/-- Reading the body of a message does not depend on lines. -/
class BlindBody (body : BodyReader) : Prop where
  blind : ∀ m, Blind (body m) (body (unlined m))

theorem unlined_addField (m : MessageDecl) (parsed : FieldDecl × Option MessageDecl) :
    unlined (addField m parsed) = addField (unlined m) (unlined parsed) := by
  rw [MessageDecl.unlined_eq, MessageDecl.unlined_eq, addField, addField]
  simp only [unlined_append, unlined_toList]
  rfl

theorem unlined_turnMessage (m : MessageDecl) : unlined (turnMessage m) = turnMessage (unlined m) := by
  rw [MessageDecl.unlined_eq, MessageDecl.unlined_eq, turnMessage, turnMessage]
  simp only [unlined_reverse]

section Body

variable {levels : Nat} {body : BodyReader} [hbody : BlindBody body]

instance (rule : Rule) (oneof : Option String) (line : Nat) :
    Blind (group levels body rule oneof line) (group levels body rule oneof 0) := by
  unfold group
  refine .andThen fun d => ?_
  extract_lets rest rest'
  refine .onlyIf fun _ => .andThen fun name => ?_
  extract_lets more more'
  refine .onlyIfNot fun _ => .andThen fun _ => .andThen fun id => .andThen fun options => ?_
  exact (hbody.blind { name, isGroup := true, line }).bind fun message => .pure rfl

instance (rule : Rule) (typeName : String) (oneof : Option String) (line : Nat) :
    Blind (typedField levels body rule typeName oneof line)
      (typedField levels body rule typeName oneof 0) := by
  unfold typedField
  split
  · exact .bind inferInstance fun parsed => .pure rfl
  · exact .andThen fun name => .andThen fun _ => .andThen fun id => .andThen fun options =>
      .andThen fun _ => .pure rfl

instance (label : Option Rule) (oneof : Option String) (line : Nat) :
    Blind (field levels body label oneof line) (field levels body label oneof 0) :=
  .andThen fun _ => .andThen fun _ => inferInstance

instance (word : String) (token : Token) (line : Nat) :
    Blind (labelledField levels body word ⟨token, line⟩)
      (labelledField levels body word ⟨token, 0⟩) := by
  unfold labelledField
  split
  · infer_instance
  · exact .andThen fun _ => inferInstance

theorem blind_oneofMember (name : String) (s : MessageDecl × Options) (word : String) (token : Token)
    (line : Nat) : Blind (oneofMember levels body name s word ⟨token, line⟩)
      (oneofMember levels body name (unlined s) word ⟨token, 0⟩) := by
  obtain ⟨m, options⟩ := s
  change Blind _ (oneofMember levels body name (unlined m, options) word ⟨token, 0⟩)
  unfold oneofMember
  split
  · exact .andThen fun options => .pure rfl
  · split
    · infer_instance
    · exact .andThen fun _ => .bind inferInstance fun parsed =>
        .pure (congrArg (·, options) (unlined_addField m parsed))

theorem blind_oneof (m : MessageDecl) : Blind (oneof levels body m) (oneof levels body (unlined m)) := by
  unfold oneof
  refine .andThen fun name => .andThen fun _ => ?_
  refine (Blind.body (blind_oneofMember name) (m, {})).bind fun s => .pure ?_
  change _ = { unlined s.1 with oneofs := { name, options := s.2 } :: (unlined s.1).oneofs }
  rw [MessageDecl.unlined_eq, MessageDecl.unlined_eq s.1]

theorem blind_extendMember (e : ExtendDecl) (word : String) (token : Token) (line : Nat) :
    Blind (extendMember levels body e word ⟨token, line⟩)
      (extendMember levels body (unlined e) word ⟨token, 0⟩) := by
  refine .bind inferInstance fun parsed => .pure ?_
  rw [ExtendDecl.unlined_eq, ExtendDecl.unlined_eq]
  simp only [unlined_append, unlined_toList]
  rfl

instance (line : Nat) : Blind (extendBlock levels body line) (extendBlock levels body 0) := by
  unfold extendBlock
  refine .andThen fun extendee => .andThen fun _ => ?_
  refine (Blind.body blind_extendMember { extendee, fields := [], messages := [], line }).bind
    fun e => .pure ?_
  rw [ExtendDecl.unlined_eq, ExtendDecl.unlined_eq]
  simp only [unlined_reverse]

instance (line : Nat) : Blind (message body line) (message body 0) :=
  .andThen fun name => hbody.blind { name, line }

theorem blind_messageMember (m : MessageDecl) (word : String) (token : Token) (line : Nat) :
    Blind (messageMember levels body m word ⟨token, line⟩)
      (messageMember levels body (unlined m) word ⟨token, 0⟩) := by
  unfold messageMember
  split
  · refine .bind inferInstance fun inside => .pure ?_
    rw [MessageDecl.unlined_eq, MessageDecl.unlined_eq m]
    rfl
  · refine .bind inferInstance fun e => .pure ?_
    rw [MessageDecl.unlined_eq, MessageDecl.unlined_eq m]
    rfl
  · exact blind_oneof m
  · refine .andThen fun found => .pure ?_
    rw [MessageDecl.unlined_eq, MessageDecl.unlined_eq m]
  · refine .andThen fun found => .pure ?_
    rw [MessageDecl.unlined_eq, MessageDecl.unlined_eq m]
  · rw [MessageDecl.unlined_eq m]
    refine .andThen fun options => .pure ?_
    rw [MessageDecl.unlined_eq]
  · refine .bind inferInstance fun b => .pure ?_
    rw [MessageDecl.unlined_eq, MessageDecl.unlined_eq m]
    rfl
  · refine .token fun next line => ?_
    dsimp only
    split
    · exact .bind inferInstance fun f => .pure (unlined_addField m (f, none))
    · exact .bind inferInstance fun parsed => .pure (unlined_addField m parsed)
  · exact .bind inferInstance fun parsed => .pure (unlined_addField m parsed)

end Body

instance (levels : Nat) : BlindBody (messageBody levels) := by
  induction levels with
  | zero => exact ⟨fun m => .andThen fun _ => .line fun line => inferInstance⟩
  | succ levels ih =>
    refine ⟨fun m => .andThen fun _ => ?_⟩
    have hname : (unlined m).name = m.name := by rw [MessageDecl.unlined_eq]
    rw [hname, map_eq_pure_bind, map_eq_pure_bind]
    exact (Blind.body blind_messageMember m).bind fun m => .pure (unlined_turnMessage m)

/-! ### Statements -/

instance (line : Nat) : Blind (dialectStatement line) (dialectStatement 0) := by
  have hdialect : ∀ d, Blind (modify fun s => { s with dialect := d } : Parser PUnit)
      (modify fun s => { s with dialect := d }) := fun d => ⟨fun _ => rfl⟩
  unfold dialectStatement
  refine .andThen fun _ => .andThen fun text => ?_
  dsimp only
  split <;> infer_instance

theorem blind_packageStatement (file : FileDecl) (line : Nat) :
    Blind (packageStatement file line) (packageStatement (unlined file) 0) := by
  unfold packageStatement
  extract_lets rest rest'
  refine .onlyIf fun _ => .andThen fun package => ?_
  extract_lets more more'
  exact .onlyIf fun _ => .andThen fun _ => .pure rfl

theorem blind_statement (file : FileDecl) (word : String) (token : Token) (line : Nat) :
    Blind (statement file word ⟨token, line⟩) (statement (unlined file) word ⟨token, 0⟩) := by
  unfold statement
  dsimp only
  split
  · exact .andThen fun _ => .pure rfl
  · exact blind_packageStatement file line
  · exact .andThen fun path => .pure rfl
  · exact .andThen fun options => .pure rfl
  · exact .bind inferInstance fun m => .pure rfl
  · exact .bind inferInstance fun e => .pure rfl
  · exact .bind inferInstance fun s => .pure rfl
  · exact .bind inferInstance fun b => .pure rfl
  · infer_instance

/-- What is read from tokens without lines is what is read from the tokens, without lines. -/
theorem blind_file : Blind file file := by
  have hstep : ∀ f, Blind (fileStep f) (fileStep (unlined f)) := by
    refine fun f => .token fun token line => ?_
    dsimp only
    split
    · exact .pure rfl
    · exact .pure rfl
    · exact (blind_statement f _ _ line).bind fun f => .pure rfl
    · infer_instance
  refine (Blind.iterate hstep {}).bind fun f => .andThen fun d => .pure ?_
  simp only [turnFile, unlined, List.map_reverse]

end Blind

end Parser

end Schema

end Protobuf

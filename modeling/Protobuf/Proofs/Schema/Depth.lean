import Mathlib
import Protobuf.Proofs.Keyed
import Protobuf.Proofs.Schema.Grammar

/-!
# The depth of declarations

Messages contain messages, and the values of options contain values. Both together are bounded: below a
message that lies so and so deep there is room for so many more levels, of messages and of values. What
is read from a text is never deeper than the grammar goes.

## Main definitions

* `Constant.Fits` — an aggregate with so many levels of aggregates at most.
* `MessageDecl.Fits`, `FileDecl.Fits` — declarations with so many levels at most.

## Main results

* `Schema.fits_of_parse` — what is read from a text fits into the bound of the grammar
-/

namespace Protobuf

/-! ### Declarations -/

/-- The constant has at most `n` levels of aggregates. -/
inductive Constant.Fits : Nat → Constant → Prop
  | plain {n : Nat} {c : Constant} (h : ∀ fields, c ≠ .aggregate fields) : Fits n c
  | aggregate {n : Nat} {fields : List (String × Constant)} (h : ∀ f ∈ fields, f.2.Fits n) :
      Fits (n + 1) (.aggregate fields)

/-- All values have at most `n` levels of aggregates. -/
def Options.Fits (n : Nat) (o : Options) : Prop :=
  ∀ entry ∈ o.entries, entry.2.Fits n

/-- All options in the enum have at most `n` levels. -/
structure EnumDecl.Fits (n : Nat) (e : EnumDecl) : Prop where
  options : e.options.Fits n
  values : ∀ v ∈ e.values, v.options.Fits n

/-- All options in the service have at most `n` levels. -/
structure ServiceDecl.Fits (n : Nat) (s : ServiceDecl) : Prop where
  options : s.options.Fits n
  methods : ∀ m ∈ s.methods, m.options.Fits n

/-- The message has at most `n` levels of messages and aggregates, its own body being one of them. -/
inductive MessageDecl.Fits : Nat → MessageDecl → Prop
  | intro {n : Nat} {m : MessageDecl} (options : m.options.Fits n)
      (fields : ∀ f ∈ m.fields, f.options.Fits n) (oneofs : ∀ o ∈ m.oneofs, o.options.Fits n)
      (enums : ∀ e ∈ m.enums, e.Fits n) (messages : ∀ inside ∈ m.messages, inside.Fits n)
      (extensions : ∀ b ∈ m.extendBlocks, ∀ f ∈ b.fields, f.options.Fits n)
      (bodies : ∀ b ∈ m.extendBlocks, ∀ inside ∈ b.messages, inside.Fits n) : Fits (n + 1) m

/-- What is declared in the extension block has at most `n` levels. -/
structure ExtendDecl.Fits (n : Nat) (b : ExtendDecl) : Prop where
  fields : ∀ f ∈ b.fields, f.options.Fits n
  messages : ∀ m ∈ b.messages, m.Fits n

/-- What is declared in the file has at most `n` levels. -/
structure FileDecl.Fits (n : Nat) (f : FileDecl) : Prop where
  options : f.options.Fits n
  messages : ∀ m ∈ f.messages, m.Fits n
  enums : ∀ e ∈ f.enums, e.Fits n
  services : ∀ s ∈ f.services, s.Fits n
  extendBlocks : ∀ b ∈ f.extendBlocks, ExtendDecl.Fits n b

/-- What is in a message that is being read has at most `n` levels. -/
structure MessageDecl.Holds (n : Nat) (m : MessageDecl) : Prop where
  options : m.options.Fits n
  fields : ∀ f ∈ m.fields, f.options.Fits n
  oneofs : ∀ o ∈ m.oneofs, o.options.Fits n
  enums : ∀ e ∈ m.enums, e.Fits n
  messages : ∀ inside ∈ m.messages, inside.Fits n
  extendBlocks : ∀ b ∈ m.extendBlocks, ExtendDecl.Fits n b

variable {n : Nat}

theorem Options.fits_empty : Options.Fits n {} :=
  fun _ hentry => by cases hentry

theorem Options.Fits.insert {o : Options} (h : o.Fits n) (name : String) {value : Constant}
    (hvalue : value.Fits n) : (o.insert name value).Fits n :=
  Keyed.forall_mem_insert hvalue h

theorem MessageDecl.Holds.fits {m : MessageDecl} (h : m.Holds n) :
    (Schema.Parser.turnMessage m).Fits (n + 1) :=
  .intro h.options (fun f hf => h.fields f (List.mem_reverse.mp hf))
    (fun o ho => h.oneofs o (List.mem_reverse.mp ho)) (fun e he => h.enums e (List.mem_reverse.mp he))
    (fun m hm => h.messages m (List.mem_reverse.mp hm))
    (fun b hb => (h.extendBlocks b (List.mem_reverse.mp hb)).fields)
    (fun b hb => (h.extendBlocks b (List.mem_reverse.mp hb)).messages)

theorem MessageDecl.holds_empty (name : String) (isGroup : Bool) (line : Nat) :
    MessageDecl.Holds n { name, isGroup, line } :=
  ⟨Options.fits_empty, by simp, by simp, by simp, by simp, by simp⟩

namespace Schema

namespace Parser

/-- Nothing has to be kept. -/
abbrev Any (_ : ParserState) : Prop :=
  True

/-! ### Options -/

section Constant

variable {aggregate : Parser Constant}

theorem fits_plain {c : Constant} (h : ∀ fields, c ≠ .aggregate fields) :
    Gives Any (pure c) (Constant.Fits n) :=
  Gives.pure (.plain h)

theorem gives_integerConstant_fits (magnitude : Nat) (negative : Bool) (line : Nat) :
    Gives Any (integerConstant magnitude negative line) (Constant.Fits n) := by
  unfold integerConstant
  refine Gives.ite (fun _ => fits_plain (by simp)) fun _ => Gives.ite (fun _ => Gives.throw _) fun _ => ?_
  exact fits_plain (by simp)

theorem gives_constantWith_fits (hagg : Gives Any aggregate (Constant.Fits n)) :
    Gives Any (constantWith aggregate) (Constant.Fits n) := by
  unfold constantWith
  refine Gives.andThen fun t => ?_
  split
  case h_6 => exact gives_integerConstant_fits _ _ _
  case h_8 =>
    have hmore : ∀ text, Tidy Any (iterate literalStep text) := tidy_iterate inferInstance
    exact Gives.map (Tidy.gives.mono fun text _ => .plain (by simp))
  case h_9 => exact hagg
  case h_10 =>
    refine Gives.ite (fun _ => Gives.andThen fun number => ?_) fun _ => Gives.throw _
    split
    · exact fits_plain (by simp)
    · exact fits_plain (by simp)
    · exact gives_integerConstant_fits _ _ _
    · exact fits_plain (by simp)
    · exact Gives.throw _
  case h_11 => exact Gives.throw _
  all_goals exact fits_plain (by simp)

/-- The values that have been read for an aggregate. -/
def FitFields (n : Nat) (fields : List (String × Constant)) : Prop :=
  ∀ f ∈ fields, f.2.Fits n

theorem FitFields.cons {fields : List (String × Constant)} (h : FitFields n fields) (key : String)
    {value : Constant} (hvalue : value.Fits n) : FitFields n ((key, value) :: fields) :=
  List.forall_mem_cons.mpr ⟨hvalue, h⟩

theorem gives_aggregateList_fits (hagg : Gives Any aggregate (Constant.Fits n)) (key : String)
    {fields : List (String × Constant)} (hfields : FitFields n fields) :
    Gives Any (aggregateList (constantWith aggregate) key fields) (FitFields n) := by
  refine gives_iterate (J := FitFields n) (fun fields hfields => Gives.andThen fun closed => ?_) hfields
  refine Gives.ite (fun _ => Gives.pure hfields) fun _ => ?_
  refine (gives_constantWith_fits hagg).bind fun value hvalue => Gives.andThen fun _ => ?_
  exact Gives.pure (hfields.cons key hvalue)

theorem gives_aggregateStep_fits (hagg : Gives Any aggregate (Constant.Fits n))
    {fields : List (String × Constant)} (hfields : FitFields n fields) :
    Gives Any (aggregateStep aggregate fields) (Sum.elim (FitFields n) (Constant.Fits (n + 1))) := by
  unfold aggregateStep
  refine Gives.andThen fun t => ?_
  extract_lets rest
  have hrest : ∀ key?, Gives Any (rest key?) (Sum.elim (FitFields n) (Constant.Fits (n + 1))) := by
    intro key?
    simp only [rest]
    split
    · rename_i key
      refine Gives.andThen fun colon => Gives.andThen fun brace => Gives.ite (fun _ => ?_) fun _ => ?_
      · exact hagg.bind fun value hvalue => Gives.pure (hfields.cons key hvalue)
      · refine Gives.ite (fun _ => Gives.andThen fun bracket => Gives.ite (fun _ => ?_) fun _ => ?_)
          fun _ => Gives.throw _
        · exact (gives_aggregateList_fits hagg key hfields).bind fun fields hfields => Gives.pure hfields
        · exact (gives_constantWith_fits hagg).bind fun value hvalue =>
            Gives.pure (hfields.cons key hvalue)
    · exact Gives.pure hfields
  split
  · exact Gives.pure (.aggregate fun f hf => hfields f (List.mem_reverse.mp hf))
  · exact hrest none
  · exact hrest none
  · exact hrest (some _)
  · exact Gives.andThen fun inner => Gives.andThen fun _ => hrest (some _)
  · exact (Gives.throw (Q := fun _ => False) _).bind fun _ hfalse => hfalse.elim

end Constant

theorem gives_aggregate_fits (levels : Nat) : Gives Any (aggregate levels) (Constant.Fits levels) := by
  induction levels with
  | zero => exact Gives.andThen fun line => Gives.throw _
  | succ levels ih =>
    exact gives_iterate (J := FitFields levels)
      (fun fields hfields => gives_aggregateStep_fits ih hfields) fun _ hf => by cases hf

theorem gives_optionSetting_fits (levels : Nat) :
    Gives Any (optionSetting levels) fun setting => setting.2.Fits levels := by
  unfold optionSetting
  exact Gives.andThen fun name => Gives.andThen fun _ =>
    (gives_constantWith_fits (gives_aggregate_fits levels)).bind fun value hvalue => Gives.pure hvalue

variable {levels : Nat}

theorem gives_optionStatement_fits {options : Options} (h : options.Fits levels) :
    Gives Any (optionStatement levels options) (Options.Fits levels) := by
  unfold optionStatement
  exact (gives_optionSetting_fits levels).bind fun setting hsetting => Gives.andThen fun _ =>
    Gives.pure (h.insert _ hsetting)

theorem gives_fieldOptions_fits : Gives Any (fieldOptions levels) (Options.Fits levels) := by
  unfold fieldOptions
  refine Gives.andThen fun more => Gives.ite (fun _ => Gives.pure Options.fits_empty) fun _ => ?_
  refine gives_iterate (J := Options.Fits levels) (fun options hoptions => ?_) Options.fits_empty
  refine (gives_optionSetting_fits levels).bind fun setting hsetting => Gives.andThen fun t => ?_
  split
  · exact Gives.pure (hoptions.insert _ hsetting)
  · exact Gives.pure (hoptions.insert _ hsetting)
  · exact Gives.throw _

/-! ### Fields -/

/-- How the body of a message is read where so many levels are left. -/
def ReadsFit (levels : Nat) (body : BodyReader) : Prop :=
  ∀ name isGroup line, Gives Any (body { name, isGroup, line }) (MessageDecl.Fits levels)

/-- A field with the message of its group, if it is one. -/
structure FitField (levels : Nat) (parsed : FieldDecl × Option MessageDecl) : Prop where
  field : parsed.1.options.Fits levels
  message : ∀ m ∈ parsed.2, m.Fits levels

variable {body : BodyReader}

theorem gives_typedField_fits (hbody : ReadsFit levels body) (rule : Rule) (typeName : String)
    (oneof : Option String) (line : Nat) :
    Gives Any (typedField levels body rule typeName oneof line) (FitField levels) := by
  unfold typedField
  refine Gives.ite (fun _ => ?_) fun _ => ?_
  · have hgroup : Gives Any (group levels body rule oneof line) fun parsed =>
        FitField levels (parsed.1, some parsed.2) := by
      unfold group
      refine Gives.andThen fun d => ?_
      extract_lets rest
      refine Gives.check fun _ => Gives.andThen fun name => ?_
      extract_lets rest'
      refine Gives.onlyIfNot fun _ => Gives.andThen fun _ => Gives.andThen fun id => ?_
      refine gives_fieldOptions_fits.bind fun options hoptions => ?_
      exact (hbody _ _ _).bind fun message hmessage => Gives.pure ⟨hoptions, by simpa using hmessage⟩
    exact hgroup.bind fun parsed hparsed => Gives.pure hparsed
  · refine Gives.andThen fun name => Gives.andThen fun _ => Gives.andThen fun id =>
      gives_fieldOptions_fits.bind fun options hoptions => Gives.andThen fun _ => ?_
    exact Gives.pure ⟨hoptions, by simp⟩

theorem gives_field_fits (hbody : ReadsFit levels body) (label : Option Rule) (oneof : Option String)
    (line : Nat) : Gives Any (field levels body label oneof line) (FitField levels) := by
  unfold field
  exact Gives.andThen fun rule => Gives.andThen fun typeName =>
    gives_typedField_fits hbody rule typeName oneof line

theorem gives_labelledField_fits (hbody : ReadsFit levels body) {word : String} {t : Located}
    (ht : t.token = .ident word) : Gives Any (labelledField levels body word t) (FitField levels) := by
  unfold labelledField
  split
  · exact gives_field_fits hbody _ _ _
  · rw [pushBack_field ht]
    exact Gives.andThen fun _ => Gives.andThen fun rule => gives_typedField_fits hbody _ _ _ _

theorem gives_mapField_fits (line : Nat) :
    Gives Any (mapField levels line) fun decl => decl.options.Fits levels := by
  unfold mapField
  refine Gives.andThen fun _ => Gives.andThen fun keyType => Gives.andThen fun _ =>
    Gives.andThen fun typeName => Gives.andThen fun _ => Gives.andThen fun name => ?_
  exact Gives.andThen fun _ => Gives.andThen fun id => gives_fieldOptions_fits.bind fun options hoptions =>
    Gives.andThen fun _ => Gives.pure hoptions

/-! ### Blocks -/

theorem holds_addField {m : MessageDecl} (hm : m.Holds levels)
    {parsed : FieldDecl × Option MessageDecl} (h : FitField levels parsed) :
    (addField m parsed).Holds levels :=
  ⟨hm.options, List.forall_mem_cons.mpr ⟨h.field, hm.fields⟩, hm.oneofs, hm.enums,
    List.forall_mem_append.mpr ⟨fun m hmem => h.message m (Option.mem_toList.mp hmem), hm.messages⟩,
    hm.extendBlocks⟩

theorem gives_body_fits {σ : Type} {place : Place} {member : σ → String → Located → Parser σ}
    {J : σ → Prop} (hmember : ∀ s word t, t.token = .ident word → J s → Gives Any (member s word t) J)
    {s : σ} (hs : J s) : Gives Any (Parser.body place member s) J :=
  gives_iterate (fun _ hs => gives_bodyStep (T := fun _ => True) Tidy.gives
    (fun s word t ht _ hs => hmember s word t ht hs) hs) hs

theorem gives_oneof_fits (hbody : ReadsFit levels body) {m : MessageDecl} (hm : m.Holds levels) :
    Gives Any (oneof levels body m) (MessageDecl.Holds levels) := by
  unfold oneof
  refine Gives.andThen fun name => Gives.andThen fun _ => ?_
  refine (gives_body_fits (J := fun s => s.1.Holds levels ∧ s.2.Fits levels)
    (fun s word t ht hs => ?_) ⟨hm, Options.fits_empty⟩).bind fun r hr => Gives.pure ?_
  · unfold oneofMember
    refine Gives.ite (fun _ => ?_) fun _ => Gives.ite (fun _ => Gives.throw _) fun _ => ?_
    · exact (gives_optionStatement_fits hs.2).bind fun options hoptions => Gives.pure ⟨hs.1, hoptions⟩
    · rw [← bind_assoc, pushBack_field ht]
      refine Gives.bind (P := FitField levels) ?_ fun parsed hparsed =>
        Gives.pure ⟨holds_addField hs.1 hparsed, hs.2⟩
      exact Gives.andThen fun _ => Gives.andThen fun rule => gives_typedField_fits hbody _ _ _ _
  · exact ⟨hr.1.options, hr.1.fields, List.forall_mem_cons.mpr ⟨hr.2, hr.1.oneofs⟩, hr.1.enums,
      hr.1.messages, hr.1.extendBlocks⟩

theorem gives_enumeration_fits (line : Nat) :
    Gives Any (enumeration levels line) (EnumDecl.Fits levels) := by
  unfold enumeration
  refine Gives.andThen fun name => Gives.andThen fun _ => ?_
  refine (gives_body_fits (J := EnumDecl.Fits levels) (fun e word t _ he => ?_)
    ⟨Options.fits_empty, by simp⟩).bind fun e he =>
      Gives.pure ⟨he.options, fun v hv => he.values v (List.mem_reverse.mp hv)⟩
  unfold enumMember
  refine Gives.ite (fun _ => ?_) fun _ => Gives.ite (fun _ => ?_) fun _ =>
    Gives.ite (fun _ => Gives.throw _) fun _ => ?_
  · exact (gives_optionStatement_fits he.options).bind fun options hoptions =>
      Gives.pure ⟨hoptions, he.values⟩
  · exact Gives.andThen fun _ => Gives.pure he
  · exact Gives.andThen fun _ => Gives.andThen fun id => gives_fieldOptions_fits.bind
      fun options hoptions => Gives.andThen fun _ =>
        Gives.pure ⟨he.options, List.forall_mem_cons.mpr ⟨hoptions, he.values⟩⟩

theorem gives_extendBlock_fits (hbody : ReadsFit levels body) (line : Nat) :
    Gives Any (extendBlock levels body line) (ExtendDecl.Fits levels) := by
  unfold extendBlock
  refine Gives.andThen fun extendee => Gives.andThen fun _ => ?_
  refine (gives_body_fits (J := ExtendDecl.Fits levels) (fun e word t ht he => ?_)
    ⟨by simp, by simp⟩).bind fun e he =>
      Gives.pure ⟨fun f hf => he.fields f (List.mem_reverse.mp hf),
        fun m hm => he.messages m (List.mem_reverse.mp hm)⟩
  unfold extendMember
  refine (gives_labelledField_fits hbody ht).bind fun parsed hparsed => Gives.pure
    ⟨List.forall_mem_cons.mpr ⟨hparsed.field, he.fields⟩, List.forall_mem_append.mpr
      ⟨fun m hm => hparsed.message m (Option.mem_toList.mp hm), he.messages⟩⟩

/-! ### Messages -/

theorem gives_message_fits (hbody : ReadsFit levels body) (line : Nat) :
    Gives Any (message body line) (MessageDecl.Fits levels) := by
  unfold message
  exact Gives.andThen fun name => hbody name false line

theorem gives_messageMember_fits (hbody : ReadsFit levels body) {m : MessageDecl}
    (hm : m.Holds levels) {word : String} {t : Located} (ht : t.token = .ident word) :
    Gives Any (messageMember levels body m word t) (MessageDecl.Holds levels) := by
  have hlabelled : Gives Any (labelledField levels body word t >>= fun parsed =>
      pure (addField m parsed)) (MessageDecl.Holds levels) :=
    (gives_labelledField_fits hbody ht).bind fun parsed hparsed => Gives.pure (holds_addField hm hparsed)
  obtain ⟨hoptions, hfields, honeofs, henums, hmessages, hblocks⟩ := id hm
  simp only [messageMember]
  split
  · exact (gives_message_fits hbody t.line).bind fun inside hinside => Gives.pure
      ⟨hoptions, hfields, honeofs, henums, List.forall_mem_cons.mpr ⟨hinside, hmessages⟩, hblocks⟩
  · exact (gives_enumeration_fits t.line).bind fun e he => Gives.pure
      ⟨hoptions, hfields, honeofs, List.forall_mem_cons.mpr ⟨he, henums⟩, hmessages, hblocks⟩
  · exact gives_oneof_fits hbody hm
  · exact Gives.andThen fun found => Gives.pure
      ⟨hoptions, hfields, honeofs, henums, hmessages, hblocks⟩
  · exact Gives.andThen fun found => Gives.pure
      ⟨hoptions, hfields, honeofs, henums, hmessages, hblocks⟩
  · exact (gives_optionStatement_fits hoptions).bind fun options hoptions => Gives.pure
      ⟨hoptions, hfields, honeofs, henums, hmessages, hblocks⟩
  · exact (gives_extendBlock_fits hbody t.line).bind fun b hb => Gives.pure
      ⟨hoptions, hfields, honeofs, henums, hmessages, List.forall_mem_cons.mpr ⟨hb, hblocks⟩⟩
  · refine Gives.andThen fun t' => Gives.ite (fun _ => ?_) fun _ => hlabelled
    exact (gives_mapField_fits t.line).bind fun decl hdecl =>
      Gives.pure (holds_addField hm ⟨hdecl, by simp⟩)
  · exact hlabelled

theorem readsFit_messageBody (levels : Nat) : ReadsFit levels (messageBody levels) := by
  induction levels with
  | zero =>
    intro name isGroup line
    exact Gives.andThen fun _ => Gives.andThen fun line => Gives.throw _
  | succ levels ih =>
    intro name isGroup line
    refine Gives.andThen fun _ => Gives.map ?_
    exact (gives_body_fits (J := MessageDecl.Holds levels)
      (fun m word t ht hm => gives_messageMember_fits ih hm ht)
      (MessageDecl.holds_empty name isGroup line)).mono fun m hm => hm.fits

/-! ### Files -/

theorem gives_service_fits (line : Nat) : Gives Any (service levels line) (ServiceDecl.Fits levels) := by
  unfold service
  refine Gives.andThen fun name => Gives.andThen fun _ => ?_
  refine (gives_body_fits (J := ServiceDecl.Fits levels) (fun s word t _ hs => ?_)
    ⟨Options.fits_empty, by simp⟩).bind fun s hs =>
      Gives.pure ⟨hs.options, fun m hm => hs.methods m (List.mem_reverse.mp hm)⟩
  have hmethod : Gives Any (method levels) fun m => m.options.Fits levels := by
    unfold method
    refine Gives.andThen fun name => Gives.andThen fun _ => Gives.andThen fun request =>
      Gives.andThen fun _ => Gives.andThen fun _ => Gives.andThen fun _ =>
      Gives.andThen fun response => Gives.andThen fun _ => Gives.bind (P := Options.Fits levels) ?_
        fun options hoptions => Gives.pure hoptions
    unfold methodBody
    refine Gives.andThen fun t => ?_
    split
    · exact Gives.pure Options.fits_empty
    · refine gives_body_fits (fun options word t _ hoptions => ?_) Options.fits_empty
      exact Gives.ite (fun _ => gives_optionStatement_fits hoptions) fun _ => Gives.throw _
    · exact Gives.throw _
  unfold serviceMember
  refine Gives.ite (fun _ => ?_) fun _ => Gives.ite (fun _ => ?_) fun _ => Gives.throw _
  · exact (gives_optionStatement_fits hs.options).bind fun options hoptions =>
      Gives.pure ⟨hoptions, hs.methods⟩
  · exact hmethod.bind fun m hm => Gives.pure ⟨hs.options, List.forall_mem_cons.mpr ⟨hm, hs.methods⟩⟩

theorem gives_statement_fits {file : FileDecl} (hfile : file.Fits maxNesting) (word : String)
    (t : Located) : Gives Any (statement file word t) (FileDecl.Fits maxNesting) := by
  have := tidy_dialectStatement (I := Any) (fun _ _ _ => trivial) t.line
  obtain ⟨hoptions, hmessages, henums, hservices, hblocks⟩ := id hfile
  unfold statement
  extract_lets line
  split
  · exact Gives.andThen fun _ => Gives.pure hfile
  · unfold packageStatement
    extract_lets rest
    refine Gives.onlyIf fun _ => Gives.andThen fun package => ?_
    extract_lets rest'
    exact Gives.onlyIf fun _ => Gives.andThen fun _ =>
      Gives.pure ⟨hoptions, hmessages, henums, hservices, hblocks⟩
  · exact Gives.andThen fun path => Gives.pure ⟨hoptions, hmessages, henums, hservices, hblocks⟩
  · exact (gives_optionStatement_fits hoptions).bind fun options hoptions =>
      Gives.pure ⟨hoptions, hmessages, henums, hservices, hblocks⟩
  · exact (gives_message_fits (readsFit_messageBody _) line).bind fun m hm =>
      Gives.pure ⟨hoptions, List.forall_mem_cons.mpr ⟨hm, hmessages⟩, henums, hservices, hblocks⟩
  · exact (gives_enumeration_fits line).bind fun e he =>
      Gives.pure ⟨hoptions, hmessages, List.forall_mem_cons.mpr ⟨he, henums⟩, hservices, hblocks⟩
  · exact (gives_service_fits line).bind fun s hs =>
      Gives.pure ⟨hoptions, hmessages, henums, List.forall_mem_cons.mpr ⟨hs, hservices⟩, hblocks⟩
  · exact (gives_extendBlock_fits (readsFit_messageBody _) line).bind fun b hb =>
      Gives.pure ⟨hoptions, hmessages, henums, hservices, List.forall_mem_cons.mpr ⟨hb, hblocks⟩⟩
  · exact Gives.throw _

theorem gives_file_fits : Gives Any file (FileDecl.Fits maxNesting) := by
  rw [file]
  refine (gives_iterate (J := FileDecl.Fits maxNesting) (Q := FileDecl.Fits maxNesting)
    (fun file hfile => Gives.andThen fun t => ?_)
    ⟨Options.fits_empty, by simp, by simp, by simp, by simp⟩).bind fun decl hdecl => ?_
  · split
    · exact Gives.pure hfile
    · exact Gives.pure hfile
    · exact (gives_statement_fits hfile _ t).bind fun file hfile => Gives.pure hfile
    · exact Gives.throw _
  · exact Gives.andThen fun d => Gives.pure ⟨hdecl.options,
      fun m hm => hdecl.messages m (List.mem_reverse.mp hm),
      fun e he => hdecl.enums e (List.mem_reverse.mp he),
      fun s hs => hdecl.services s (List.mem_reverse.mp hs),
      fun b hb => hdecl.extendBlocks b (List.mem_reverse.mp hb)⟩

end Parser

/-- What is read from a text fits into the bound of the grammar. -/
theorem fits_of_parse {source : String} {file : FileDecl} (h : parse source = .ok file) :
    file.Fits maxNesting := by
  obtain ⟨s, hrun⟩ := parse_eq_ok.mp h
  exact (Parser.gives_file_fits _ trivial file s hrun).1

end Schema

end Protobuf

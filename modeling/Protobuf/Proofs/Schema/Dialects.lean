import Mathlib
import Protobuf.Proofs.Schema.Tokens

/-!
# Dialects of schema texts

A field is judged by the dialect in force where it stands: `proto3` has no required fields and no
groups, and `proto2` has no implicit presence. A statement that sets the dialect may stand anywhere
between other statements, so a message as a whole suits one dialect. A file has the dialect that is in
force at the end of its text, and suits that if no message and no extension block stands where another
one is in force. Nothing else is asked of texts, and so a file that sets its dialect too late, or twice,
does not always suit the dialect that it has.

## Main definitions

* `FieldDecl.Suits`, `MessageDecl.Suits`, `ExtendDecl.Suits` — the declaration may stand in a file of a
  dialect.
* `Schema.Steady` — messages and extension blocks stand where the dialect `d` is in force.

## Main results

* `Schema.suits_of_parse` — a text that is read suits its dialects
* `Schema.steady_of_first`, `Schema.steady_of_none` — texts that set their dialect first, or never
* `Schema.not_suits_late` — a file that sets its dialect too late
-/

namespace Protobuf

/-! ### Declarations that suit a dialect -/

/-- The rule of the field is one of the dialect. -/
structure FieldDecl.Suits (d : Dialect) (f : FieldDecl) : Prop where
  required : d = .proto3 → f.rule ≠ .required
  implicit : d = .proto2 → f.rule ≠ .implicit

/-- A message and everything below it suits the dialect. The members of oneofs are optional, and their
oneofs are declared along with them. -/
inductive MessageDecl.Suits (d : Dialect) : MessageDecl → Prop
  | intro {m : MessageDecl} (group : d = .proto3 → m.isGroup = false)
      (fields : ∀ f ∈ m.fields, f.Suits d)
      (members : ∀ f ∈ m.fields, ∀ name, f.oneof = some name →
        f.rule = .optional ∧ ∃ o ∈ m.oneofs, o.name = name)
      (messages : ∀ inside ∈ m.messages, inside.Suits d)
      (extensions : ∀ b ∈ m.extendBlocks, ∀ f ∈ b.fields, f.Suits d ∧ f.oneof = none)
      (bodies : ∀ b ∈ m.extendBlocks, ∀ inside ∈ b.messages, inside.Suits d) : m.Suits d

/-- The fields of an extension block suit the dialect, and so do the messages in it. -/
structure ExtendDecl.Suits (d : Dialect) (b : ExtendDecl) : Prop where
  fields : ∀ f ∈ b.fields, f.Suits d ∧ f.oneof = none
  messages : ∀ m ∈ b.messages, m.Suits d

/-- Each message and each extension block of the file suits one of the dialects in `D`. -/
structure FileDecl.Suits (D : Dialect → Prop) (f : FileDecl) : Prop where
  messages : ∀ m ∈ f.messages, ∃ d, D d ∧ m.Suits d
  extendBlocks : ∀ b ∈ f.extendBlocks, ∃ d, D d ∧ ExtendDecl.Suits d b

/-- A message that is being read suits the dialect so far. The oneof `opened` is declared when its
members have been read. -/
structure MessageDecl.Growing (d : Dialect) (opened : Option String) (m : MessageDecl) : Prop where
  group : d = .proto3 → m.isGroup = false
  fields : ∀ f ∈ m.fields, f.Suits d
  members : ∀ f ∈ m.fields, ∀ name, f.oneof = some name →
    f.rule = .optional ∧ (opened = some name ∨ ∃ o ∈ m.oneofs, o.name = name)
  messages : ∀ inside ∈ m.messages, inside.Suits d
  extendBlocks : ∀ b ∈ m.extendBlocks, ExtendDecl.Suits d b

namespace MessageDecl.Growing

variable {d : Dialect} {opened : Option String} {m : MessageDecl}

theorem empty (name : String) {isGroup : Bool} (line : Nat) (h : d = .proto3 → isGroup = false) :
    Growing d none { name, isGroup, line } :=
  ⟨h, by simp, by simp, by simp, by simp⟩

/-- A message that has been read is turned. -/
theorem suits (h : Growing d none m) : (Schema.Parser.turnMessage m).Suits d := by
  refine ⟨h.group, fun f hf => h.fields f (List.mem_reverse.mp hf), fun f hf name hname => ?_,
    fun inside hin => h.messages inside (List.mem_reverse.mp hin),
    fun b hb => (h.extendBlocks b (List.mem_reverse.mp hb)).fields,
    fun b hb => (h.extendBlocks b (List.mem_reverse.mp hb)).messages⟩
  obtain ⟨hrule, hnone | ⟨o, ho, heq⟩⟩ := h.members f (List.mem_reverse.mp hf) name hname
  · cases hnone
  · exact ⟨hrule, o, List.mem_reverse.mpr ho, heq⟩

/-- The next oneof begins. -/
theorem start (h : Growing d none m) (name : String) : Growing d (some name) m := by
  refine ⟨h.group, h.fields, fun f hf name' hname => ?_, h.messages, h.extendBlocks⟩
  obtain ⟨hrule, hnone | ho⟩ := h.members f hf name' hname
  · cases hnone
  · exact ⟨hrule, .inr ho⟩

/-- The oneof is declared. -/
theorem finish {name : String} (h : Growing d (some name) m) (options : Options) :
    Growing d none { m with oneofs := { name, options } :: m.oneofs } := by
  refine ⟨h.group, h.fields, fun f hf name' hname => ?_, h.messages, h.extendBlocks⟩
  obtain ⟨hrule, heq | ⟨o, ho, heq⟩⟩ := h.members f hf name' hname
  · cases heq
    exact ⟨hrule, .inr ⟨_, List.mem_cons_self, rfl⟩⟩
  · exact ⟨hrule, .inr ⟨o, List.mem_cons_of_mem _ ho, heq⟩⟩

end MessageDecl.Growing

namespace Schema

namespace Parser

/-! ### Fields -/

/-- The dialect in force is `d`. -/
abbrev InForce (d : Dialect) (s : ParserState) : Prop :=
  s.dialect = d

variable {d : Dialect}

instance : Lasting (InForce d) :=
  .of_fixed fun _ _ _ _ h => h

theorem gives_dialect : Gives (InForce d) dialect fun d' => d' = d :=
  fun s hs a s' hrun => by cases hrun; exact ⟨hs, hs⟩

/-- The rule of a field is one of the dialect in force, and `optional` in a oneof. -/
theorem gives_fieldRule_inForce {label : Option Rule} {oneof : Option String} (line : Nat)
    (hlabel : ∀ rule ∈ label, rule ≠ .implicit) (h : label = none ∨ oneof = none) :
    Gives (InForce d) (fieldRule label oneof line) fun rule =>
      (d = .proto3 → rule ≠ .required) ∧ (d = .proto2 → rule ≠ .implicit) ∧
        (oneof.isSome → rule = .optional) := by
  refine gives_dialect.bind fun d' hd => ?_
  subst hd
  split
  · exact Gives.throw _
  · rename_i rule hrule
    refine Gives.pure ⟨fun hd heq => ?_, fun _ => hlabel rule rfl, fun honeof => ?_⟩
    · exact hrule hd heq
    · rcases h with h | h
      · cases h
      · subst h
        cases honeof
  · exact Gives.pure ⟨by simp, by simp, fun _ => rfl⟩
  · exact Gives.pure ⟨by simp, by simp, by simp⟩
  · exact Gives.throw _

/-- How the body of a message is read where the dialect `d` is in force. -/
def ReadsBody (d : Dialect) (body : BodyReader) : Prop :=
  ∀ m, MessageDecl.Growing d none m → Gives (InForce d) (body m) (MessageDecl.Suits d)

/-- A field with the message of its group suits the dialect, and is a member of `oneof` if of any. -/
structure SuitsField (d : Dialect) (oneof : Option String) (parsed : FieldDecl × Option MessageDecl) :
    Prop where
  field : parsed.1.Suits d
  belongs : parsed.1.oneof = oneof
  member : oneof.isSome → parsed.1.rule = .optional
  message : ∀ m ∈ parsed.2, m.Suits d

variable {levels : Nat} {body : BodyReader}

theorem gives_group_inForce (hbody : ReadsBody d body) {rule : Rule} {oneof : Option String}
    (hrule : (d = .proto3 → rule ≠ .required) ∧ (d = .proto2 → rule ≠ .implicit) ∧
      (oneof.isSome → rule = .optional)) (line : Nat) :
    Gives (InForce d) (group levels body rule oneof line) fun parsed =>
      SuitsField d oneof (parsed.1, some parsed.2) := by
  rw [group]
  refine gives_dialect.bind fun d' hd => ?_
  subst hd
  extract_lets rest
  refine Gives.check fun hproto2 => Gives.andThen fun name => ?_
  extract_lets rest'
  refine Gives.onlyIfNot fun _ => Gives.andThen fun _ => Gives.andThen fun id =>
    Gives.andThen fun options => ?_
  refine (hbody _ (.empty name line fun h => absurd h hproto2)).bind fun message hmessage => ?_
  exact Gives.pure ⟨⟨hrule.1, hrule.2.1⟩, rfl, hrule.2.2, by simpa using hmessage⟩

theorem gives_typedField_inForce (hbody : ReadsBody d body) {rule : Rule} {oneof : Option String}
    (hrule : (d = .proto3 → rule ≠ .required) ∧ (d = .proto2 → rule ≠ .implicit) ∧
      (oneof.isSome → rule = .optional)) (typeName : String) (line : Nat) :
    Gives (InForce d) (typedField levels body rule typeName oneof line) (SuitsField d oneof) := by
  rw [typedField]
  split
  · exact (gives_group_inForce hbody hrule line).bind fun parsed hparsed => Gives.pure hparsed
  · refine Gives.andThen fun name => Gives.andThen fun _ => Gives.andThen fun id =>
      Gives.andThen fun options => Gives.andThen fun _ => ?_
    exact Gives.pure ⟨⟨hrule.1, hrule.2.1⟩, rfl, hrule.2.2, by simp⟩

theorem gives_field_inForce (hbody : ReadsBody d body) {label : Option Rule} {oneof : Option String}
    (hlabel : ∀ rule ∈ label, rule ≠ .implicit) (h : label = none ∨ oneof = none) (line : Nat) :
    Gives (InForce d) (field levels body label oneof line) (SuitsField d oneof) := by
  rw [field]
  exact (gives_fieldRule_inForce line hlabel h).bind fun rule hrule => Gives.andThen fun typeName =>
    gives_typedField_inForce hbody hrule typeName line

/-- A field that is read from its type on, which has been taken. -/
theorem gives_pushBack_field_inForce (hbody : ReadsBody d body) (oneof : Option String) {word : String}
    {t : Located} (ht : t.token = .ident word) (line : Nat) :
    Gives (InForce d) (do pushBack t; field levels body none oneof line) (SuitsField d oneof) := by
  rw [pushBack_field ht]
  exact Gives.andThen fun _ => (gives_fieldRule_inForce line (by simp) (.inl rfl)).bind fun rule hrule =>
    gives_typedField_inForce hbody hrule word line

theorem ruleOfLabel?_ne_implicit {word : String} {rule : Rule} (h : ruleOfLabel? word = some rule) :
    rule ≠ .implicit := by
  rw [ruleOfLabel?.eq_def] at h
  split at h <;> cases h <;> decide

theorem gives_labelledField_inForce (hbody : ReadsBody d body) {word : String} {t : Located}
    (ht : t.token = .ident word) :
    Gives (InForce d) (labelledField levels body word t) (SuitsField d none) := by
  rw [labelledField]
  split
  · rename_i rule hrule
    exact gives_field_inForce hbody
      (fun r hr => by cases hr; exact ruleOfLabel?_ne_implicit hrule) (.inr rfl) t.line
  · exact gives_pushBack_field_inForce hbody none ht t.line

theorem gives_mapField_inForce (levels line : Nat) :
    Gives (InForce d) (mapField levels line) fun decl => SuitsField d none (decl, none) := by
  rw [mapField]
  refine Gives.andThen fun _ => Gives.andThen fun keyType => Gives.andThen fun _ =>
    Gives.andThen fun typeName => Gives.andThen fun _ => Gives.andThen fun name => ?_
  refine Gives.andThen fun _ => Gives.andThen fun id => Gives.andThen fun options =>
    Gives.andThen fun _ => ?_
  exact Gives.pure ⟨⟨by simp, by simp⟩, rfl, by simp, by simp⟩

/-! ### Messages -/

theorem growing_addField {opened oneof : Option String} {m : MessageDecl}
    (hm : MessageDecl.Growing d opened m) {parsed : FieldDecl × Option MessageDecl}
    (h : SuitsField d oneof parsed) (honeof : oneof = none ∨ oneof = opened) :
    MessageDecl.Growing d opened (addField m parsed) := by
  refine ⟨hm.group, List.forall_mem_cons.mpr ⟨h.field, hm.fields⟩,
    List.forall_mem_cons.mpr ⟨fun name hname => ?_, hm.members⟩,
    List.forall_mem_append.mpr ⟨fun m hmem => h.message m (Option.mem_toList.mp hmem), hm.messages⟩,
    hm.extendBlocks⟩
  rw [h.belongs] at hname
  subst hname
  rcases honeof with hnone | heq
  · cases hnone
  · exact ⟨h.member rfl, .inl heq.symm⟩

theorem gives_oneof_inForce (hbody : ReadsBody d body) {m : MessageDecl}
    (hm : MessageDecl.Growing d none m) :
    Gives (InForce d) (oneof levels body m) (MessageDecl.Growing d none) := by
  rw [oneof]
  refine Gives.andThen fun name => Gives.andThen fun _ => ?_
  refine (gives_iterate (J := fun s => MessageDecl.Growing d (some name) s.1)
    (fun s hs => gives_bodyStep (T := fun _ => True) Tidy.gives (fun s word t ht _ hs => ?_) hs)
    (hm.start name)).bind fun r hr => Gives.pure (hr.finish r.2)
  rw [oneofMember]
  split
  · exact Gives.andThen fun options => Gives.pure hs
  · split
    · exact Gives.throw _
    · rw [← bind_assoc]
      exact (gives_pushBack_field_inForce hbody (some name) ht t.line).bind fun parsed hparsed =>
        Gives.pure (growing_addField hs hparsed (.inr rfl))

theorem gives_extendBlock_inForce (hbody : ReadsBody d body) (line : Nat) :
    Gives (InForce d) (extendBlock levels body line) (ExtendDecl.Suits d) := by
  rw [extendBlock]
  refine Gives.andThen fun extendee => Gives.andThen fun _ => ?_
  refine (gives_iterate (J := ExtendDecl.Suits d)
    (fun e he => gives_bodyStep (T := fun _ => True) Tidy.gives (fun e word t ht _ he => ?_) he)
    ⟨by simp, by simp⟩).bind fun e he => Gives.pure ⟨fun f hf => ?_, fun m hm => ?_⟩
  · rw [extendMember]
    refine (gives_labelledField_inForce hbody ht).bind fun parsed hparsed =>
      Gives.pure ⟨List.forall_mem_cons.mpr ⟨⟨hparsed.field, hparsed.belongs⟩, he.fields⟩, ?_⟩
    exact List.forall_mem_append.mpr ⟨fun m hm => hparsed.message m (Option.mem_toList.mp hm),
      he.messages⟩
  · exact he.fields f (List.mem_reverse.mp hf)
  · exact he.messages m (List.mem_reverse.mp hm)

theorem gives_message_inForce (hbody : ReadsBody d body) (line : Nat) :
    Gives (InForce d) (message body line) (MessageDecl.Suits d) := by
  rw [message]
  exact Gives.andThen fun name => hbody _ (.empty name line fun _ => rfl)

theorem gives_messageMember_inForce (hbody : ReadsBody d body) {m : MessageDecl}
    (hm : MessageDecl.Growing d none m) {word : String} {t : Located} (ht : t.token = .ident word) :
    Gives (InForce d) (messageMember levels body m word t) (MessageDecl.Growing d none) := by
  have hlabelled : Gives (InForce d) (labelledField levels body word t >>= fun parsed =>
      pure (addField m parsed)) (MessageDecl.Growing d none) :=
    (gives_labelledField_inForce hbody ht).bind fun parsed hparsed =>
      Gives.pure (growing_addField hm hparsed (.inl rfl))
  obtain ⟨hgroup, hfields, hmembers, hmessages, hblocks⟩ := id hm
  simp only [messageMember]
  split
  · exact (gives_message_inForce hbody t.line).bind fun inside hinside => Gives.pure
      ⟨hgroup, hfields, hmembers, List.forall_mem_cons.mpr ⟨hinside, hmessages⟩, hblocks⟩
  · exact Gives.andThen fun decl => Gives.pure ⟨hgroup, hfields, hmembers, hmessages, hblocks⟩
  · exact gives_oneof_inForce hbody hm
  · exact Gives.andThen fun found => Gives.pure ⟨hgroup, hfields, hmembers, hmessages, hblocks⟩
  · exact Gives.andThen fun found => Gives.pure ⟨hgroup, hfields, hmembers, hmessages, hblocks⟩
  · exact Gives.andThen fun options => Gives.pure ⟨hgroup, hfields, hmembers, hmessages, hblocks⟩
  · exact (gives_extendBlock_inForce hbody t.line).bind fun block hblock => Gives.pure
      ⟨hgroup, hfields, hmembers, hmessages, List.forall_mem_cons.mpr ⟨hblock, hblocks⟩⟩
  · refine Gives.andThen fun t' => ?_
    split
    · exact (gives_mapField_inForce levels t.line).bind fun decl hdecl =>
        Gives.pure (growing_addField hm hdecl (.inl rfl))
    · exact hlabelled
  · exact hlabelled

theorem readsBody_messageBody (levels : Nat) : ReadsBody d (messageBody levels) := by
  induction levels with
  | zero =>
    intro m _
    rw [messageBody]
    exact Gives.andThen fun _ => Gives.andThen fun line => Gives.throw _
  | succ levels ih =>
    intro m hm
    rw [messageBody]
    refine Gives.andThen fun _ => Gives.map ?_
    exact (gives_iterate (J := MessageDecl.Growing d none) (fun m hm => gives_bodyStep
      (T := fun _ => True) Tidy.gives (fun m word t ht _ hm => gives_messageMember_inForce ih hm ht)
      hm) hm).mono fun m hm => hm.suits

/-! ### Statements -/

/-- The statement declares no message and no extension block. -/
theorem gives_statement_other (file : FileDecl) {word : String} (t : Located)
    (hmessage : word ≠ "message") (hextend : word ≠ "extend") :
    Gives (fun _ => True) (statement file word t) fun file' =>
      file'.messages = file.messages ∧ file'.extendBlocks = file.extendBlocks := by
  have := tidy_dialectStatement (I := fun _ => True) (fun _ _ _ => trivial) t.line
  unfold statement
  extract_lets line
  split
  · exact Gives.andThen fun _ => Gives.pure ⟨rfl, rfl⟩
  · unfold packageStatement
    extract_lets rest
    refine Gives.onlyIf fun _ => Gives.andThen fun package => ?_
    extract_lets rest'
    exact Gives.onlyIf fun _ => Gives.andThen fun _ => Gives.pure ⟨rfl, rfl⟩
  · exact Gives.andThen fun path => Gives.pure ⟨rfl, rfl⟩
  · exact Gives.andThen fun options => Gives.pure ⟨rfl, rfl⟩
  · exact absurd rfl hmessage
  · exact Gives.andThen fun e => Gives.pure ⟨rfl, rfl⟩
  · exact Gives.andThen fun s => Gives.pure ⟨rfl, rfl⟩
  · exact absurd rfl hextend
  · exact Gives.throw _

/-- A message or an extension block suits the dialect in force. -/
theorem gives_statement_inForce {D : Dialect → Prop} {file : FileDecl} (hfile : file.Suits D)
    {word : String} (t : Located) (hword : word = "message" ∨ word = "extend") (hd : D d) :
    Gives (InForce d) (statement file word t) (FileDecl.Suits D) := by
  rcases hword with rfl | rfl
  · refine (gives_message_inForce (readsBody_messageBody _) t.line).bind fun m hm => Gives.pure ?_
    exact ⟨List.forall_mem_cons.mpr ⟨⟨d, hd, hm⟩, hfile.messages⟩, hfile.extendBlocks⟩
  · refine (gives_extendBlock_inForce (readsBody_messageBody _) t.line).bind fun b hb =>
      Gives.pure ?_
    exact ⟨hfile.messages, List.forall_mem_cons.mpr ⟨⟨d, hd, hb⟩, hfile.extendBlocks⟩⟩

/-- What a statement declares suits a dialect in `D` if the statement is read where that is in force. -/
theorem suits_of_goes {D : Dialect → Prop} {a b : FileDecl × ParserState} (hround : Goes fileStep a b)
    (hfile : a.1.Suits D)
    (hsteady : ∀ t s, next.run a.2 = .ok (t, s) →
      t.token = .ident "message" ∨ t.token = .ident "extend" → D a.2.dialect) : b.1.Suits D := by
  obtain ⟨file, s⟩ := a
  obtain ⟨file', s'⟩ := b
  rw [Goes, fileStep, StateT.run_bind] at hround
  obtain ⟨⟨t, s₁⟩, hnext, hround⟩ := bind_eq_ok.mp hround
  have hinForce : s₁.dialect = s.dialect :=
    ((Tidy.gives (I := InForce s.dialect) (p := next)) s rfl t s₁ hnext).2
  dsimp only at hround
  split at hround
  · cases hround
  · cases hround
    exact hfile
  · rename_i word hword
    obtain ⟨⟨file'', s₂⟩, hstatement, hround⟩ := bind_eq_ok.mp hround
    cases hround
    by_cases hdeclares : word = "message" ∨ word = "extend"
    · have hd := hsteady t s₁ hnext (by rw [hword]; simpa using hdeclares)
      exact (gives_statement_inForce hfile t hdeclares hd s₁ hinForce _ _ hstatement).1
    · obtain ⟨hmessage, hextend⟩ := not_or.mp hdeclares
      obtain ⟨⟨hmessages, hblocks⟩, -⟩ :=
        gives_statement_other file t hmessage hextend s₁ trivial _ _ hstatement
      exact ⟨hmessages ▸ hfile.messages, hblocks ▸ hfile.extendBlocks⟩
  · cases hround

/-- The last round of the statements gives the file as it is, and the dialect stays. -/
theorem eq_of_fileStep {file decl : FileDecl} {s s' : ParserState}
    (h : (fileStep file).run s = .ok (.inr decl, s')) : decl = file ∧ s'.dialect = s.dialect := by
  rw [fileStep, StateT.run_bind] at h
  obtain ⟨⟨t, s₁⟩, hnext, h⟩ := bind_eq_ok.mp h
  dsimp only at h
  split at h
  · cases h
    have hgives : Gives (InForce s.dialect) next fun _ => True := Tidy.gives
    exact ⟨rfl, (hgives s rfl t s' hnext).2⟩
  · cases h
  · obtain ⟨_, _, h⟩ := bind_eq_ok.mp h
    cases h
  · cases h

end Parser

/-! ### Texts -/

/-- Each message and each extension block of the text stands where a dialect in `D` is in force: it is
so whenever statements have been read and the next one begins with such a word. -/
def Steady (source : String) (D : Dialect → Prop) : Prop :=
  ∀ file s t s', Relation.ReflTransGen (Parser.Goes Parser.fileStep) ({}, .ofString source) (file, s) →
    Parser.next.run s = .ok (t, s') →
      t.token = .ident "message" ∨ t.token = .ident "extend" → D s.dialect

/-- A file is what its statements have made of it, turned, and has the dialect that they have left in
force. -/
theorem exists_of_parse {source : String} {file : FileDecl} (h : parse source = .ok file) :
    ∃ y, Relation.ReflTransGen (Parser.Goes Parser.fileStep) ({}, .ofString source) y ∧
      file = { Parser.turnFile y.1 with dialect := y.2.dialect } := by
  obtain ⟨s, hrun⟩ := parse_eq_ok.mp h
  rw [Parser.file, StateT.run_bind] at hrun
  obtain ⟨⟨decl, s₁⟩, hstatements, hrun⟩ := bind_eq_ok.mp hrun
  obtain ⟨y, hreads, hlast⟩ := Parser.exists_of_iterate hstatements
  obtain ⟨rfl, hdialect⟩ := Parser.eq_of_fileStep hlast
  cases hrun
  exact ⟨y, hreads, by rw [← hdialect]⟩

/-- What a text declares suits the dialects that are in force there. -/
theorem suits_of_steady {source : String} {D : Dialect → Prop} {file : FileDecl}
    (h : parse source = .ok file) (hsteady : Steady source D) : file.Suits D := by
  have hsuits : ∀ b, Relation.ReflTransGen (Parser.Goes Parser.fileStep) ({}, .ofString source) b →
      b.1.Suits D := by
    intro b hb
    induction hb with
    | refl => exact ⟨by simp, by simp⟩
    | tail hb hround ih =>
      exact Parser.suits_of_goes hround ih fun t s hnext => hsteady _ _ t s hb hnext
  obtain ⟨y, hreads, rfl⟩ := exists_of_parse h
  exact ⟨fun m hm => (hsuits y hreads).messages m (List.mem_reverse.mp hm),
    fun b hb => (hsuits y hreads).extendBlocks b (List.mem_reverse.mp hb)⟩

/-! ### Texts that set their dialect first -/

/-- The dialect in force is `d`, and no token that is left would set another one. -/
abbrev Settled (d : Dialect) (s : ParserState) : Prop :=
  s.dialect = d ∧ s.All (· ≠ .ident "syntax")

variable {d : Dialect}

theorem settled_of_goes {a b : FileDecl × ParserState} (hround : Parser.Goes Parser.fileStep a b)
    (h : Settled d a.2) : Settled d b.2 := by
  obtain ⟨file, s⟩ := a
  obtain ⟨file', s'⟩ := b
  have hstep : Parser.Gives (Settled d) (Parser.fileStep file) fun _ => True := by
    refine (Parser.Gives.and (Parser.Tidy.gives (p := Parser.next)) Parser.gives_next).bind fun t ht => ?_
    split
    · exact Parser.Gives.pure trivial
    · exact Parser.Gives.pure trivial
    · rename_i word hword
      have := Parser.tidy_statement (I := Settled d) file t fun heq : word = "syntax" =>
        absurd (hword.trans (congrArg _ heq)) ht.2
      exact Parser.Gives.andThen fun _ => Parser.Gives.pure trivial
    · exact Parser.Gives.throw _
  exact (hstep s h _ s' hround).2

theorem settled_of_reaches {a b : FileDecl × ParserState}
    (hreads : Relation.ReflTransGen (Parser.Goes Parser.fileStep) a b) (h : Settled d a.2) :
    Settled d b.2 := by
  induction hreads with
  | refl => exact h
  | tail _ hround ih => exact settled_of_goes hround ih

/-- A text without the word that sets a dialect stands in `proto2` throughout. -/
theorem steady_of_none {source : String}
    (h : ∀ t ∈ (Scanner.ofString source).tokens.1, t.token ≠ .ident "syntax") :
    Steady source (· = .proto2) := by
  have hsettled : Settled .proto2 (.ofString source) :=
    ⟨rfl, h, fun t ht heq => by cases heq.symm.trans (ending_tokensWithin ht)⟩
  exact fun _ _ _ _ hreads _ _ => (settled_of_reaches hreads hsettled).1

theorem goes_first {d : Dialect} {ahead : List Located} (ending : Except ParseError Located)
    (h : (ahead.take 4).map (·.token) =
      [.ident "syntax", .symbol '=', .str d.name, .symbol ';']) :
    ∃ line, Parser.Goes Parser.fileStep ({}, { ahead, ending })
      ({}, { ahead := ahead.drop 4, ending, line, dialect := d }) := by
  obtain _ | ⟨⟨_, _⟩, _ | ⟨⟨_, _⟩, _ | ⟨⟨_, _⟩, _ | ⟨⟨_, line⟩, more⟩⟩⟩⟩ := ahead <;> cases h
  exact ⟨line, by cases d <;> rfl⟩

/-- A text that sets its dialect with its first statement, and has the word nowhere else, stands in that
dialect throughout. -/
theorem steady_of_first {source : String}
    (h : ((Scanner.ofString source).tokens.1.take 4).map (·.token) =
      [.ident "syntax", .symbol '=', .str d.name, .symbol ';'])
    (hmore : ∀ t ∈ (Scanner.ofString source).tokens.1.drop 4, t.token ≠ .ident "syntax") :
    Steady source (· = d) := by
  intro file s t s' hreads hnext hdeclares
  rcases Relation.ReflTransGen.cases_head hreads with heq | ⟨y, hround, hreads⟩
  · cases heq
    rw [ParserState.ofString] at hnext
    cases htokens : (Scanner.ofString source).tokens.1 with
    | nil =>
      rw [htokens] at h
      cases h
    | cons first more =>
      rw [htokens] at h hnext
      cases hnext
      have hfirst : t.token = .ident "syntax" := (List.cons.inj h).1
      rw [hfirst] at hdeclares
      rcases hdeclares with h | h <;> exact absurd (Token.ident.inj h) (by decide)
  · obtain ⟨line, hfirst⟩ := goes_first (Scanner.ofString source).tokens.2 h
    cases Parser.goes_unique hfirst hround
    exact (settled_of_reaches hreads
      ⟨rfl, hmore, fun t ht heq => by cases heq.symm.trans (ending_tokensWithin ht)⟩).1

/-- A text that is read suits its dialects: a message or an extension block, with everything in it,
suits one of them, and members of oneofs are optional and declared along with their oneofs. All of it
suits the dialect of the file, if no message and no extension block stands where another one is in
force. -/
theorem suits_of_parse {source : String} {file : FileDecl} (h : parse source = .ok file) :
    file.Suits (fun _ => True) ∧
      (Steady source (· = file.dialect) → file.Suits (· = file.dialect)) :=
  ⟨suits_of_steady h fun _ _ _ _ _ _ _ => trivial, suits_of_steady h⟩

/-- A text that sets its dialect first, with one rule and two members of a oneof. -/
def ordered : String :=
  "syntax = \"proto3\"; message M { int32 a = 1; oneof o { int32 b = 2; M c = 3; } }"

theorem suits_ordered : ∃ file, parse ordered = .ok file ∧ file.dialect = .proto3 ∧
    file.Suits (· = file.dialect) := by
  let field (rule : Rule) (typeName name : String) (id : UInt32) (oneof : Option String) : FieldDecl :=
    { rule, typeName, keyType := none, name, id, options := {}, oneof, line := 1 }
  let m : MessageDecl :=
    { name := "M"
      fields := [field .implicit "int32" "a" 1 none, field .optional "int32" "b" 2 (some "o"),
        field .optional "M" "c" 3 (some "o")]
      oneofs := [{ name := "o", options := {} }]
      line := 1 }
  have hparse : parse ordered = .ok { dialect := .proto3, messages := [m] } := by cbv
  refine ⟨_, hparse, rfl, (suits_of_parse hparse).2 ?_⟩
  have hmore : ((Scanner.ofString ordered).tokens.1.drop 4).all (·.token ≠ .ident "syntax") = true := by
    cbv
  exact steady_of_first (by cbv) fun t ht => of_decide_eq_true (List.all_eq_true.mp hmore t ht)

/-- A text that sets its dialect too late. -/
def late : String :=
  "message M { required int32 a = 1; } syntax = \"proto3\";"

/-- The field is judged by the dialect that is in force where it stands, and the file has the one that
is set behind it. -/
theorem not_suits_late : ∃ file, parse late = .ok file ∧ file.dialect = .proto3 ∧
    (∃ m ∈ file.messages, ∃ f ∈ m.fields, f.rule = .required) ∧ ¬file.Suits (· = file.dialect) := by
  let a : FieldDecl :=
    { rule := .required, typeName := "int32", keyType := none, name := "a", id := 1, options := {},
      oneof := none, line := 1 }
  refine ⟨{ dialect := .proto3, messages := [{ name := "M", fields := [a], line := 1 }] },
    by cbv, rfl, ⟨_, List.mem_cons_self, _, List.mem_cons_self, rfl⟩, fun h => ?_⟩
  obtain ⟨d, rfl, hm⟩ := h.messages _ List.mem_cons_self
  cases hm with
  | intro _ fields => exact (fields a List.mem_cons_self).required rfl rfl

end Schema

end Protobuf

import Protobuf.Proofs.Schema.Tokens
import Protobuf.Proofs.Text.Dotted

/-!
# Definitions in schema texts

The grammar is narrower than the descriptions that it gives. Names that are declared have characters
but no dots, and the members of a oneof have no label and get the rule `optional`. Nothing that is done with a
declaration after it has been read changes this, so it holds of every definition of a text, at any
depth.

## Main definitions

* `FieldDecl.Textual`, `EnumDecl.Textual`, `ServiceDecl.Textual`, `MessageDecl.Textual`,
  `ExtendDecl.Textual`, `Definition.Textual`, `FileDecl.Textual` — the declaration could come from
  a text.

## Main results

* `Schema.textual_of_parse` — this is so for every schema text
-/

namespace Protobuf

/-- The name has characters but no dots, and the field is optional if it belongs to a oneof. -/
structure FieldDecl.Textual (f : FieldDecl) : Prop where
  name : Path.Proper f.name
  member : f.oneof.isSome → f.rule = .optional

/-- The names of the enum and of its values have characters, but no dots. -/
structure EnumDecl.Textual (e : EnumDecl) : Prop where
  name : Path.Proper e.name
  values : ∀ v ∈ e.values, Path.Proper v.name

/-- The names of the service and of its methods have characters, but no dots. -/
structure ServiceDecl.Textual (s : ServiceDecl) : Prop where
  name : Path.Proper s.name
  methods : ∀ m ∈ s.methods, Path.Proper m.name

/-- A message and everything below it could come from a text. -/
inductive MessageDecl.Textual : MessageDecl → Prop
  | intro {m : MessageDecl} (name : Path.Proper m.name) (fields : ∀ f ∈ m.fields, f.Textual)
      (oneofs : ∀ o ∈ m.oneofs, Path.Proper o.name) (enums : ∀ e ∈ m.enums, e.Textual)
      (messages : ∀ inside ∈ m.messages, inside.Textual)
      (extensions : ∀ b ∈ m.extendBlocks, ∀ f ∈ b.fields, f.Textual)
      (bodies : ∀ b ∈ m.extendBlocks, ∀ inside ∈ b.messages, inside.Textual) : m.Textual

/-- The fields of an extension block, and the messages in it, could come from a text. -/
structure ExtendDecl.Textual (b : ExtendDecl) : Prop where
  fields : ∀ f ∈ b.fields, f.Textual
  messages : ∀ m ∈ b.messages, m.Textual

/-- The definition could come from a text. -/
def Definition.Textual : Definition → Prop
  | .message decl => decl.Textual
  | .enumeration decl => decl.Textual
  | .service decl => decl.Textual
  | .extension decl => ExtendDecl.Textual decl

/-- All definitions of a file could come from a text. -/
structure FileDecl.Textual (f : FileDecl) : Prop where
  messages : ∀ m ∈ f.messages, m.Textual
  enums : ∀ e ∈ f.enums, e.Textual
  services : ∀ s ∈ f.services, s.Textual
  extendBlocks : ∀ b ∈ f.extendBlocks, ExtendDecl.Textual b

theorem FileDecl.Textual.definitions {f : FileDecl} (h : f.Textual) :
    ∀ d ∈ f.definitions, d.Textual := by
  intro d hd
  simp only [FileDecl.definitions, List.mem_append, List.mem_map] at hd
  rcases hd with ((⟨m, hm, rfl⟩ | ⟨e, he, rfl⟩) | ⟨s, hs, rfl⟩) | ⟨b, hb, rfl⟩
  · exact h.messages m hm
  · exact h.enums e he
  · exact h.services s hs
  · exact h.extendBlocks b hb

namespace Schema.Parser

open ParserState (Proper)

/-- A name that is declared has characters, but no dots. -/
theorem gives_name : Gives Proper name Path.Proper := by
  rw [name]
  refine Gives.andThen fun line => gives_path.bind fun text htext => ?_
  split
  · exact Gives.throw _
  · rename_i hdots
    exact Gives.pure ⟨Path.plain_iff.mpr (Bool.eq_false_iff.mpr hdots), htext⟩

/-! ### Enums and services -/

theorem gives_enumMember {levels : Nat} {e : EnumDecl} {word : String} {t : Located}
    (hword : word ≠ "") (he : e.Textual) :
    Gives Proper (enumMember levels e word t) EnumDecl.Textual := by
  rw [enumMember]
  split
  · exact Gives.andThen fun options => Gives.pure ⟨he.name, he.values⟩
  · split
    · exact Gives.andThen fun _ => Gives.pure he
    · split
      · exact Gives.throw _
      · rename_i hdots
        refine Gives.andThen fun _ => Gives.andThen fun id => Gives.andThen fun options =>
          Gives.andThen fun _ => Gives.pure ⟨he.name, ?_⟩
        have hplain := Path.plain_iff.mpr (Bool.eq_false_iff.mpr hdots)
        exact List.forall_mem_cons.mpr ⟨⟨hplain, hword⟩, he.values⟩

theorem gives_enumeration (levels line : Nat) :
    Gives Proper (enumeration levels line) EnumDecl.Textual := by
  rw [enumeration]
  refine gives_name.bind fun name hname => Gives.andThen fun _ => ?_
  refine (gives_body (fun e word t hword _ he => gives_enumMember hword he)
    ⟨hname, by simp⟩).bind fun e he => Gives.pure ⟨he.name, ?_⟩
  intro v hv
  exact he.values v (List.mem_reverse.mp hv)

theorem gives_method (levels : Nat) :
    Gives Proper (method levels) fun m => Path.Proper m.name := by
  rw [method]
  refine gives_name.bind fun name hname => ?_
  refine Gives.andThen fun _ => Gives.andThen fun _ => Gives.andThen fun _ =>
    Gives.andThen fun _ => Gives.andThen fun _ => Gives.andThen fun _ =>
    Gives.andThen fun _ => Gives.andThen fun _ => Gives.pure hname

theorem gives_serviceMember {levels : Nat} {name : String} {s : ServiceDecl} {word : String}
    {t : Located} (hs : s.Textual) :
    Gives Proper (serviceMember levels name s word t) ServiceDecl.Textual := by
  rw [serviceMember]
  split
  · exact Gives.andThen fun options => Gives.pure ⟨hs.name, hs.methods⟩
  · split
    · refine (gives_method levels).bind fun m hm => Gives.pure ⟨hs.name, ?_⟩
      exact List.forall_mem_cons.mpr ⟨hm, hs.methods⟩
    · exact Gives.throw _

theorem gives_service (levels line : Nat) :
    Gives Proper (service levels line) ServiceDecl.Textual := by
  rw [service]
  refine gives_name.bind fun name hname => Gives.andThen fun _ => ?_
  refine (gives_body (fun s word t _ _ hs => gives_serviceMember hs) ⟨hname, by simp⟩).bind
    fun s hs => Gives.pure ⟨hs.name, ?_⟩
  intro m hm
  exact hs.methods m (List.mem_reverse.mp hm)

/-! ### Fields -/

/-- The rule of a field without label is `optional` in a oneof. -/
theorem gives_fieldRule (label : Option Rule) (oneof : Option String) (line : Nat)
    (h : label = none ∨ oneof = none) :
    Gives Proper (fieldRule label oneof line) fun rule => oneof.isSome → rule = .optional := by
  refine Gives.andThen fun dialect => ?_
  split
  · exact Gives.throw _
  · rename_i rule _ _ _
    refine Gives.pure fun honeof => ?_
    rcases h with h | h
    · cases h
    · subst h
      cases honeof
  · exact Gives.pure fun _ => rfl
  · exact Gives.pure fun honeof => by cases honeof
  · exact Gives.throw _

/-- A body reader that keeps a message as texts have it. -/
def GoodBody (body : BodyReader) : Prop :=
  ∀ m, m.Textual → Gives Proper (body m) MessageDecl.Textual

/-- A field and the message of its group are as they should be. -/
def GoodField (parsed : FieldDecl × Option MessageDecl) : Prop :=
  parsed.1.Textual ∧ ∀ m ∈ parsed.2, m.Textual

theorem textual_new {name : String} (hname : Path.Proper name) (isGroup : Bool) (line : Nat) :
    MessageDecl.Textual { name, isGroup, line } :=
  ⟨hname, by simp, by simp, by simp, by simp, by simp, by simp⟩

theorem gives_group {levels : Nat} {body : BodyReader} (hbody : GoodBody body) {rule : Rule}
    {oneof : Option String} (hrule : oneof.isSome → rule = .optional) (line : Nat) :
    Gives Proper (group levels body rule oneof line) fun parsed =>
      parsed.1.Textual ∧ parsed.2.Textual := by
  rw [group]
  refine Gives.andThen fun dialect => ?_
  extract_lets rest
  refine Gives.onlyIf fun _ => gives_name.bind fun name hname => ?_
  extract_lets rest'
  refine Gives.onlyIfNot fun _ => Gives.andThen fun _ => Gives.andThen fun id =>
    Gives.andThen fun options => ?_
  exact (hbody _ (textual_new hname _ _)).bind fun message hmessage =>
    Gives.pure ⟨⟨hname.toLower, hrule⟩, hmessage⟩

theorem gives_typedField {levels : Nat} {body : BodyReader} (hbody : GoodBody body) {rule : Rule}
    {oneof : Option String} (hrule : oneof.isSome → rule = .optional) (typeName : String)
    (line : Nat) : Gives Proper (typedField levels body rule typeName oneof line) GoodField := by
  rw [typedField]
  split
  · exact (gives_group hbody hrule line).bind fun parsed hparsed =>
      Gives.pure ⟨hparsed.1, by simpa using hparsed.2⟩
  · refine gives_name.bind fun name hname => Gives.andThen fun _ => Gives.andThen fun id =>
      Gives.andThen fun options => Gives.andThen fun _ => ?_
    exact Gives.pure ⟨⟨hname, hrule⟩, by simp⟩

theorem gives_field {levels : Nat} {body : BodyReader} (hbody : GoodBody body)
    {label : Option Rule} {oneof : Option String} (h : label = none ∨ oneof = none) (line : Nat) :
    Gives Proper (field levels body label oneof line) GoodField := by
  rw [field]
  exact (gives_fieldRule label oneof line h).bind fun rule hrule => Gives.andThen fun typeName =>
    gives_typedField hbody hrule typeName line

/-- A field that is read from its type on, which has been taken. -/
theorem gives_pushBack_field {levels : Nat} {body : BodyReader} (hbody : GoodBody body)
    (oneof : Option String) {word : String} {t : Located} (ht : t.token = .ident word) (line : Nat) :
    Gives Proper (do pushBack t; field levels body none oneof line) GoodField := by
  rw [pushBack_field ht]
  exact Gives.andThen fun _ => (gives_fieldRule none oneof line (.inl rfl)).bind fun rule hrule =>
    gives_typedField hbody hrule word line

theorem gives_labelledField {levels : Nat} {body : BodyReader} (hbody : GoodBody body)
    {word : String} {t : Located} (ht : t.token = .ident word) :
    Gives Proper (labelledField levels body word t) GoodField := by
  rw [labelledField]
  split
  · exact gives_field hbody (.inr rfl) t.line
  · exact gives_pushBack_field hbody none ht t.line

theorem gives_mapField (levels line : Nat) :
    Gives Proper (mapField levels line) FieldDecl.Textual := by
  rw [mapField]
  refine Gives.andThen fun _ => Gives.andThen fun keyType => Gives.andThen fun _ =>
    Gives.andThen fun typeName => Gives.andThen fun _ => gives_name.bind fun name hname => ?_
  refine Gives.andThen fun _ => Gives.andThen fun id => Gives.andThen fun options =>
    Gives.andThen fun _ => ?_
  exact Gives.pure ⟨hname, fun h => by cases h⟩

/-! ### Messages -/

theorem textual_addField {m : MessageDecl} (hm : m.Textual)
    {parsed : FieldDecl × Option MessageDecl} (h : GoodField parsed) :
    (addField m parsed).Textual := by
  obtain ⟨hname, hfields, honeofs, henums, hmessages, hextensions, hbodies⟩ := hm
  refine ⟨hname, List.forall_mem_cons.mpr ⟨h.1, hfields⟩, honeofs, henums, ?_, hextensions,
    hbodies⟩
  exact List.forall_mem_append.mpr ⟨fun inside hin => h.2 inside (Option.mem_toList.mp hin),
    hmessages⟩

theorem gives_oneof {levels : Nat} {body : BodyReader} (hbody : GoodBody body) {m : MessageDecl}
    (hm : m.Textual) : Gives Proper (oneof levels body m) MessageDecl.Textual := by
  rw [oneof]
  refine gives_name.bind fun name hname => Gives.andThen fun _ => ?_
  refine (gives_body (J := fun s => s.1.Textual) (fun s word t _ ht hs => ?_) hm).bind
    fun r hr => ?_
  · rw [oneofMember]
    split
    · exact Gives.andThen fun options => Gives.pure hs
    · split
      · exact Gives.throw _
      · rw [← bind_assoc]
        exact (gives_pushBack_field hbody (some name) ht t.line).bind fun parsed hparsed =>
          Gives.pure (textual_addField hs hparsed)
  · obtain ⟨hname', hfields, honeofs, henums, hmessages, hextensions, hbodies⟩ := hr
    exact Gives.pure ⟨hname', hfields, List.forall_mem_cons.mpr ⟨hname, honeofs⟩, henums,
      hmessages, hextensions, hbodies⟩

theorem gives_extendBlock {levels : Nat} {body : BodyReader} (hbody : GoodBody body)
    (line : Nat) : Gives Proper (extendBlock levels body line) ExtendDecl.Textual := by
  rw [extendBlock]
  refine Gives.andThen fun extendee => Gives.andThen fun _ => ?_
  refine (gives_body (J := ExtendDecl.Textual) (fun e word t _ ht he => ?_)
    ⟨by simp, by simp⟩).bind fun e he => Gives.pure ⟨fun f hf => ?_, fun m hm => ?_⟩
  · rw [extendMember]
    refine (gives_labelledField hbody ht).bind fun parsed hparsed =>
      Gives.pure ⟨List.forall_mem_cons.mpr ⟨hparsed.1, he.fields⟩, ?_⟩
    exact List.forall_mem_append.mpr ⟨fun m hm => hparsed.2 m (Option.mem_toList.mp hm),
      he.messages⟩
  · exact he.fields f (List.mem_reverse.mp hf)
  · exact he.messages m (List.mem_reverse.mp hm)

theorem gives_message {body : BodyReader} (hbody : GoodBody body) (line : Nat) :
    Gives Proper (message body line) MessageDecl.Textual := by
  rw [message]
  exact gives_name.bind fun name hname => hbody _ (textual_new hname _ _)

theorem gives_messageMember {levels : Nat} {body : BodyReader} (hbody : GoodBody body)
    {m : MessageDecl} (hm : m.Textual) {word : String} {t : Located} (ht : t.token = .ident word) :
    Gives Proper (messageMember levels body m word t) MessageDecl.Textual := by
  have hlabelled : Gives Proper (labelledField levels body word t >>= fun parsed =>
      pure (addField m parsed)) MessageDecl.Textual :=
    (gives_labelledField hbody ht).bind fun parsed hparsed =>
      Gives.pure (textual_addField hm hparsed)
  obtain ⟨hname, hfields, honeofs, henums, hmessages, hextensions, hbodies⟩ := id hm
  simp only [messageMember]
  split
  · refine (gives_message hbody t.line).bind fun inside hinside => Gives.pure ?_
    exact ⟨hname, hfields, honeofs, henums, List.forall_mem_cons.mpr ⟨hinside, hmessages⟩,
      hextensions, hbodies⟩
  · refine (gives_enumeration levels t.line).bind fun decl hdecl => Gives.pure ?_
    exact ⟨hname, hfields, honeofs, List.forall_mem_cons.mpr ⟨hdecl, henums⟩, hmessages,
      hextensions, hbodies⟩
  · exact gives_oneof hbody hm
  · exact Gives.andThen fun found =>
      Gives.pure ⟨hname, hfields, honeofs, henums, hmessages, hextensions, hbodies⟩
  · exact Gives.andThen fun found =>
      Gives.pure ⟨hname, hfields, honeofs, henums, hmessages, hextensions, hbodies⟩
  · exact Gives.andThen fun options =>
      Gives.pure ⟨hname, hfields, honeofs, henums, hmessages, hextensions, hbodies⟩
  · refine (gives_extendBlock hbody t.line).bind fun block hblock => Gives.pure ?_
    exact ⟨hname, hfields, honeofs, henums, hmessages,
      List.forall_mem_cons.mpr ⟨hblock.fields, hextensions⟩,
      List.forall_mem_cons.mpr ⟨hblock.messages, hbodies⟩⟩
  · refine Gives.andThen fun t' => ?_
    split
    · exact (gives_mapField levels t.line).bind fun decl hdecl =>
        Gives.pure (textual_addField hm ⟨hdecl, by simp⟩)
    · exact hlabelled
  · exact hlabelled

theorem textual_turnMessage {m : MessageDecl} (hm : m.Textual) : (turnMessage m).Textual := by
  obtain ⟨hname, hfields, honeofs, henums, hmessages, hextensions, hbodies⟩ := hm
  exact ⟨hname, fun f hf => hfields f (List.mem_reverse.mp hf),
    fun o ho => honeofs o (List.mem_reverse.mp ho), fun e he => henums e (List.mem_reverse.mp he),
    fun inside hinside => hmessages inside (List.mem_reverse.mp hinside),
    fun b hb => hextensions b (List.mem_reverse.mp hb),
    fun b hb => hbodies b (List.mem_reverse.mp hb)⟩

theorem goodBody_messageBody (levels : Nat) : GoodBody (messageBody levels) := by
  induction levels with
  | zero =>
    intro m _
    rw [messageBody]
    exact Gives.andThen fun _ => Gives.andThen fun line => Gives.throw _
  | succ levels ih =>
    intro m hm
    rw [messageBody]
    refine Gives.andThen fun _ => Gives.map ?_
    exact (gives_body (fun m word t _ ht hm => gives_messageMember ih hm ht) hm).mono
      fun m hm => textual_turnMessage hm

/-! ### Files -/

theorem gives_statement {file : FileDecl} (hfile : file.Textual) (word : String)
    (t : Located) : Gives Proper (statement file word t) FileDecl.Textual := by
  obtain ⟨hmessages, henums, hservices, hblocks⟩ := hfile
  have hsame := FileDecl.Textual.mk hmessages henums hservices hblocks
  unfold statement
  extract_lets line
  split
  · exact Gives.andThen fun _ => Gives.pure hsame
  · unfold packageStatement
    extract_lets rest
    refine Gives.onlyIf fun _ => Gives.andThen fun package => ?_
    extract_lets rest'
    exact Gives.onlyIf fun _ => Gives.andThen fun _ =>
      Gives.pure ⟨hmessages, henums, hservices, hblocks⟩
  · exact Gives.andThen fun path => Gives.pure ⟨hmessages, henums, hservices, hblocks⟩
  · exact Gives.andThen fun options => Gives.pure ⟨hmessages, henums, hservices, hblocks⟩
  · refine (gives_message (goodBody_messageBody _) line).bind fun m hm => Gives.pure ?_
    exact ⟨List.forall_mem_cons.mpr ⟨hm, hmessages⟩, henums, hservices, hblocks⟩
  · refine (gives_enumeration _ line).bind fun e he => Gives.pure ?_
    exact ⟨hmessages, List.forall_mem_cons.mpr ⟨he, henums⟩, hservices, hblocks⟩
  · refine (gives_service _ line).bind fun s hs => Gives.pure ?_
    exact ⟨hmessages, henums, List.forall_mem_cons.mpr ⟨hs, hservices⟩, hblocks⟩
  · refine (gives_extendBlock (goodBody_messageBody _) line).bind fun b hb => Gives.pure ?_
    exact ⟨hmessages, henums, hservices, List.forall_mem_cons.mpr ⟨hb, hblocks⟩⟩
  · exact Gives.throw _

theorem gives_file : Gives Proper file FileDecl.Textual := by
  rw [file]
  refine (gives_iterate (J := FileDecl.Textual) (Q := FileDecl.Textual)
    (fun file hfile => Gives.andThen fun t => ?_)
    ⟨by simp, by simp, by simp, by simp⟩).bind fun decl hdecl => ?_
  · split
    · exact Gives.pure hfile
    · exact Gives.pure hfile
    · exact (gives_statement hfile _ t).bind fun file hfile => Gives.pure hfile
    · exact Gives.throw _
  · refine Gives.andThen fun dialect => Gives.pure ?_
    exact ⟨fun m hm => hdecl.messages m (List.mem_reverse.mp hm),
      fun e he => hdecl.enums e (List.mem_reverse.mp he),
      fun s hs => hdecl.services s (List.mem_reverse.mp hs),
      fun b hb => hdecl.extendBlocks b (List.mem_reverse.mp hb)⟩

end Schema.Parser

/-- Every schema text has definitions as they should be. -/
theorem Schema.textual_of_parse {source : String} {file : FileDecl}
    (h : parse source = .ok file) : file.Textual := by
  obtain ⟨s, hrun⟩ := parse_eq_ok.mp h
  exact (Parser.gives_file _ (proper_tokens _) file s hrun).1

end Protobuf

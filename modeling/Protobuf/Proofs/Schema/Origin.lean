import Mathlib
import Protobuf.Proofs.Schema.Told

/-!
# Where the lines in descriptions and errors come from

Every line in the description of a schema text is that of the token with which the declaration begins, and
the line in an error that of the token which the error is about. The lines of tokens fall short by the
escaped line breaks in front of them. The line that is current is that of the token in front of the next
one, unless that has been looked at, and so is the line in an error about a name with a dot.

## Main definitions

* `Lexer.Opens` — words that stand one after the other in a text, and the line of the first one.
* `MessageDecl.Stands`, `FieldDecl.Stands` and so on — the declaration stands in the text, on its line.

## Main results

* `Schema.told_of_parse` — what is read from a text stands in it, and what is refused is told
* `Schema.line_traced` — the lines of tokens, of descriptions and of errors
* `Schema.line_escaped` — a line that is not counted
* `Schema.currentLine_lags` — the line that is current, and that of a name with a dot
* `Schema.currentLine_lags_break` — a line that is not current yet
-/

namespace Protobuf

namespace Schema

/-! ### Words and declarations -/

/-- The words stand one after the other in the text up to the token with the number `k`, and the first one
of them stands on line `line`. -/
inductive Lexer.Opens (source : String) (line : Nat) : List String → Nat → Prop
  | first {k : Nat} {word : String} (h : nth source k = .ok ⟨.ident word, line⟩) :
      Opens source line [word] k
  | more {words : List String} {k line' : Nat} {word : String} (h : Opens source line words k)
      (hnext : nth source (k + 1) = .ok ⟨.ident word, line'⟩) :
      Opens source line (words ++ [word]) (k + 1)

theorem Lexer.Opens.exists_first {source : String} {line k : Nat} {words : List String}
    (h : Opens source line words k) : ∃ k word, nth source k = .ok ⟨.ident word, line⟩ := by
  induction h with
  | first h => exact ⟨_, _, h⟩
  | more _ _ ih => exact ih

/-- The words in front of the type of a field: a label or nothing. -/
def IsLabel (words : List String) : Prop :=
  words = [] ∨ ∃ word rule, words = [word] ∧ Parser.ruleOfLabel? word = some rule

end Schema

open Schema (Lexer IsLabel)

/-- The field stands in the text on its line. It begins with its label, or else with its type, and a map
field with the word `map`. The type of a group stands in the place of its name. -/
inductive FieldDecl.Stands (source : String) (f : FieldDecl) : Prop
  | typed {label : List String} {k : Nat} (hlabel : IsLabel label)
      (h : Lexer.Opens source f.line (label ++ [f.typeName, f.name]) k)
  | group {label : List String} {k : Nat} (hlabel : IsLabel label)
      (h : Lexer.Opens source f.line (label ++ ["group", f.typeName]) k)
  | map {k : Nat} (hrule : f.rule = .map) (h : Lexer.Opens source f.line ["map"] k)

/-- The enum stands in the text on its line. -/
def EnumDecl.Stands (source : String) (e : EnumDecl) : Prop :=
  ∃ k, Lexer.Opens source e.line ["enum", e.name] k

/-- The service stands in the text on its line. -/
def ServiceDecl.Stands (source : String) (s : ServiceDecl) : Prop :=
  ∃ k, Lexer.Opens source s.line ["service", s.name] k

/-- The message begins on its line. The body of a group begins with the field that it belongs to. -/
def MessageDecl.Begins (source : String) (m : MessageDecl) : Prop :=
  (∃ k, Lexer.Opens source m.line ["message", m.name] k) ∨
    m.isGroup ∧ ∃ label k, IsLabel label ∧ Lexer.Opens source m.line (label ++ ["group", m.name]) k

/-- The message and everything below it stands in the text on its line. -/
inductive MessageDecl.Stands (source : String) : MessageDecl → Prop
  | intro {m : MessageDecl} (begins : m.Begins source) (fields : ∀ f ∈ m.fields, f.Stands source)
      (enums : ∀ e ∈ m.enums, e.Stands source) (messages : ∀ inside ∈ m.messages, inside.Stands source)
      (blocks : ∀ b ∈ m.extendBlocks, ∃ k, Lexer.Opens source b.line ["extend", b.extendee] k)
      (extensions : ∀ b ∈ m.extendBlocks, ∀ f ∈ b.fields, f.Stands source)
      (bodies : ∀ b ∈ m.extendBlocks, ∀ inside ∈ b.messages, inside.Stands source) : m.Stands source

/-- The extension block and everything in it stands in the text on its line. -/
structure ExtendDecl.Stands (source : String) (b : ExtendDecl) : Prop where
  begins : ∃ k, Lexer.Opens source b.line ["extend", b.extendee] k
  fields : ∀ f ∈ b.fields, f.Stands source
  messages : ∀ m ∈ b.messages, m.Stands source

/-- Everything that the file declares stands in the text on its line. -/
structure FileDecl.Stands (source : String) (f : FileDecl) : Prop where
  messages : ∀ m ∈ f.messages, m.Stands source
  enums : ∀ e ∈ f.enums, e.Stands source
  services : ∀ s ∈ f.services, s.Stands source
  extendBlocks : ∀ b ∈ f.extendBlocks, ExtendDecl.Stands source b

/-- A message that is being read stands in the text so far. -/
structure MessageDecl.Rising (source : String) (m : MessageDecl) : Prop where
  begins : m.Begins source
  fields : ∀ f ∈ m.fields, f.Stands source
  enums : ∀ e ∈ m.enums, e.Stands source
  messages : ∀ inside ∈ m.messages, inside.Stands source
  extendBlocks : ∀ b ∈ m.extendBlocks, ExtendDecl.Stands source b

namespace MessageDecl.Rising

variable {source : String} {m : MessageDecl}

theorem empty {name : String} {isGroup : Bool} {line : Nat}
    (h : Begins source { name, isGroup, line }) : Rising source { name, isGroup, line } :=
  ⟨h, by simp, by simp, by simp, by simp⟩

/-- A message that has been read is turned. -/
theorem stands (h : m.Rising source) : (Schema.Parser.turnMessage m).Stands source :=
  ⟨h.begins, fun f hf => h.fields f (List.mem_reverse.mp hf),
    fun e he => h.enums e (List.mem_reverse.mp he),
    fun inside hin => h.messages inside (List.mem_reverse.mp hin),
    fun b hb => (h.extendBlocks b (List.mem_reverse.mp hb)).begins,
    fun b hb => (h.extendBlocks b (List.mem_reverse.mp hb)).fields,
    fun b hb => (h.extendBlocks b (List.mem_reverse.mp hb)).messages⟩

end MessageDecl.Rising

namespace Schema

namespace Parser

open ParserState (At Took Within)

variable {source : String} {α β : Type}

/-- A declaration opens with the word that has been taken. -/
theorem Tells.opens {p : Parser α} {Q : α → ParserState → Prop} {n : Nat} {t : Located} {word : String}
    (ht : t.token = .ident word)
    (h : Lexer.Opens source t.line [word] n → Tells source (Took source n t) p Q) :
    Tells source (Took source n t) p Q := by
  obtain ⟨token, line⟩ := t
  obtain rfl : token = .ident word := ht
  exact .known (fun s hs => .first hs.token) h

/-- The name of a declaration stands behind the words that open it. -/
theorem tells_name_opens {words : List String} {line n : Nat} {t : Located}
    (h : Lexer.Opens source line words n) :
    Tells source (Took source n t) name fun text s =>
      Lexer.Opens source line (words ++ [text]) (n + 1) ∧ s.Within source :=
  tells_name.imp fun _ _ ⟨_, hs⟩ => ⟨.more h hs.token, hs.within⟩

/-! ### Enums and services -/

theorem tells_enumMember (levels : Nat) {e : EnumDecl} (he : e.Stands source) {word : String} {n : Nat}
    {t : Located} (ht : t.token = .ident word) :
    Tells source (Took source n t) (enumMember levels e word t) fun e s =>
      e.Stands source ∧ s.Within source := by
  unfold enumMember
  refine .ite (fun _ => ?_) fun _ => .ite (fun _ => ?_) fun _ => .ite (fun _ => ?_) fun _ => ?_
  · exact .andThen (fun _ hs => hs.within) fun options => .pure fun _ hs => ⟨he, hs⟩
  · exact .andThen (fun _ hs => hs.within) fun _ => .pure fun _ hs => ⟨he, hs⟩
  · exact .fail fun _ hs => .token hs.token ht
  · exact .andThen (fun _ hs => hs.within) fun _ => .andThen (fun _ hs => hs) fun id =>
      .andThen (fun _ hs => hs) fun options => .andThen (fun _ hs => hs) fun _ => .pure fun _ hs => ⟨he, hs⟩

theorem tells_enumeration (levels : Nat) {n : Nat} {t : Located} (ht : t.token = .ident "enum") :
    Tells source (Took source n t) (enumeration levels t.line) fun e s =>
      e.Stands source ∧ s.Within source := by
  unfold enumeration
  refine .opens ht fun hopens => (tells_name_opens hopens).bind fun name => ?_
  refine .known (fun s hs => hs.1) fun hname => .andThen (fun _ hs => hs.2) fun _ => ?_
  exact .bind (tells_body (J := EnumDecl.Stands source) (.enumeration _ levels)
    (fun e word n t ht he => tells_enumMember levels he ht) (fun _ hs => hs) ⟨_, hname⟩) fun e =>
      .pure fun _ hs => hs

theorem tells_serviceMember (levels : Nat) (name : String) {d : ServiceDecl} (hd : d.Stands source)
    (word : String) (n : Nat) (t : Located) :
    Tells source (Took source n t) (serviceMember levels name d word t) fun d s =>
      d.Stands source ∧ s.Within source := by
  unfold serviceMember
  refine .ite (fun _ => ?_) fun _ => .ite (fun _ => ?_) fun _ => .fail fun _ hs => .token hs.token rfl
  · exact .andThen (fun _ hs => hs.within) fun options => .pure fun _ hs => ⟨hd, hs⟩
  · exact (tells_method levels).bind fun m => .pure fun _ hs => ⟨hd, hs⟩

theorem tells_service (levels : Nat) {n : Nat} {t : Located} (ht : t.token = .ident "service") :
    Tells source (Took source n t) (service levels t.line) fun d s =>
      d.Stands source ∧ s.Within source := by
  unfold service
  refine .opens ht fun hopens => (tells_name_opens hopens).bind fun name => ?_
  refine .known (fun s hs => hs.1) fun hname => .andThen (fun _ hs => hs.2) fun _ => ?_
  exact .bind (tells_body (J := ServiceDecl.Stands source) (.service _ levels name)
    (fun d word n t _ hd => tells_serviceMember levels name hd word n t) (fun _ hs => hs) ⟨_, hname⟩)
      fun d => .pure fun _ hs => hs

/-! ### Fields -/

/-- A field with the message of its group stands in the text. -/
structure StandsField (source : String) (parsed : FieldDecl × Option MessageDecl) : Prop where
  field : parsed.1.Stands source
  message : ∀ m ∈ parsed.2, m.Stands source

/-- How the body of a message is read. -/
def ReadsRising (source : String) (body : BodyReader) : Prop :=
  ∀ m, m.Rising source → Tells source (Within source) (body m) fun m s =>
    m.Stands source ∧ s.Within source

variable {levels : Nat} {body : BodyReader}

theorem tells_group (hbody : ReadsRising source body) {rule : Rule} {oneof : Option String} {line n : Nat}
    {t : Located} {label : List String} (hlabel : IsLabel label)
    (hopens : Lexer.Opens source line (label ++ ["group"]) n) :
    Tells source (Took source n t) (group levels body rule oneof line) fun parsed s =>
      StandsField source (parsed.1, some parsed.2) ∧ s.Within source := by
  obtain ⟨k, first, hfirst⟩ := hopens.exists_first
  unfold group
  refine (Tells.dialect (Q := fun _ => Took source n t) fun _ _ hs => hs).bind fun d => ?_
  extract_lets rest
  refine .check (fun _ _ _ => .token hfirst ⟨first, rfl⟩) fun _ => ?_
  refine (tells_name_opens hopens).bind fun name => .known (fun s hs => hs.1) fun hname => ?_
  rw [List.append_assoc] at hname
  refine .weaken (P := Within source) ?_ fun _ hs => hs.2
  extract_lets rest'
  refine .ite (fun _ => ?_) fun _ => .refuse fun _ _ => .token hfirst ⟨first, rfl⟩
  refine .andThen (fun _ hs => hs) fun _ => .andThen (fun _ hs => hs) fun id =>
    .andThen (fun _ hs => hs) fun options => ?_
  refine (hbody _ (.empty (.inr ⟨rfl, label, n + 1, hlabel, hname⟩))).bind fun message => .pure fun s hs => ?_
  exact ⟨⟨.group hlabel hname, by simpa using hs.1⟩, hs.2⟩

theorem tells_typedField (hbody : ReadsRising source body) {rule : Rule} {typeName : String}
    {oneof : Option String} {line n : Nat} {t : Located} {label : List String} (hlabel : IsLabel label)
    (hopens : Lexer.Opens source line (label ++ [typeName]) n) :
    Tells source (Took source n t) (typedField levels body rule typeName oneof line) fun parsed s =>
      StandsField source parsed ∧ s.Within source := by
  unfold typedField
  split
  · rename_i hgroup
    subst hgroup
    exact (tells_group hbody hlabel hopens).bind fun parsed => .pure fun s hs => hs
  · refine (tells_name_opens hopens).bind fun name => .known (fun s hs => hs.1) fun hname => ?_
    rw [List.append_assoc] at hname
    refine .andThen (fun _ hs => hs.2) fun _ => .andThen (fun _ hs => hs) fun id =>
      .andThen (fun _ hs => hs) fun options => .andThen (fun _ hs => hs) fun _ => .pure fun s hs => ?_
    exact ⟨⟨.typed hlabel hname, by simp⟩, hs⟩

/-- A field that is read from its type on, which has been taken. -/
theorem tells_pushBack_field (hbody : ReadsRising source body) (oneof : Option String) {word : String}
    {n : Nat} {t : Located} (ht : t.token = .ident word) :
    Tells source (Took source n t) (do pushBack t; field levels body none oneof t.line) fun parsed s =>
      StandsField source parsed ∧ s.Within source := by
  rw [pushBack_field ht]
  obtain ⟨token, line⟩ := t
  obtain rfl : token = .ident word := ht
  refine .known (fun s hs => hs.token) fun htoken => ?_
  have hline : Tells source (Took source n ⟨.ident word, line⟩) (setLine line) fun _ =>
      Took source n ⟨.ident word, line⟩ :=
    fun s hs => ⟨⟨hs.next.ahead, hs.next.ending, hs.next.seen⟩, hs.token, rfl, hs.unseen⟩
  refine hline.bind fun _ => (tells_fieldRule (fun h => by cases h) ⟨n, word, htoken⟩).bind fun rule => ?_
  exact tells_typedField hbody (.inl rfl) (.first htoken)

theorem tells_labelledField (hbody : ReadsRising source body) {word : String} {n : Nat} {t : Located}
    (ht : t.token = .ident word) :
    Tells source (Took source n t) (labelledField levels body word t) fun parsed s =>
      StandsField source parsed ∧ s.Within source := by
  unfold labelledField
  split
  · rename_i rule hrule
    obtain ⟨token, line⟩ := t
    obtain rfl : token = .ident word := ht
    refine .known (fun s hs => hs.token) fun htoken => ?_
    unfold field
    refine (tells_fieldRule (fun hrequired => ?_) ⟨n, word, htoken⟩).bind fun rule' => ?_
    · cases hrequired
      cases ruleOfLabel?_eq_required hrule
      exact ⟨n, htoken⟩
    · refine .bind ((tells_path (n + 1)).weaken fun _ hs => hs.next) fun typeName => ?_
      refine .elim fun line' => .known (fun s hs => hs.token) fun htype => ?_
      exact tells_typedField hbody (.inr ⟨word, rule, rfl, hrule⟩) (.more (.first htoken) htype)
  · exact tells_pushBack_field hbody none ht

theorem tells_mapField (levels : Nat) {n : Nat} {t : Located} (ht : t.token = .ident "map") :
    Tells source (Took source n t) (mapField levels t.line) fun decl s =>
      StandsField source (decl, none) ∧ s.Within source := by
  unfold mapField
  refine .opens ht fun hopens => .andThen (fun _ hs => hs.within) fun _ =>
    .andThen (fun _ hs => hs) fun keyType => .andThen (fun _ hs => hs) fun _ =>
    .andThen (fun _ hs => hs) fun typeName => ?_
  refine .elim fun m => (tells_expectSymbol '>' m).bind fun _ => .elim fun line' =>
    tells_name.bind fun name => ?_
  refine .andThen (fun _ ⟨_, hs⟩ => hs.within) fun _ => .andThen (fun _ hs => hs) fun id =>
    .andThen (fun _ hs => hs) fun options => .andThen (fun _ hs => hs) fun _ => .pure fun s hs => ?_
  exact ⟨⟨.map rfl hopens, by simp⟩, hs⟩

/-! ### Messages -/

theorem rising_addField {m : MessageDecl} (hm : m.Rising source)
    {parsed : FieldDecl × Option MessageDecl} (h : StandsField source parsed) :
    (addField m parsed).Rising source := by
  exact ⟨hm.begins, List.forall_mem_cons.mpr ⟨h.field, hm.fields⟩, hm.enums,
    List.forall_mem_append.mpr ⟨fun m hmem => h.message m (Option.mem_toList.mp hmem), hm.messages⟩,
    hm.extendBlocks⟩

theorem tells_oneofMember (hbody : ReadsRising source body) (name : String)
    {x : MessageDecl × Options} (hx : x.1.Rising source) {word : String} {n : Nat} {t : Located}
    (ht : t.token = .ident word) :
    Tells source (Took source n t) (oneofMember levels body name x word t) fun y s =>
      y.1.Rising source ∧ s.Within source := by
  unfold oneofMember
  refine .ite (fun _ => ?_) fun _ => .ite (fun hlabel => ?_) fun _ => ?_
  · exact .andThen (fun _ hs => hs.within) fun options => .pure fun _ hs => ⟨hx, hs⟩
  · exact .fail fun _ hs => .token hs.token ⟨word, ht, hlabel⟩
  · rw [← bind_assoc]
    exact (tells_pushBack_field hbody (some name) ht).bind fun parsed => .pure fun s hs =>
      ⟨rising_addField hx hs.1, hs.2⟩

theorem tells_oneof (hbody : ReadsRising source (messageBody levels)) {m : MessageDecl}
    (hm : m.Rising source) {n : Nat} {t : Located} :
    Tells source (Took source n t) (oneof levels (messageBody levels) m) fun m s =>
      m.Rising source ∧ s.Within source := by
  unfold oneof
  refine tells_name.bind fun name => .andThen (fun _ ⟨_, hs⟩ => hs.within) fun _ => ?_
  refine .bind (tells_body (J := fun x => x.1.Rising source) (.oneof _ levels name)
    (fun x word n t ht hx => tells_oneofMember hbody name hx ht) (fun _ hs => hs) hm) fun x =>
      .pure fun s hs => ?_
  obtain ⟨⟨hbegins, hfields, henums, hmessages, hblocks⟩, hs⟩ := hs
  exact ⟨⟨hbegins, hfields, henums, hmessages, hblocks⟩, hs⟩

theorem tells_extendMember (hbody : ReadsRising source body) {b : ExtendDecl}
    (hb : ExtendDecl.Stands source b) {word : String} {n : Nat} {t : Located} (ht : t.token = .ident word) :
    Tells source (Took source n t) (extendMember levels body b word t) fun b s =>
      ExtendDecl.Stands source b ∧ s.Within source := by
  unfold extendMember
  refine (tells_labelledField hbody ht).bind fun parsed => .pure fun s hs => ⟨⟨hb.begins, ?_, ?_⟩, hs.2⟩
  · exact List.forall_mem_cons.mpr ⟨hs.1.field, hb.fields⟩
  · exact List.forall_mem_append.mpr ⟨fun m hm => hs.1.message m (Option.mem_toList.mp hm), hb.messages⟩

theorem tells_extendBlock (hbody : ReadsRising source (messageBody levels)) {n : Nat} {t : Located}
    (ht : t.token = .ident "extend") :
    Tells source (Took source n t) (extendBlock levels (messageBody levels) t.line) fun b s =>
      ExtendDecl.Stands source b ∧ s.Within source := by
  unfold extendBlock
  refine .opens ht fun hopens => ?_
  refine .bind ((tells_path (n + 1)).weaken fun _ hs => hs.next) fun extendee => ?_
  refine .elim fun line' => .known (fun s hs => hs.token) fun hextendee => ?_
  refine .andThen (fun _ hs => hs.within) fun _ => ?_
  refine .bind (tells_body (J := ExtendDecl.Stands source) (.extendBlock _ levels)
    (fun b word n t ht hb => tells_extendMember hbody hb ht) (fun _ hs => hs)
    ⟨⟨_, .more hopens hextendee⟩, by simp, by simp⟩) fun b => .pure fun s hs => ?_
  exact ⟨⟨hs.1.begins, fun f hf => hs.1.fields f (List.mem_reverse.mp hf),
    fun m hm => hs.1.messages m (List.mem_reverse.mp hm)⟩, hs.2⟩

theorem tells_message (hbody : ReadsRising source body) {n : Nat} {t : Located}
    (ht : t.token = .ident "message") :
    Tells source (Took source n t) (message body t.line) fun m s =>
      m.Stands source ∧ s.Within source := by
  unfold message
  refine .opens ht fun hopens => (tells_name_opens hopens).bind fun name => ?_
  refine .known (fun s hs => hs.1) fun hname => ?_
  exact (hbody _ (.empty (.inl ⟨_, hname⟩))).weaken fun s hs => hs.2

theorem tells_messageMember (hbody : ReadsRising source (messageBody levels)) {m : MessageDecl}
    (hm : m.Rising source) {word : String} {n : Nat} {t : Located} (ht : t.token = .ident word) :
    Tells source (Took source n t) (messageMember levels (messageBody levels) m word t) fun m s =>
      m.Rising source ∧ s.Within source := by
  have hlabelled : Tells source (Took source n t)
      (labelledField levels (messageBody levels) word t >>= fun parsed => pure (addField m parsed))
      fun m s => m.Rising source ∧ s.Within source :=
    (tells_labelledField hbody ht).bind fun parsed => .pure fun s hs => ⟨rising_addField hm hs.1, hs.2⟩
  obtain ⟨hbegins, hfields, henums, hmessages, hblocks⟩ := id hm
  simp only [messageMember]
  split
  · exact (tells_message hbody ht).bind fun inside => .pure fun s hs =>
      ⟨⟨hbegins, hfields, henums, List.forall_mem_cons.mpr ⟨hs.1, hmessages⟩, hblocks⟩, hs.2⟩
  · exact (tells_enumeration levels ht).bind fun e => .pure fun s hs =>
      ⟨⟨hbegins, hfields, List.forall_mem_cons.mpr ⟨hs.1, henums⟩, hmessages, hblocks⟩, hs.2⟩
  · exact tells_oneof hbody hm
  · exact .andThen (fun _ hs => hs.within) fun found => .pure fun s hs =>
      ⟨⟨hbegins, hfields, henums, hmessages, hblocks⟩, hs⟩
  · exact .andThen (fun _ hs => hs.within) fun found => .pure fun s hs =>
      ⟨⟨hbegins, hfields, henums, hmessages, hblocks⟩, hs⟩
  · exact .andThen (fun _ hs => hs.within) fun options => .pure fun s hs =>
      ⟨⟨hbegins, hfields, henums, hmessages, hblocks⟩, hs⟩
  · exact (tells_extendBlock hbody ht).bind fun b => .pure fun s hs =>
      ⟨⟨hbegins, hfields, henums, hmessages, List.forall_mem_cons.mpr ⟨hs.1, hblocks⟩⟩, hs.2⟩
  · refine (tells_peek_map n ht).bind fun u => ?_
    split
    · exact (tells_mapField levels ht).bind fun decl => .pure fun s hs =>
        ⟨rising_addField hm hs.1, hs.2⟩
    · exact hlabelled
  · exact hlabelled

theorem readsRising_messageBody (levels : Nat) : ReadsRising source (messageBody levels) := by
  induction levels with
  | zero =>
    intro m _
    rw [messageBody]
    refine .elim fun n => (tells_expectSymbol '\x7b' n).bind fun _ => ?_
    exact tells_nestingTooDeep.weaken fun s hs => ⟨n, hs⟩
  | succ levels ih =>
    intro m hm
    rw [messageBody]
    refine .andThen (fun _ hs => hs) fun _ => .map
      (R := fun m s => MessageDecl.Stands source m ∧ Within source s) ?_
    exact .imp (tells_body (J := MessageDecl.Rising source) (.message _ levels)
      (fun m word n t ht hm => tells_messageMember ih hm ht) (fun _ hs => hs) hm)
      fun m s hs => ⟨hs.1.stands, hs.2⟩

/-! ### Files -/

theorem tells_packageStatement {f : FileDecl} (hf : f.Stands source) {n : Nat} {t : Located}
    (ht : t.token = .ident "package") :
    Tells source (Took source n t) (packageStatement f t.line) fun f s =>
      f.Stands source ∧ s.Within source := by
  obtain ⟨hmessages, henums, hservices, hblocks⟩ := hf
  unfold packageStatement
  extract_lets rest
  refine .known (fun s hs => hs.token) fun htoken => .check (fun _ _ _ => .token htoken ht) fun _ => ?_
  refine .andThen (fun _ hs => hs.within) fun package => ?_
  extract_lets rest'
  exact .check (fun _ _ _ => .token htoken ht) fun _ => .andThen (fun _ hs => hs) fun _ =>
    .pure fun s hs => ⟨⟨hmessages, henums, hservices, hblocks⟩, hs⟩

theorem tells_statement {f : FileDecl} (hf : f.Stands source) {word : String} {n : Nat} {t : Located}
    (ht : t.token = .ident word) :
    Tells source (Took source n t) (statement f word t) fun f s => f.Stands source ∧ s.Within source := by
  have hbody : ReadsRising source (messageBody maxNesting) := readsRising_messageBody maxNesting
  obtain ⟨hmessages, henums, hservices, hblocks⟩ := id hf
  unfold statement
  extract_lets line
  split
  · exact (tells_dialectStatement ht).bind fun _ => .pure fun s hs => ⟨hf, hs⟩
  · exact tells_packageStatement hf ht
  · exact .andThen (fun _ hs => hs.within) fun path => .pure fun s hs =>
      ⟨⟨hmessages, henums, hservices, hblocks⟩, hs⟩
  · exact .andThen (fun _ hs => hs.within) fun options => .pure fun s hs =>
      ⟨⟨hmessages, henums, hservices, hblocks⟩, hs⟩
  · exact (tells_message hbody ht).bind fun m => .pure fun s hs =>
      ⟨⟨List.forall_mem_cons.mpr ⟨hs.1, hmessages⟩, henums, hservices, hblocks⟩, hs.2⟩
  · exact (tells_enumeration maxNesting ht).bind fun e => .pure fun s hs =>
      ⟨⟨hmessages, List.forall_mem_cons.mpr ⟨hs.1, henums⟩, hservices, hblocks⟩, hs.2⟩
  · exact (tells_service maxNesting ht).bind fun d => .pure fun s hs =>
      ⟨⟨hmessages, henums, List.forall_mem_cons.mpr ⟨hs.1, hservices⟩, hblocks⟩, hs.2⟩
  · exact (tells_extendBlock hbody ht).bind fun b => .pure fun s hs =>
      ⟨⟨hmessages, henums, hservices, List.forall_mem_cons.mpr ⟨hs.1, hblocks⟩⟩, hs.2⟩
  · exact .fail fun _ hs => .token hs.token rfl

theorem tells_file (source : String) :
    Tells source (At source 0) file fun f _ => f.Stands source := by
  unfold file
  have hstep : ∀ f, Tells source (fun s => f.Stands source ∧ s.Within source) (fileStep f)
      (Sum.elim (fun f s => f.Stands source ∧ s.Within source) fun f s =>
        f.Stands source ∧ s.Within source) := by
    intro f
    refine .known (fun s hs => hs.1) fun hf => .weaken (P := Within source) ?_ fun s hs => hs.2
    refine .elim fun n => (tells_next n).bind fun t => ?_
    split
    · exact .pure fun _ hs => ⟨hf, hs.within⟩
    · exact .pure fun _ hs => ⟨hf, hs.within⟩
    · exact (tells_statement hf ‹_›).bind fun f => .pure fun _ hs => hs
    · exact .fail fun _ hs => .token hs.token rfl
  refine .bind (.weaken (.iterate .file (fun _ _ hs => hs.2.ends) hstep {})
    fun s hs => ⟨⟨by simp, by simp, by simp, by simp⟩, hs.within⟩) fun f => ?_
  refine .known (fun s hs => hs.1) fun hf => (Tells.dialect (Q := fun _ _ => True) fun _ _ _ => trivial).bind
    fun d => .pure fun s _ => ?_
  exact ⟨fun m hm => hf.messages m (List.mem_reverse.mp hm), fun e he => hf.enums e (List.mem_reverse.mp he),
    fun d hd => hf.services d (List.mem_reverse.mp hd),
    fun b hb => hf.extendBlocks b (List.mem_reverse.mp hb)⟩

end Parser

/-- What is read from a text stands in it, and what is refused is told. -/
theorem told_of_parse (source : String) :
    (∀ file, parse source = .ok file → file.Stands source) ∧
      ∀ e, parse source = .error e → e.Told source := by
  have hfile := Parser.tells_file source _ (ParserState.At.start source)
  rw [parse_eq]
  cases hrun : Parser.file.run (.ofString source) with
  | ok r =>
    rw [hrun] at hfile
    exact ⟨fun file h => by cases h; exact hfile, fun e h => by cases h⟩
  | error e =>
    rw [hrun] at hfile
    exact ⟨fun file h => (by cases h), fun e h => by cases h; exact hfile⟩

/-- Where lines come from. The line of a token falls short by the line breaks in string literals before it,
and is right exactly if there are none; so it is with the line of a failure in the place of a token. The line
of a declaration is that of the token which it begins with, and the line of an error of the grammar that of a
token which the error is about, or that in front of an illegal name. -/
theorem line_traced (source : String) :
    (∀ n t, Lexer.nth source n = .ok t → Lexer.Placed source n t ∧
      (t.line = 1 + (Lexer.before source n).count '\n' ↔ ∀ i < n, '\n' ∉ Lexer.lexeme source i)) ∧
    (∀ n e, Lexer.nth source n = .error e → (∃ opened, e = .malformed opened .unterminatedComment) ∨
      e.line + Lexer.hidden source n = 1 + (Lexer.before source n).count '\n') ∧
    (∀ file, parse source = .ok file → file.Stands source) ∧
    ∀ e, parse source = .error e → e.Told source :=
  ⟨fun _ _ h => ⟨Lexer.placed h, (Lexer.placed h).line_eq_iff⟩, fun _ _ => Lexer.line_of_nth_eq_error,
    told_of_parse source⟩

/-- The lines of an enum, of a number in the place of one of its values, and of a character that begins no
token. -/
theorem line_traced_enum :
    (Lexer.nth "\nenum E {}" 0 = .ok ⟨.ident "enum", 2⟩ ∧
      Lexer.Placed "\nenum E {}" 0 ⟨.ident "enum", 2⟩) ∧
    (Lexer.nth "a\n#" 1 = .error (.illegalCharacter 2 '#') ∧
      2 + Lexer.hidden "a\n#" 1 = 1 + (Lexer.before "a\n#" 1).count '\n') ∧
    (∃ file, parse "\nenum E {}" = .ok file ∧ file.enums.map (·.line) = [2] ∧
      file.Stands "\nenum E {}") ∧
    ∃ e, parse "enum E \x7b\n1\x7d" = .error e ∧ e.line = 2 ∧ e.Told "enum E \x7b\n1\x7d" := by
  have htoken : Lexer.nth "\nenum E {}" 0 = .ok ⟨.ident "enum", 2⟩ := by decide
  have hfailure : Lexer.nth "a\n#" 1 = .error (.illegalCharacter 2 '#') := by decide
  have hfile : parse "\nenum E {}" =
      .ok { enums := [{ name := "E", values := [], options := {}, line := 2 }] } := by cbv
  have herror : parse "enum E \x7b\n1\x7d" =
      .error (.malformed 2 (.unexpected (.int 1) (.enumeration "E"))) := by cbv
  exact ⟨⟨htoken, ((line_traced _).1 _ _ htoken).1⟩,
    ⟨hfailure, ((line_traced _).2.1 _ _ hfailure).resolve_left (by simp)⟩,
    ⟨_, hfile, rfl, (line_traced _).2.2.1 _ hfile⟩, ⟨_, herror, rfl, (line_traced _).2.2.2 _ herror⟩⟩

/-- A line break in a string literal is not counted: the word behind the literal is on the second line. -/
theorem line_escaped :
    ∃ t, Lexer.nth "\"\\\n\" x" 1 = .ok t ∧ t.line ≠ 1 + (Lexer.before "\"\\\n\" x" 1).count '\n' :=
  ⟨⟨.ident "x", 1⟩, by decide⟩

/-- What the line that is current says. It falls short of the line of the next token by the line breaks on
the way there, and so it is right exactly if there are none. An error about a name with a dot carries the
line of the token in front of the name, which is right exactly if there are no line breaks between them,
unless that token is the word `map`: behind that, the name may have been looked at, and the line is right. -/
theorem currentLine_lags (source : String) :
    (∀ (l l' : Lexer) (t : Located), l.next = (.ok t, l') →
      t.line = l.currentLine + l.gap.count '\n' ∧ (l.currentLine = t.line ↔ '\n' ∉ l.gap)) ∧
    ∀ line text, parse source = .error (.malformed line (.illegalName text)) →
      ∃ k before name, Lexer.nth source k = .ok before ∧ Lexer.nth source (k + 1) = .ok name ∧
        name.token = .ident text ∧
        name.line = before.line + (Lexer.after source (k + 1)).gap.count '\n' ∧
        (line = before.line ∧ (line = name.line ↔ '\n' ∉ (Lexer.after source (k + 1)).gap) ∨
          before.token = .ident "map" ∧ line = name.line) := by
  have hright : ∀ {gap : List Char} {line line' : Nat}, line' = line + gap.count '\n' →
      (line = line' ↔ '\n' ∉ gap) := by
    intro gap line line' h
    rw [h, ← List.count_eq_zero]
    omega
  refine ⟨fun l l' t h => ⟨Lexer.line_next h, hright (Lexer.line_next h)⟩, fun line text h => ?_⟩
  have hname := (told_of_parse source).2 _ h
  generalize he : ParseError.malformed line (.illegalName text) = e at hname
  cases hname with
  | scanner hfails _ =>
    subst he
    have hlexical := Scanner.isLexical_of_next (Prod.ext ((Lexer.nth_eq _ _).symm.trans hfails) rfl)
    cases hlexical
  | token _ hfault =>
    cases he
    cases hfault
  | front hbefore hname =>
    cases he
    have hline := Lexer.line_nth_succ hbefore hname
    exact ⟨_, _, _, hbefore, hname, rfl, hline, .inl ⟨rfl, hright hline⟩⟩
  | name hbefore hname =>
    cases he
    exact ⟨_, _, _, hbefore, hname, rfl, Lexer.line_nth_succ hbefore hname, .inr ⟨rfl, rfl⟩⟩

/-- A name with a dot on the line of the word in front of it. -/
theorem currentLine_lags_message :
    ((Lexer.ofString "a").next = (.ok ⟨.ident "a", 1⟩, ⟨⟨[], 1⟩, []⟩) ∧
      (Lexer.ofString "a").currentLine = 1) ∧
    parse "message a.b {}" = .error (.malformed 1 (.illegalName "a.b")) ∧
    ∃ k before name, Lexer.nth "message a.b {}" k = .ok before ∧
      Lexer.nth "message a.b {}" (k + 1) = .ok name ∧ name.token = .ident "a.b" ∧
      name.line = before.line + (Lexer.after "message a.b {}" (k + 1)).gap.count '\n' ∧
      (1 = before.line ∧ (1 = name.line ↔ '\n' ∉ (Lexer.after "message a.b {}" (k + 1)).gap) ∨
        before.token = .ident "map" ∧ 1 = name.line) := by
  have hnext : (Lexer.ofString "a").next = (.ok ⟨.ident "a", 1⟩, ⟨⟨[], 1⟩, []⟩) := by decide
  have herror : parse "message a.b {}" = .error (.malformed 1 (.illegalName "a.b")) := by cbv
  exact ⟨⟨hnext, ((currentLine_lags "a").1 _ _ _ hnext).2.mpr (by decide)⟩, herror,
    (currentLine_lags "message a.b {}").2 _ _ herror⟩

/-- The line is not that of the next token, nor that of the name in the error. -/
theorem currentLine_lags_break :
    (Lexer.ofString "\na").currentLine = 1 ∧ (Lexer.ofString "\na").next.1 = .ok ⟨.ident "a", 2⟩ ∧
    parse "message\na.b {}" = .error (.malformed 1 (.illegalName "a.b")) ∧
    Lexer.nth "message\na.b {}" 1 = .ok ⟨.ident "a.b", 2⟩ :=
  ⟨rfl, by decide, by cbv, by decide⟩

end Schema

end Protobuf

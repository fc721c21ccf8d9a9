import Protobuf.Proofs.Schema.Reading
import Protobuf.Proofs.Schema.Spelling

/-!
# Integers for options

Where an integer is spelled as the value of an option, the grammar makes it a constant, whichever way it
is spelled. It is refused if it fits no word of 64 bits, with sign or without. From there on the text is
followed outwards: the options of a field, the field, its message, and a file with that message.

## Main definitions

* `Constant.ofInt?` — the constant of an integer.
* `IntegerField` — a field with an integer for its default, and its text.

## Main results

* `Parser.reads_constant` — the constant that is read where an integer is spelled
* `parse_source`, `parse_source_refused` — what is read of a file with one such field
-/

namespace Protobuf

theorem IntRange.mem_iff {v : Int} {r : IntRange} : v ∈ r ↔ r.lo ≤ v ∧ v ≤ r.hi :=
  Iff.rfl

/-- The constant that is read for an integer; for one that fits no word of 64 bits there is none. -/
def Constant.ofInt? (z : Int) : Option Constant :=
  if z ∈ IntRange.int64 then some (.int z)
  else if z ∈ IntRange.uint64 then some (.uint z.toNat)
  else none

namespace Schema

namespace Parser

variable {place : Scanner} {n : Nat} {digits rest : List Char} {z : Int}

/-- A number below `2 ^ 64` makes the constant of its integer, with the sign that stands in front. -/
theorem reads_integerConstant (hn : n < UInt64.size) (negative : Bool) (line : Nat) :
    Reads (integerConstant n negative line) place
      ((Constant.ofInt? (if negative then -n else n)).map fun c => (c, place)) := by
  unfold integerConstant
  extract_lets value
  have hvalue : (if negative = true then -(n : Int) else n) = value := rfl
  rw [hvalue, Constant.ofInt?]
  by_cases hmem : value ∈ IntRange.int64
  · rw [if_pos hmem, if_pos hmem]
    exact .pure _
  · rw [if_neg hmem, if_neg hmem]
    simp only [IntRange.mem_iff, IntRange.int64, IntRange.uint64, UInt64.size] at hmem hn ⊢
    cases negative with
    | true =>
      rw [if_pos rfl, if_neg]
      · exact .fail _ _
      · simp only [if_true, value] at hmem ⊢
        omega
    | false =>
      rw [if_neg (by simp), if_pos]
      · exact .pure _
      · simp only [Bool.false_eq_true, if_false, value] at hmem ⊢
        omega

/-- Where a numeral stands, the number makes the constant of its integer. -/
theorem reads_numeral (negative : Bool) {f : Located → Parser Constant} (h : Numeral digits n)
    (hrest : Apart rest) (line : Nat) (hf : f ⟨.int n, line⟩ = integerConstant n negative line) :
    Reads (next >>= f) ⟨digits ++ rest, line⟩
      ((Constant.ofInt? (if negative then -n else n)).map fun c => (c, ⟨rest, line⟩)) := by
  obtain ⟨fault, hnext⟩ := Scanner.next_numeral h hrest line
  by_cases hn : n < UInt64.size
  · rw [if_pos hn] at hnext
    refine (reads_next hnext (by simp)).bind ?_
    rw [hf]
    exact reads_integerConstant hn negative line
  · rw [if_neg hn] at hnext
    have hint : (if negative then -(n : Int) else n) ∉ IntRange.int64 := by
      simp only [IntRange.mem_iff, IntRange.int64, UInt64.size] at hn ⊢
      split <;> omega
    have huint : (if negative then -(n : Int) else n) ∉ IntRange.uint64 := by
      simp only [IntRange.mem_iff, IntRange.uint64, UInt64.size] at hn ⊢
      split <;> omega
    rw [Constant.ofInt?, if_neg hint, if_neg huint]
    exact (reads_next_failure hnext).refused

/-- Where an integer is spelled, its constant is read, or the text is refused if the integer fits no word
of 64 bits. -/
theorem reads_constant (levels : Nat) (h : Spelling digits z) (hrest : Apart rest) (line : Nat) :
    Reads (constant levels) ⟨digits ++ rest, line⟩
      ((Constant.ofInt? z).map fun c => (c, ⟨rest, line⟩)) := by
  unfold constant constantWith
  cases h with
  | plain h => exact reads_numeral false h hrest line rfl
  | @plus digits n h =>
    refine (reads_next (Scanner.next_symbol (by decide) (by decide) _ _) (by simp)).bind ?_
    exact reads_numeral false h hrest line rfl
  | @minus digits n h =>
    refine (reads_next (Scanner.next_symbol (by decide) (by decide) _ _) (by simp)).bind ?_
    exact reads_numeral true h hrest line rfl

/-! ### Names, numbers and marks -/

theorem reads_word {word : String} (h : IsName word) (hrest : Apart rest) (line : Nat) :
    Reads next ⟨word.toList ++ rest, line⟩ (some (⟨.ident word, line⟩, ⟨rest, line⟩)) :=
  reads_next (Scanner.next_name h hrest line) (by simp)

theorem reads_spelledName {text : String} (h : IsName text) (hrest : Apart rest) (line : Nat) :
    Reads name ⟨text.toList ++ rest, line⟩ (some (text, ⟨rest, line⟩)) :=
  reads_name (Scanner.next_name h hrest line) (Path.plain_iff.mp h.plain)

theorem reads_spelledId {id : UInt32} (h : Numeral digits id.toNat) (hrest : Apart rest) (line : Nat) :
    Reads fieldId ⟨digits ++ rest, line⟩ (some (id, ⟨rest, line⟩)) := by
  obtain ⟨fault, hnext⟩ := Scanner.next_numeral h hrest line
  rw [if_pos (Nat.lt_trans id.toNat_lt (by decide))] at hnext
  have hread := reads_fieldId hnext id.toNat_lt
  rwa [Nat.toUInt32_eq, UInt32.ofNat_toNat] at hread

theorem reads_mark {c : Char} (hc : c ∈ punctuation) (hdot : c ≠ '.') (rest : List Char) (line : Nat) :
    Reads (expectSymbol c) ⟨c :: rest, line⟩ (some ((), ⟨rest, line⟩)) :=
  reads_expectSymbol (Scanner.next_symbol hc hdot rest line)

/-- No numeral and no name goes on with a space or a bracket. -/
theorem apart_space (rest : List Char) : Apart (' ' :: rest) :=
  .cons rfl (by decide) rest

theorem apart_bracket (rest : List Char) : Apart (']' :: rest) :=
  .cons rfl (by decide) rest

/-! ### Options -/

/-- The name of an option ends in front of an equals sign. -/
theorem reads_optionName {word : String} (h : IsName word) (rest : List Char) (line : Nat) :
    Reads optionName ⟨word.toList ++ ' ' :: '=' :: rest, line⟩
      (some (word, ⟨' ' :: '=' :: rest, line⟩)) := by
  have hstep : Reads (optionNameStep word) ⟨' ' :: '=' :: rest, line⟩
      (some (.inr word, ⟨' ' :: '=' :: rest, line⟩)) :=
    (reads_peek (t := ⟨.symbol '=', line⟩) rfl (by simp)).bind (.pure _)
  refine (reads_word h (apart_space _) line).bind ?_
  exact (Reads.pure word).bind (.iterate .optionName (hstep.bind (.pure _)))

theorem reads_fieldOptions (levels : Nat) (h : Spelling digits z) (rest : List Char) (line : Nat) :
    Reads (fieldOptions levels)
      ⟨' ' :: '[' :: ("default".toList ++ ' ' :: '=' :: ' ' :: (digits ++ ']' :: rest)), line⟩
      ((Constant.ofInt? z).map fun c => (Options.insert {} "default" c, ⟨rest, line⟩)) := by
  have hconstant : Reads (constant levels) ⟨digits ++ ']' :: rest, line⟩
      ((Constant.ofInt? z).map fun c => (c, ⟨']' :: rest, line⟩)) :=
    reads_constant levels h (apart_bracket rest) line
  have hsetting : Reads (optionSetting levels)
      ⟨"default".toList ++ ' ' :: '=' :: ' ' :: (digits ++ ']' :: rest), line⟩
      ((Constant.ofInt? z).map fun c => (("default", c), ⟨']' :: rest, line⟩)) :=
    (reads_optionName ⟨rfl, rfl⟩ _ line).bind
      ((reads_mark (by decide) (by decide) _ line).space.bind
        (hconstant.space.bindMap fun c => .pure _))
  have hstep : Reads (settingStep levels {})
      ⟨"default".toList ++ ' ' :: '=' :: ' ' :: (digits ++ ']' :: rest), line⟩
      ((Constant.ofInt? z).map fun c => (.inr (Options.insert {} "default" c), ⟨rest, line⟩)) :=
    hsetting.bindMap fun c =>
      (reads_next (Scanner.next_symbol (by decide) (by decide) _ _) (by simp)).bind (.pure _)
  have hopen := reads_acceptSymbol (Scanner.next_symbol (c := '[') (by decide) (by decide)
    ("default".toList ++ ' ' :: '=' :: ' ' :: (digits ++ ']' :: rest)) line)
  exact hopen.space.bind (.iterate (.fieldOptions levels) (hstep.bindMap fun c => .pure _))

end Parser

/-! ### Fields and messages -/

/-- The text of a file with a message that has one field with a default. -/
def defaultSource (header message : String) (rule : Rule) (typeName name number value : String) :
    String :=
  header ++ "message " ++ message ++ " \x7b " ++ rule.name ++ " " ++ typeName ++ " " ++ name ++ " = " ++
    number ++ " [default = " ++ value ++ "]; \x7d"

example : defaultSource "" "M" .optional "int32" "a" "1" "-0x80" =
    "message M \x7b optional int32 a = 1 [default = -0x80]; \x7d" := by decide

/-- A field of one value that has an integer for its default, and how its number and the integer are
spelled. -/
structure IntegerField where
  rule : Rule
  typeName : String
  name : String
  id : UInt32
  number : String
  value : Int
  digits : String
  single : rule = .optional ∨ rule = .required
  isName_typeName : IsName typeName
  typeName_ne_group : typeName ≠ "group"
  isName : IsName name
  numeral : Numeral number.toList id.toNat
  spelling : Spelling digits.toList value

namespace IntegerField

variable (f : IntegerField)

/-- What the field declares if its integer makes the constant `c`. -/
def decl (line : Nat) (c : Constant) : FieldDecl :=
  { rule := f.rule, typeName := f.typeName, keyType := none, name := f.name, id := f.id,
    options := Options.insert {} "default" c, oneof := none, line }

/-- The text of the options of the field, and the text behind the field. -/
def optionText (rest : List Char) : List Char :=
  ' ' :: '[' :: ("default".toList ++ ' ' :: '=' :: ' ' :: (f.digits.toList ++ ']' :: ';' :: rest))

/-- The text of the field from behind its type. -/
def namedText (rest : List Char) : List Char :=
  ' ' :: (f.name.toList ++ ' ' :: '=' :: ' ' :: (f.number.toList ++ f.optionText rest))

/-- The text of the field from behind its label. -/
def typedText (rest : List Char) : List Char :=
  ' ' :: (f.typeName.toList ++ f.namedText rest)

/-- The text of the field. -/
def text (rest : List Char) : List Char :=
  f.rule.name.toList ++ f.typedText rest

/-- What a message declares that has the field and nothing else. -/
def messageDecl (message : String) (line : Nat) (c : Constant) : MessageDecl :=
  { name := message, fields := [f.decl line c], line }

/-- The text of a message that has the field and nothing else, from behind its name. -/
def bodyText (rest : List Char) : List Char :=
  ' ' :: '\x7b' :: ' ' :: f.text (' ' :: '\x7d' :: rest)

/-- What a file declares that has such a message and nothing else. -/
def fileDecl (message : String) (c : Constant) : FileDecl :=
  { messages := [f.messageDecl message 1 c] }

/-- The text of a file with such a message. -/
def source (header message : String) : String :=
  defaultSource header message f.rule f.typeName f.name f.number f.digits

theorem toList_source (header message : String) : (f.source header message).toList =
    header.toList ++ ("message".toList ++ ' ' :: (message.toList ++ f.bodyText [])) := by
  simp [source, defaultSource, bodyText, text, typedText, namedText, optionText]

end IntegerField

namespace Parser

variable (f : IntegerField) {place : Scanner}

/-- A field is read from behind its type. -/
theorem reads_typedField (levels : Nat) (body : BodyReader) (rest : List Char) (line start : Nat) :
    Reads (typedField levels body f.rule f.typeName none start) ⟨f.namedText rest, line⟩
      ((Constant.ofInt? f.value).map fun c => ((f.decl start c, none), ⟨rest, line⟩)) := by
  unfold typedField
  rw [if_neg f.typeName_ne_group]
  refine (Reads.space (reads_spelledName f.isName (apart_space _) line)).bind ?_
  refine (Reads.space (reads_mark (by decide) (by decide) _ line)).bind ?_
  refine (Reads.space (reads_spelledId f.numeral (apart_space _) line)).bind ?_
  refine (reads_fieldOptions levels f.spelling _ line).bindMap fun c => ?_
  exact (reads_mark (by decide) (by decide) _ line).bind (.pure _)

theorem reads_fieldRule (rule : Rule) (line : Nat) :
    Reads (fieldRule (some rule) none line) place (some (rule, place)) := by
  unfold fieldRule
  refine reads_dialect.bind ?_
  cases rule <;> exact .pure _

/-- A member of a message with a label in front is a field. -/
theorem reads_messageMember (levels : Nat) (body : BodyReader) (m : MessageDecl) (rest : List Char)
    (line : Nat) (t : Located) :
    Reads (messageMember levels body m f.rule.name t) ⟨f.typedText rest, line⟩
      ((Constant.ofInt? f.value).map fun c => (addField m (f.decl t.line c, none), ⟨rest, line⟩)) := by
  have hpath : Reads path ⟨f.typeName.toList ++ f.namedText rest, line⟩
      (some (f.typeName, ⟨f.namedText rest, line⟩)) :=
    reads_path (Scanner.next_name f.isName_typeName (apart_space _) line)
  have hfield : Reads (field levels body (some f.rule) none t.line) ⟨f.typedText rest, line⟩
      ((Constant.ofInt? f.value).map fun c => ((f.decl t.line c, none), ⟨rest, line⟩)) :=
    (reads_fieldRule f.rule t.line).bind
      (hpath.space.bind (reads_typedField f levels body rest line t.line))
  have hmember : messageMember levels body m f.rule.name t =
      (field levels body (some f.rule) none t.line >>= fun parsed => pure (addField m parsed)) := by
    rcases f.single with hrule | hrule <;> rw [hrule] <;> rfl
  rw [hmember]
  exact hfield.bindMap fun c => .pure _

/-- The body of a message with one field takes two rounds, one for the field and one for the brace. -/
theorem reads_messageBody (levels : Nat) (message : String) (rest : List Char) (line : Nat) :
    Reads (messageBody (levels + 1) { name := message, line }) ⟨f.bodyText rest, line⟩
      ((Constant.ofInt? f.value).map fun c => (f.messageDecl message line c, ⟨rest, line⟩)) := by
  have hlabel : IsName f.rule.name := by
    rcases f.single with hrule | hrule <;> rw [hrule] <;> exact ⟨rfl, rfl⟩
  have hfield (m : MessageDecl) :
      Reads (bodyStep (.message message) (messageMember levels (messageBody levels)) m)
        ⟨f.text (' ' :: '\x7d' :: rest), line⟩ ((Constant.ofInt? f.value).map fun c =>
          (.inl (addField m (f.decl line c, none)), ⟨' ' :: '\x7d' :: rest, line⟩)) := by
    refine (reads_word hlabel (apart_space _) line).bind ?_
    exact (reads_messageMember f levels _ m _ line _).bindMap fun c => .pure _
  have hbrace (m : MessageDecl) :
      Reads (bodyStep (.message message) (messageMember levels (messageBody levels)) m)
        ⟨'\x7d' :: rest, line⟩ (some (.inr m, ⟨rest, line⟩)) :=
    (reads_next (Scanner.next_symbol (by decide) (by decide) _ _) (by simp)).bind (.pure _)
  have hmembers : Reads (Parser.body (.message message) (messageMember levels (messageBody levels))
      { name := message, line }) ⟨' ' :: f.text (' ' :: '\x7d' :: rest), line⟩
      ((Constant.ofInt? f.value).map fun c =>
        (addField { name := message, line } (f.decl line c, none), ⟨rest, line⟩)) :=
    .iterate (.message _ levels)
      ((hfield _).space.bindMap fun c => .iterate (.message _ levels) ((hbrace _).space.bind (.pure _)))
  unfold messageBody
  exact (reads_mark (by decide) (by decide) _ line).space.bind hmembers.map

/-! ### Files -/

/-- A statement that sets the dialect to `proto2`. -/
theorem reads_fileStep_dialect (file : FileDecl) (rest : List Char) (line : Nat) :
    Reads (fileStep file)
      ⟨"syntax".toList ++ ' ' :: '=' :: ' ' :: '"' :: ("proto2".toList ++ '"' :: ';' :: rest), line⟩
      (some (.inl file, ⟨rest, line⟩)) := by
  have hliteral : Reads stringLiteral ⟨'"' :: ("proto2".toList ++ '"' :: ';' :: rest), line⟩
      (some ("proto2", ⟨';' :: rest, line⟩)) := by
    refine (reads_next (Scanner.next_quoted (by simp) _ line) (by simp)).bind ?_
    rw [String.ofList_toList]
    exact .pure _
  have hset : Reads (modify fun s : ParserState => { s with dialect := .proto2 })
      ⟨';' :: rest, line⟩ (some ((), ⟨';' :: rest, line⟩)) :=
    fun s hs => .given ⟨hs.tokens, rfl⟩
  have hdialect : Reads (dialectStatement line)
      ⟨' ' :: '=' :: ' ' :: '"' :: ("proto2".toList ++ '"' :: ';' :: rest), line⟩
      (some ((), ⟨rest, line⟩)) :=
    (reads_mark (by decide) (by decide) _ line).space.bind
      (hliteral.space.bind (hset.bind (reads_mark (by decide) (by decide) _ line)))
  have hstatement : Reads (statement file "syntax" ⟨.ident "syntax", line⟩)
      ⟨' ' :: '=' :: ' ' :: '"' :: ("proto2".toList ++ '"' :: ';' :: rest), line⟩
      (some (file, ⟨rest, line⟩)) :=
    hdialect.bind (.pure _)
  exact (reads_word ⟨rfl, rfl⟩ (apart_space _) line).bind (hstatement.bind (.pure _))

section

variable {message : String} (hmessage : IsName message)

include hmessage

/-- A message with one field is a statement of a file. -/
theorem reads_fileStep_message (file : FileDecl) (rest : List Char) (line : Nat) :
    Reads (fileStep file) ⟨"message".toList ++ ' ' :: (message.toList ++ f.bodyText rest), line⟩
      ((Constant.ofInt? f.value).map fun c =>
        (.inl { file with messages := f.messageDecl message line c :: file.messages },
          ⟨rest, line⟩)) := by
  have hname : Reads name ⟨message.toList ++ f.bodyText rest, line⟩
      (some (message, ⟨f.bodyText rest, line⟩)) :=
    reads_spelledName hmessage (apart_space _) line
  have hdecl : Reads (Parser.message (messageBody maxNesting) line)
      ⟨' ' :: (message.toList ++ f.bodyText rest), line⟩
      ((Constant.ofInt? f.value).map fun c => (f.messageDecl message line c, ⟨rest, line⟩)) :=
    hname.space.bind (reads_messageBody f 99 message rest line)
  have hstatement : Reads (statement file "message" ⟨.ident "message", line⟩)
      ⟨' ' :: (message.toList ++ f.bodyText rest), line⟩
      ((Constant.ofInt? f.value).map fun c =>
        ({ file with messages := f.messageDecl message line c :: file.messages }, ⟨rest, line⟩)) :=
    hdecl.bindMap fun c => .pure _
  exact (reads_word ⟨rfl, rfl⟩ (apart_space _) line).bind (hstatement.bindMap fun c => .pure _)

/-- A file with one message takes two rounds, and one more for the dialect if that is stated. -/
theorem reads_file {header : String} (hheader : header = "" ∨ header = "syntax = \"proto2\"; ") :
    Reads file (.ofString (f.source header message))
      ((Constant.ofInt? f.value).map fun c => (f.fileDecl message c, ⟨[], 1⟩)) := by
  have hend (decl : FileDecl) : Reads (fileStep decl) ⟨[], 1⟩ (some (.inr decl, ⟨[], 1⟩)) :=
    (reads_next_end rfl).bind (.pure _)
  have hmessages : Reads (iterate fileStep {})
      ⟨"message".toList ++ ' ' :: (message.toList ++ f.bodyText []), 1⟩
      ((Constant.ofInt? f.value).map fun c =>
        ({ messages := [f.messageDecl message 1 c] }, ⟨[], 1⟩)) :=
    .iterate .file ((reads_fileStep_message f hmessage {} [] 1).bindMap fun c =>
      .iterate .file ((hend _).bind (.pure _)))
  have hstatements : Reads (iterate fileStep {}) (.ofString (f.source header message))
      ((Constant.ofInt? f.value).map fun c =>
        ({ messages := [f.messageDecl message 1 c] }, ⟨[], 1⟩)) := by
    rw [Scanner.ofString, f.toList_source]
    rcases hheader with rfl | rfl
    · exact hmessages
    · exact .iterate .file ((reads_fileStep_dialect {} _ 1).bind hmessages.space)
  exact hstatements.bindMap fun c => reads_dialect.bind (.pure _)

end

end Parser

/-- What is read from the first place of a text on is what the text declares. -/
theorem parse_of_reads {text : String} {decl : FileDecl} {place : Scanner}
    (h : Parser.file.Reads (.ofString text) (some (decl, place))) : parse text = .ok decl := by
  have hfile := h (.ofString text) ⟨rfl, rfl⟩
  rw [parse_eq]
  generalize Parser.file.run (.ofString text) = result at hfile
  cases hfile
  rfl

theorem parse_of_refused {text : String} (h : Parser.file.Reads (.ofString text) none) :
    ∃ e, parse text = .error e := by
  have hfile := h (.ofString text) ⟨rfl, rfl⟩
  rw [parse_eq]
  generalize Parser.file.run (.ofString text) = result at hfile
  cases hfile
  exact ⟨_, rfl⟩

section

variable (f : IntegerField) {header message : String}
  (hheader : header = "" ∨ header = "syntax = \"proto2\"; ") (hmessage : IsName message)

include hheader hmessage

/-- A file with one field that has an integer for its default declares just that, if the integer makes a
constant. -/
theorem parse_source {c : Constant} (hc : Constant.ofInt? f.value = some c) :
    parse (f.source header message) = .ok (f.fileDecl message c) := by
  have hfile := Parser.reads_file f hmessage hheader
  rw [hc] at hfile
  exact parse_of_reads hfile

/-- The file is refused if the integer makes no constant. -/
theorem parse_source_refused (hc : Constant.ofInt? f.value = none) :
    ∃ e, parse (f.source header message) = .error e := by
  have hfile := Parser.reads_file f hmessage hheader
  rw [hc] at hfile
  exact parse_of_refused hfile

end

end Schema

end Protobuf

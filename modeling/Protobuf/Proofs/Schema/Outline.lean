import Protobuf.Proofs.Schema.Tokens

/-!
# Outlines of texts

How deep a text nests can be seen from its tokens, without the grammar. A brace opens the body of a
message, or of a group, an aggregate, an enum, or a block of another kind, and it can be seen from the
tokens in front of it which of these. Only messages and aggregates count. Braces in a statement of an
enum that reserves something stand for themselves, as the grammar skips such statements.

## Main definitions

* `Outline` — which braces are open at a place of the text, and how many have been at most.
* `Outline.next` — the outline behind one token more.
* `Schema.nesting` — how deep a text nests.
-/

namespace Protobuf.Schema

/-- What a brace opens. -/
inductive Brace where
  /-- The body of a message or of a group. -/
  | message
  /-- A value made of named values. -/
  | aggregate
  | enumeration
  /-- A oneof, a service, a method or an extension block. -/
  | block
  deriving DecidableEq

/-- The braces that count. -/
def Brace.nests : Brace → Bool
  | message => true
  | aggregate => true
  | enumeration => false
  | block => false

/-- How many of the braces count. -/
def depth (opened : List Brace) : Nat :=
  opened.countP Brace.nests

/-- What a brace opens behind a word and a name. -/
def Brace.ofWord : String → Brace
  | "message" => message
  | "enum" => enumeration
  | _ => block

/-- What a brace opens behind the given tokens, the last of which comes first. A message is told by the
word in front of its name, and a group by its number or the options behind that. -/
def braceBehind : List Token → Brace
  | .symbol '=' :: _ => .aggregate
  | .symbol ')' :: _ => .block
  | .ident _ :: .ident word :: _ => .ofWord word
  | .ident _ :: _ => .block
  | _ => .message

/-- The token is one of the marks that the structure of a text shows in. -/
def Token.isMark : Token → Bool
  | .symbol c => c = '\x7b' || c = '\x7d' || c = ';'
  | _ => false

/-- The structure of a text up to some place. -/
structure Outline where
  /-- The braces that are open, the innermost one first. -/
  opened : List Brace := []
  /-- The tokens in front of the place, the last one first. -/
  read : List Token := []
  /-- The place is in a statement of an enum that reserves something. -/
  skipping : Bool := false
  /-- How many braces that count have been open at most. -/
  deepest : Nat := 0

namespace Outline

/-- What a brace opens at the place. -/
def brace (o : Outline) : Brace :=
  if o.opened.head? = some .aggregate then .aggregate else braceBehind o.read

/-- A statement of an enum may begin at the place. -/
def AtValue (o : Outline) : Prop :=
  o.opened.head? = some .enumeration ∧
    (o.read.head? = some (.symbol '\x7b') ∨ o.read.head? = some (.symbol ';'))

instance (o : Outline) : Decidable o.AtValue :=
  inferInstanceAs (Decidable (_ ∧ _))

/-- The outline with one brace more. -/
def push (o : Outline) (b : Brace) : Outline :=
  { o with opened := b :: o.opened, deepest := max o.deepest (depth (b :: o.opened)) }

/-- The outline behind the token `t`. -/
def next (o : Outline) (t : Token) : Outline :=
  let o' :=
    if o.skipping then { o with skipping := t ≠ .symbol ';' }
    else if t = .symbol '\x7b' then o.push o.brace
    else if t = .symbol '\x7d' then { o with opened := o.opened.tail }
    else { o with skipping := t = .ident "reserved" ∧ o.AtValue }
  { o' with read := t :: o.read }

/-- The outline behind some tokens more. -/
def after (o : Outline) (tokens : List Located) : Outline :=
  tokens.foldl (fun o t => o.next t.token) o

end Outline

/-- How many messages, groups and aggregates of the text are nested in each other at most. -/
def nesting (source : String) : Nat :=
  (Outline.after {} (Scanner.ofString source).tokens.1).deepest

namespace Outline

variable {o : Outline} {opened : List Brace} {t : Token} {b : Brace}

@[simp] theorem after_nil : o.after [] = o :=
  rfl

@[simp] theorem after_cons {t : Located} {more : List Located} :
    o.after (t :: more) = (o.next t.token).after more :=
  rfl

theorem after_append (ts us : List Located) : o.after (ts ++ us) = (o.after ts).after us :=
  List.foldl_append

@[simp] theorem read_next : (o.next t).read = t :: o.read :=
  rfl

theorem deepest_le_next : o.deepest ≤ (o.next t).deepest := by
  rw [next]
  split
  · exact Nat.le_refl _
  · split
    · exact Nat.le_max_left _ _
    · split <;> exact Nat.le_refl _

theorem deepest_le_after (tokens : List Located) : o.deepest ≤ (o.after tokens).deepest := by
  induction tokens generalizing o with
  | nil => exact Nat.le_refl _
  | cons t more ih => exact Nat.le_trans deepest_le_next ih

/-! ### Places in a statement -/

/-- The place is between the braces `opened`, and the braces around it have not been too many. -/
structure Within (opened : List Brace) (o : Outline) : Prop where
  opened : o.opened = opened
  reads : o.skipping = false
  shallow : o.deepest ≤ maxNesting

/-- The place is in a statement that has begun. -/
structure Inside (opened : List Brace) (o : Outline) : Prop extends Within opened o where
  begun : ¬o.AtValue

theorem Within.inside (h : o.Within opened) (hplain : opened.head? ≠ some .enumeration) :
    o.Inside opened :=
  ⟨h, fun hvalue => hplain (h.opened ▸ hvalue.1)⟩

theorem next_of_reads (h : o.skipping = false) (ht : t.isMark = false) :
    o.next t = { o with read := t :: o.read, skipping := t = .ident "reserved" ∧ o.AtValue } := by
  have hopen : t ≠ .symbol '\x7b' := by
    rintro rfl
    cases ht
  have hclose : t ≠ .symbol '\x7d' := by
    rintro rfl
    cases ht
  rw [next, h, if_neg (by simp), if_neg hopen, if_neg hclose]

theorem Inside.next (h : o.Inside opened) (ht : t.isMark = false) : (o.next t).Inside opened := by
  rw [next_of_reads h.reads ht]
  refine ⟨⟨h.opened, decide_eq_false fun hvalue => h.begun (And.right hvalue), h.shallow⟩, ?_⟩
  rintro ⟨-, hread | hread⟩
  all_goals
    cases Option.some.inj hread
    cases ht

/-- A statement ends. -/
theorem Within.semicolon (h : o.Within opened) : (o.next (.symbol ';')).Within opened := by
  rw [Outline.next, h.reads, if_neg (by simp), if_neg (by simp), if_neg (by simp)]
  exact ⟨h.opened, by simp, h.shallow⟩

/-- A block begins. -/
theorem next_open (h : o.skipping = false) :
    o.next (.symbol '\x7b') = { o.push o.brace with read := .symbol '\x7b' :: o.read } := by
  rw [next, h, if_neg (by simp), if_pos rfl]

theorem Within.push (h : o.Within opened) (hdepth : depth (o.brace :: opened) ≤ maxNesting) :
    (o.next (.symbol '\x7b')).Within (o.brace :: opened) := by
  rw [next_open h.reads]
  exact ⟨congrArg _ h.opened, h.reads, Nat.max_le.mpr ⟨h.shallow, by rw [h.opened]; exact hdepth⟩⟩

/-- One block too many begins. -/
theorem Within.tooDeep (h : o.Within opened) (hdepth : maxNesting < depth (o.brace :: opened)) :
    maxNesting < (o.next (.symbol '\x7b')).deepest := by
  rw [next_open h.reads]
  exact Nat.lt_of_lt_of_le (by rw [h.opened]; exact hdepth) (Nat.le_max_right _ _)

/-- A block ends. -/
theorem Within.pop (h : o.Within (b :: opened)) : (o.next (.symbol '\x7d')).Inside opened := by
  rw [Outline.next, h.reads, if_neg (by simp), if_neg (by simp), if_pos rfl]
  refine ⟨⟨by rw [h.opened]; rfl, rfl, h.shallow⟩, ?_⟩
  rintro ⟨-, hread | hread⟩ <;> cases hread

end Outline

/-! ### Braces around a place -/

/-- Neither aggregates nor enums are read between these braces, so statements are. -/
class Statements (opened : List Brace) : Prop where
  aggregate : opened.head? ≠ some .aggregate
  enumeration : opened.head? ≠ some .enumeration

/-- So many more braces that count may be opened between these braces. -/
class Level (levels : Nat) (opened : List Brace) : Prop where
  eq : depth opened + levels = maxNesting

variable {levels : Nat} {opened : List Brace}

instance : Statements [] :=
  ⟨by simp, by simp⟩

instance : Statements (.message :: opened) :=
  ⟨by simp, by simp⟩

instance : Statements (.block :: opened) :=
  ⟨by simp, by simp⟩

instance : Level maxNesting [] :=
  ⟨Nat.zero_add _⟩

instance [h : Level levels opened] : Level levels (.block :: opened) :=
  ⟨h.eq⟩

instance [h : Level levels opened] : Level levels (.enumeration :: opened) :=
  ⟨h.eq⟩

theorem depth_cons_of_nests {b : Brace} (h : b.nests) : depth (b :: opened) = depth opened + 1 :=
  List.countP_cons_of_pos h

instance [h : Level (levels + 1) opened] : Level levels (.message :: opened) :=
  ⟨by rw [depth_cons_of_nests rfl, Nat.add_assoc, Nat.add_comm 1]; exact h.eq⟩

instance [h : Level (levels + 1) opened] : Level levels (.aggregate :: opened) :=
  ⟨by rw [depth_cons_of_nests rfl, Nat.add_assoc, Nat.add_comm 1]; exact h.eq⟩

theorem Level.depth_le [h : Level levels opened] : depth opened ≤ maxNesting :=
  h.eq ▸ Nat.le_add_right _ _

end Protobuf.Schema

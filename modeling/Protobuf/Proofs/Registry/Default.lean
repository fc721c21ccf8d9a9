import Protobuf.Proofs.Registry.Create
import Protobuf.Proofs.Registry.Link
import Protobuf.Proofs.Registry.Lookup
import Protobuf.Proofs.Schema.Setting
import Protobuf.Registry.Access

/-!
# Integer defaults

A field of an integer type may have an integer for its default. The integer is written to any base, read
as a word of 64 bits behind its sign, kept as a constant with or without sign, and brought into the range
of the type when the references of the graph are looked up. It comes through all of that unchanged, or
there is an error.

## Main definitions

* `Scalar.range?`, `Scalar.Keeps` — the integers that a type keeps, and the form in which it keeps them.
* `FieldNode.DefaultsTo` — a field of one value that has a constant for its default.
* `Registry.HasDefault` — the default of a field that a registry hands out.

## Main results

* `Scalar.coerce_integer` — coercion keeps integers or refuses them
* `Graph.linkField_of_defaultsTo`, `Graph.default_of_link` — looking up references does
* `Registry.default_exact` — so a default is what is written, from the text to the type handed out
-/

namespace Protobuf

open Schema

/-- The integers that a scalar type keeps, if it keeps integers. -/
def Scalar.range? : Scalar → Option IntRange
  | .int32 | .sint32 | .sfixed32 => some .int32
  | .int64 | .sint64 | .sfixed64 => some .int64
  | .uint32 | .fixed32 => some .uint32
  | .uint64 | .fixed64 => some .uint64
  | _ => none

/-- The atom is the integer `z` in the form in which the type keeps it. -/
def Scalar.Keeps (s : Scalar) (a : Atom) (z : Int) : Prop :=
  s.holds a ∧ a.integer? = some z

variable {s : Scalar} {range : IntRange} {c : Constant} {z : Int}

/-! ### Constants -/

/-- An integer in the range of a type is coerced to the atom in which the type keeps it, and any other
one is refused. -/
theorem Scalar.coerce_integer (hs : s.range? = some range) {a : Atom} (ha : a.integer? = some z) :
    if z ∈ range then ∃ b, s.coerce a = .ok b ∧ s.Keeps b z
    else s.coerce a = .error (.outOfRange z s) := by
  have hcoerce : ∃ make : Int → Atom, s.coerce a = s.coerceInteger range make a ∧
      (z ∈ range → s.Keeps (make z) z) := by
    cases s <;> cases hs
    case int32 | sint32 | sfixed32 =>
      exact ⟨_, rfl, fun hz => ⟨rfl, congrArg some (IntRange.toInt_toInt32 hz)⟩⟩
    case int64 | sint64 | sfixed64 =>
      exact ⟨_, rfl, fun hz => ⟨rfl, congrArg some (IntRange.toInt_toInt64 hz)⟩⟩
    case uint32 | fixed32 =>
      exact ⟨_, rfl, fun hz => ⟨rfl, congrArg some (IntRange.toNat_toUInt32 hz)⟩⟩
    case uint64 | fixed64 =>
      exact ⟨_, rfl, fun hz => ⟨rfl, congrArg some (IntRange.toNat_toUInt64 hz)⟩⟩
  obtain ⟨make, hmake, hkeeps⟩ := hcoerce
  by_cases hz : z ∈ range
  · rw [if_pos hz, hmake]
    exact ⟨make z, coerceInteger_of_mem ha hz, hkeeps hz⟩
  · rw [if_neg hz, hmake, coerceInteger, ha]
    exact if_neg hz

/-- The constant of an integer stands for that integer. -/
theorem Constant.exists_atom_of_ofInt? (hc : Constant.ofInt? z = some c) :
    ∃ a, Graph.constantAtom? c = some a ∧ a.integer? = some z := by
  rw [Constant.ofInt?] at hc
  split at hc
  · rename_i hz
    cases hc
    exact ⟨_, rfl, congrArg some (IntRange.toInt_toInt64 hz)⟩
  · split at hc
    · rename_i hz
      cases hc
      exact ⟨_, rfl, congrArg some (IntRange.toNat_toUInt64 hz)⟩
    · cases hc

/-- An integer that some type keeps makes a constant. -/
theorem Constant.exists_ofInt? (hs : s.range? = some range) (hz : z ∈ range) :
    ∃ c, Constant.ofInt? z = some c := by
  have hwords : z ∈ IntRange.int64 ∨ z ∈ IntRange.uint64 := by
    simp only [IntRange.mem_iff] at hz ⊢
    cases s <;> cases hs
    all_goals
      simp only [IntRange.int32, IntRange.uint32, IntRange.int64, IntRange.uint64] at hz ⊢
      omega
  rw [Constant.ofInt?]
  by_cases h : z ∈ IntRange.int64
  · exact ⟨_, if_pos h⟩
  · exact ⟨_, (if_neg h).trans (if_pos (hwords.resolve_left h))⟩

/-! ### References -/

/-- A field of one value, of the type `s`, that has the constant `c` for its default. -/
structure FieldNode.DefaultsTo (f : FieldNode) (s : Scalar) (c : Constant) : Prop where
  dialect : f.dialect = .proto2
  single : f.rule ≠ .repeated ∧ f.rule ≠ .map
  typeName : f.typeName = s.name
  keyTypeName : f.keyTypeName = none
  default : f.options.get? "default" = some c
  /-- Packing, which has no meaning for the field, is not asked for in a wrong way. -/
  packed : ∀ c, f.options.get? "packed" = some c → ∃ b, c = .bool b

namespace Graph

variable {g : Graph} {f : FieldNode}

theorem linkDefault_of_defaultsTo (hf : f.DefaultsTo s c) (hs : s.range? = some range)
    (hc : Constant.ofInt? z = some c) (label : String) :
    if z ∈ range then ∃ a, g.linkDefault label f (.scalar s) = .ok (some a) ∧ s.Keeps a z
    else g.linkDefault label f (.scalar s) =
      .error (.definition (.invalidDefault label (.unfit (.outOfRange z s)))) := by
  obtain ⟨a, ha, hinteger⟩ := Constant.exists_atom_of_ofInt? hc
  have hexplicit : g.explicitDefault f (.scalar s) c = (s.coerce a).mapError .unfit := by
    rw [explicitDefault, if_neg (by rw [hf.dialect]; decide), if_neg (not_or.mpr hf.single)]
    simp only [ha]
  have hcoerce := Scalar.coerce_integer hs hinteger
  rw [linkDefault, hf.default]
  dsimp only
  rw [hexplicit]
  by_cases hz : z ∈ range
  · rw [if_pos hz] at hcoerce ⊢
    obtain ⟨b, hb, hkeeps⟩ := hcoerce
    rw [hb]
    exact ⟨b, rfl, hkeeps⟩
  · rw [if_neg hz] at hcoerce ⊢
    rw [hcoerce]
    rfl

/-- The references of such a field are looked up if its integer is in range, and the integer is its
default then. -/
theorem linkField_of_defaultsTo (hf : f.DefaultsTo s c) (hs : s.range? = some range)
    (hc : Constant.ofInt? z = some c) (n : NodeId) :
    if z ∈ range then
      ∃ l a, g.linkField n f = .ok l ∧ l.type = .scalar s ∧ l.default = some a ∧ s.Keeps a z
    else g.linkField n f =
      .error (.definition (.invalidDefault (g.fqn n) (.unfit (.outOfRange z s)))) := by
  have htype : g.linkType (g.fqn n) n f = .ok (.scalar s) := by
    rw [linkType, hf.typeName, Scalar.ofName?_name]
  have hkey : linkKeyType (g.fqn n) f = .ok none := by
    rw [linkKeyType, hf.keyTypeName]
    exact if_neg hf.single.2
  have hpacked : ∃ packed, linkPacked (g.fqn n) f (.scalar s) = .ok packed := by
    rw [linkPacked]
    cases hoption : f.options.get? "packed" with
    | none => exact ⟨_, rfl⟩
    | some c =>
      obtain ⟨b, rfl⟩ := hf.packed c hoption
      exact ⟨_, rfl⟩
  obtain ⟨packed, hpacked⟩ := hpacked
  have hfield : g.linkField n f = (g.linkDefault (g.fqn n) f (.scalar s)).map fun default =>
      { type := .scalar s, keyType := none, packed, default } := by
    simp only [linkField, htype, hkey, hpacked, bind, Except.bind]
    cases g.linkDefault (g.fqn n) f (.scalar s) <;> rfl
  have hdefault := linkDefault_of_defaultsTo (g := g) hf hs hc (g.fqn n)
  rw [hfield]
  by_cases hz : z ∈ range
  · rw [if_pos hz] at hdefault ⊢
    obtain ⟨a, ha, hkeeps⟩ := hdefault
    rw [ha]
    exact ⟨_, a, rfl, rfl, rfl, hkeeps⟩
  · rw [if_neg hz] at hdefault ⊢
    rw [hdefault]
    rfl

/-- In a linked graph the integer of such a field is in range, and it is the default. -/
theorem default_of_link {g' : Graph} (hlink : g.link = .ok g') {n : NodeId} (hn : g'.field? n = some f)
    (hf : f.DefaultsTo s c) (hs : s.range? = some range) (hc : Constant.ofInt? z = some c) :
    z ∈ range ∧ ∃ a, f.default? = some a ∧ s.Keeps a z := by
  obtain ⟨-, -, hkinds⟩ := linkedKind_of_link hlink
  obtain ⟨f₀, l, -, hl, rfl⟩ := exists_link_of_field? hkinds hn
  -- What the field declares is what it declared before it was linked.
  have hf₀ : f₀.DefaultsTo s c :=
    ⟨hf.dialect, hf.single, hf.typeName, hf.keyTypeName, hf.default, hf.packed⟩
  have hfield := linkField_of_defaultsTo (g := g) hf₀ hs hc n
  by_cases hz : z ∈ range
  · rw [if_pos hz] at hfield
    obtain ⟨l', a, hl', -, ha, hkept⟩ := hfield
    rw [hl] at hl'
    cases hl'
    exact ⟨hz, a, ha, hkept⟩
  · rw [if_neg hz, hl] at hfield
    cases hfield

/-! ### A message with one field -/

/-- The graph of a message with one field. -/
def oneField (message : String) (decl : FieldDecl) : Graph :=
  { nodes := #[⟨"", none, .package { children := [1] }⟩,
      ⟨message, some 0, .message { scope := { children := [2] }, fields := [2] }⟩,
      ⟨decl.name, some 1, .field (GraphEdit.fieldNode decl .proto2 none none)⟩]
    extensions := []
    settings := {} }

/-- The same graph with the references of the field looked up. -/
def oneFieldLinked (message : String) (decl : FieldDecl) (l : FieldLink) : Graph :=
  (oneField message decl).mapKind 2 fun _ =>
    .field { GraphEdit.fieldNode decl .proto2 none none with link := some l }

theorem link_oneField (message : String) (decl : FieldDecl) : (oneField message decl).link =
    ((oneField message decl).linkField 2 (GraphEdit.fieldNode decl .proto2 none none)).map
      (oneFieldLinked message decl) := by
  have hrange : List.range (oneField message decl).size = [0, 1, 2] := rfl
  have hroot (found : List ExtensionEntry) : (oneField message decl).linkNode found 0 =
      .ok ((oneField message decl).kind 0, found) := rfl
  have hmessage (found : List ExtensionEntry) : (oneField message decl).linkNode found 1 =
      .ok ((oneField message decl).kind 1, found) := rfl
  have hfield (found : List ExtensionEntry) : (oneField message decl).linkNode found 2 =
      ((oneField message decl).linkField 2 (GraphEdit.fieldNode decl .proto2 none none)).map fun l =>
        (.field { GraphEdit.fieldNode decl .proto2 none none with link := some l }, found) := rfl
  rw [link, hrange]
  simp only [List.foldlM_cons, List.foldlM_nil, hroot, hmessage, hfield]
  cases (oneField message decl).linkField 2 (GraphEdit.fieldNode decl .proto2 none none) <;> rfl

theorem lookup?_oneFieldLinked {message : String} (hmessage : IsName message) (decl : FieldDecl)
    (l : FieldLink) : (oneFieldLinked message decl l).lookup? message = some 1 := by
  obtain ⟨c, more, hname, hstart, -⟩ := hmessage.exists_cons
  have hne : ¬(message = "" ∨ message = ".") := by
    rintro (rfl | rfl) <;> cases hmessage.1
  have hanchored : Path.anchored? message = none := by
    rw [Path.anchored?, hname]
    split
    · rename_i heq
      cases heq
      cases hstart
    · rfl
  have hparts : Path.parts (Path.unanchored message) = [message] := by
    rw [Path.unanchored, hanchored, Option.getD_none, Path.parts,
      Path.stretches_of_notMem hmessage.plain, List.map_singleton, String.ofList_toList]
  have hempty : [message].contains "" = false := by
    rw [List.contains_cons, List.contains_nil, Bool.or_false]
    exact beq_eq_false_iff_ne.mpr fun h => hne (.inl h.symm)
  have hchild : (oneFieldLinked message decl l).child? root message = some 1 :=
    List.find?_cons_of_pos (decide_eq_true rfl)
  have hwalk : (oneFieldLinked message decl l).walkTo? root [message] false = some 1 := by
    rw [walkTo?, walk?, List.foldlM_cons, hchild]
    rfl
  have hancestors : (oneFieldLinked message decl l).ancestors root = [root] := rfl
  rw [lookup?, if_neg hne, resolve?]
  simp only [hparts, hanchored, hempty, hancestors, List.findSome?_cons, hwalk]
  rfl

end Graph

theorem GraphEdit.checkFieldId_eq {id : UInt32} (h : Graph.IsFieldNumber id) (label : String) :
    GraphEdit.checkFieldId label id = pure () := by
  obtain ⟨hlo, hhi, hband⟩ := h
  rw [checkFieldId, if_neg (not_or.mpr ⟨UInt32.not_lt.mpr hlo, UInt32.not_lt.mpr hhi⟩), if_neg hband]

theorem Scalar.isName_name (s : Scalar) : IsName s.name ∧ s.name ≠ "group" := by
  cases s <;> exact ⟨⟨rfl, rfl⟩, by decide⟩

namespace Registry

section

variable {f : IntegerField} (hid : Graph.IsFieldNumber f.id) {source message : String}
  (hparse : parse source = .ok (f.fileDecl message c))

include hid hparse

/-- A file with one message that has one field is loaded. -/
theorem run_load_oneField : (ExceptT.run (load source none)).run (empty {}) =
    (.ok (), { graph := .oneField message (f.decl 1 c) }) := by
  have hnumber (label : String) : GraphEdit.checkFieldId label f.id = pure () :=
    GraphEdit.checkFieldId_eq hid label
  have hsingle := f.single
  rw [load, hparse]
  simp only [importFile, addFile, create, IntegerField.fileDecl, FileDecl.definitions, List.map_cons,
    List.map_nil, List.append_nil, List.forM_eq_forM, List.forM_cons, List.forM_nil, GraphEdit.create,
    IntegerField.messageDecl, GraphEdit.createMessage, GraphEdit.createField, IntegerField.decl, hnumber]
  rcases hsingle with hrule | hrule
  · rw [hrule]
    rfl
  · rw [hrule]
    rfl

/-- The registry of such a file is that of its field. -/
theorem ofSource_oneField (stamp : Nat) : ofSource source stamp =
    ((Graph.oneField message (f.decl 1 c)).linkField 2
      (GraphEdit.fieldNode (f.decl 1 c) .proto2 none none)).map fun l =>
        { graph := .oneFieldLinked message (f.decl 1 c) l
          snapshot := some ⟨.oneFieldLinked message (f.decl 1 c) l, stamp⟩ } := by
  have hload := run_load_oneField hid hparse
  have hlink := Graph.link_oneField message (f.decl 1 c)
  have hresolve (g : Graph) : (ExceptT.run (resolveAll stamp)).run { graph := g } =
      (g.link.map fun _ => (), g.link.toOption.elim { graph := g } fun g' =>
        { graph := g', snapshot := some ⟨g', stamp⟩ }) := by
    rw [resolveAll, run_get_bind]
    cases g.link <;> rfl
  simp only [ofSource, run_bind_eq, hload, hresolve, hlink]
  cases (Graph.oneField message (f.decl 1 c)).linkField 2
    (GraphEdit.fieldNode (f.decl 1 c) .proto2 none none) <;> rfl

end

theorem ofSource_of_parse_error {source : String} {e : ParseError} (h : parse source = .error e)
    (stamp : Nat) : ofSource source stamp = .error (.parse e) := by
  have hload : (ExceptT.run (load source none)).run (empty {}) = (.error (.parse e), empty {}) := by
    rw [load, h]
    rfl
  simp only [ofSource, run_bind_eq, hload]
  rfl

/-- The registry has the message type `message`, and the field `name` of it has the integer `z` for its
default, in the form in which the type `s` of the field keeps it. -/
def HasDefault (r : Registry) (message name : String) (s : Scalar) (z : Int) : Prop :=
  ∃ t n f a, r.messageType message = .ok t ∧ t.field? name = some n ∧ t.graph.field? n = some f ∧
    f.type? = some (.scalar s) ∧ f.default? = some a ∧ s.Keeps a z

theorem hasDefault_oneFieldLinked {f : IntegerField} {message : String} (hmessage : IsName message)
    {l : FieldLink} (hl : l.type = .scalar s) {a : Atom} (ha : l.default = some a) (hkeeps : s.Keeps a z)
    {r : Registry} {stamp : Nat}
    (hr : r.snapshot = some ⟨.oneFieldLinked message (f.decl 1 c) l, stamp⟩) :
    r.HasDefault message f.name s z := by
  have hbuild : r.build message =
      .ok (.message ⟨⟨⟨.oneFieldLinked message (f.decl 1 c) l, stamp⟩, 1⟩⟩) :=
    (build_eq_ok hr).mpr ⟨1, Graph.lookup?_oneFieldLinked hmessage _ l, rfl⟩
  have htype : r.messageType message =
      .ok ⟨⟨⟨.oneFieldLinked message (f.decl 1 c) l, stamp⟩, 1⟩⟩ := by
    rw [messageType, hbuild]
    rfl
  have hfind : ((Graph.oneFieldLinked message (f.decl 1 c) l).ownFields 1).find?
      (fun n => (Graph.oneFieldLinked message (f.decl 1 c) l).name n = f.name) = some 2 :=
    List.find?_cons_of_pos (decide_eq_true rfl)
  exact ⟨_, 2, _, a, htype, congrArg (· <|> _) hfind, rfl, congrArg some hl, ha, hkeeps⟩

/-- A file with a field that has an integer for its default is loaded and its references are looked up if
the integer is in the range of the type, and there is an error otherwise. -/
theorem ofSource_integer {f : IntegerField} (htype : f.typeName = s.name) (hs : s.range? = some range)
    (hid : Graph.IsFieldNumber f.id) {header message : String}
    (hheader : header = "" ∨ header = "syntax = \"proto2\"; ") (hmessage : IsName message) (stamp : Nat) :
    if f.value ∈ range then
      ∃ r, ofSource (f.source header message) stamp = .ok r ∧ r.HasDefault message f.name s f.value
    else ∃ e, ofSource (f.source header message) stamp = .error e := by
  cases hc : Constant.ofInt? f.value with
  | none =>
    have hz : f.value ∉ range := fun hz => by
      obtain ⟨c, hc'⟩ := Constant.exists_ofInt? hs hz
      cases hc.symm.trans hc'
    obtain ⟨e, he⟩ := parse_source_refused f hheader hmessage hc
    rw [if_neg hz]
    exact ⟨.parse e, ofSource_of_parse_error he stamp⟩
  | some c =>
    have hsource := ofSource_oneField hid (parse_source f hheader hmessage hc) stamp
    have hdefault : (GraphEdit.fieldNode (f.decl 1 c) .proto2 none none).DefaultsTo s c := by
      refine ⟨rfl, ?_, htype, rfl, rfl, fun c hc => by cases hc⟩
      have hsingle := f.single
      rcases hsingle with hrule | hrule <;> simp [GraphEdit.fieldNode, IntegerField.decl, hrule]
    have hfield := Graph.linkField_of_defaultsTo (g := .oneField message (f.decl 1 c)) hdefault hs hc 2
    by_cases hz : f.value ∈ range
    · rw [if_pos hz] at hfield ⊢
      obtain ⟨l, a, hl, hltype, ha, hkeeps⟩ := hfield
      rw [hsource, hl]
      exact ⟨_, rfl, hasDefault_oneFieldLinked hmessage hltype ha hkeeps rfl⟩
    · rw [if_neg hz] at hfield ⊢
      rw [hsource, hfield]
      exact ⟨_, rfl⟩

/-- Integer defaults are exact. Where an integer is spelled, in any text, its constant is read, or the text
is refused because there is none. In any graph, a field with that constant for its default can be linked
if and only if the integer is in the range of its type, and then it has exactly the integer for its
default. So a file with such a field is loaded and its references are looked up if and only if the integer
is in range, and the field that is handed out has it for its default. -/
theorem default_exact {s : Scalar} {range : IntRange} (hs : s.range? = some range) {text : String}
    {z : Int} (h : Spelling text.toList z) :
    (∀ levels rest line, Apart rest → (Parser.constant levels).Reads ⟨text.toList ++ rest, line⟩
      ((Constant.ofInt? z).map fun c => (c, ⟨rest, line⟩))) ∧
    (∀ c f, Constant.ofInt? z = some c → FieldNode.DefaultsTo f s c → ∀ (g : Graph) (n : NodeId),
      (z ∈ range →
        ∃ l a, g.linkField n f = .ok l ∧ l.type = .scalar s ∧ l.default = some a ∧ s.Keeps a z) ∧
      (z ∉ range → ∃ e, g.linkField n f = .error e) ∧
      ∀ g', g.link = .ok g' → g'.field? n = some f →
        z ∈ range ∧ ∃ a, f.default? = some a ∧ s.Keeps a z) ∧
    ∀ header message rule name number id stamp,
      (header = "" ∨ header = "syntax = \"proto2\"; ") → IsName message →
      (rule = .optional ∨ rule = .required) → IsName name →
      Numeral number.toList (UInt32.toNat id) → Graph.IsFieldNumber id →
      (z ∈ range →
        ∃ r, ofSource (defaultSource header message rule s.name name number text) stamp = .ok r ∧
          r.HasDefault message name s z) ∧
      (z ∉ range →
        ∃ e, ofSource (defaultSource header message rule s.name name number text) stamp = .error e) := by
  refine ⟨fun levels rest line hrest => Parser.reads_constant levels h hrest line,
    fun c f hc hf g n => ?_, ?_⟩
  · have hfield := Graph.linkField_of_defaultsTo (g := g) hf hs hc n
    refine ⟨fun hz => ?_, fun hz => ?_, fun g' hlink hn => Graph.default_of_link hlink hn hf hs hc⟩
    · rwa [if_pos hz] at hfield
    · rw [if_neg hz] at hfield
      exact ⟨_, hfield⟩
  · intro header message rule name number id stamp hheader hmessage hrule hname hnumber hid
    obtain ⟨htype, hgroup⟩ := s.isName_name
    have hsource := ofSource_integer (f := ⟨rule, s.name, name, id, number, z, text, hrule, htype,
      hgroup, hname, hnumber, h⟩) rfl hs hid hheader hmessage stamp
    exact ⟨fun hz => by rwa [if_pos hz] at hsource, fun hz => by rwa [if_neg hz] at hsource⟩

/-- The least integer of 32 bits is a default, and the one below it is none. -/
theorem default_exact_least :
    (∃ r, ofSource (defaultSource "" "M" .optional "int32" "a" "1" "-0x80000000") 0 = .ok r ∧
      r.HasDefault "M" "a" .int32 (-2147483648)) ∧
    ∃ e, ofSource (defaultSource "" "M" .required "sfixed32" "a" "1" "-2147483649") 0 = .error e := by
  have hM : IsName "M" := ⟨rfl, rfl⟩
  have ha : IsName "a" := ⟨rfl, rfl⟩
  have hid : Graph.IsFieldNumber 1 := ⟨by decide, by decide, by decide⟩
  have hnumber : Numeral "1".toList 1 := .decimal (.map_digitChar [1] (by decide) (by decide)) (by decide)
  have hleast : Spelling "-0x80000000".toList (-2147483648) :=
    .minus (.hex (.inl rfl) (.map_digitChar [8, 0, 0, 0, 0, 0, 0, 0] (by decide) (by decide)))
  have hbelow : Spelling "-2147483649".toList (-2147483649) :=
    .minus (.decimal (.map_digitChar [2, 1, 4, 7, 4, 8, 3, 6, 4, 9] (by decide) (by decide)) (by decide))
  exact ⟨((default_exact (s := .int32) rfl hleast).2.2 "" "M" .optional "a" "1" 1 0 (.inl rfl) hM (.inl rfl)
      ha hnumber hid).1 (by decide),
    ((default_exact (s := .sfixed32) rfl hbelow).2.2 "" "M" .required "a" "1" 1 0 (.inl rfl) hM (.inr rfl)
      ha hnumber hid).2 (by decide)⟩

end Registry

end Protobuf

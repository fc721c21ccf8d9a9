import Mathlib
import Protobuf.Proofs.Registry.Refused
import Protobuf.Proofs.Registry.Served

/-!
# Required fields under `proto3`

A message of a `proto3` description that declares a required field is refused, on whatever level it
stands and whether or not it is the body of a group. The fields of extension blocks are not asked
for their rule. So an accepted `proto3` description has required fields exactly if one of its
extension blocks declares one, and then these are the only ones.

## Main definitions

* `NodeKind.isRequired` — the node is a required field.
* `MessageDecl.ExtendsRequired`, `ExtendDecl.ExtendsRequired`, `Definition.ExtendsRequired` — an
  extension block, at any level, declares a required field.
* `Graph.RequiredAdded` — which required fields have been added to a graph.
* `GraphEdit.Brings` — the contract of actions under `proto3`.

## Main results

* `GraphEdit.brings_create` — what a definition brings
* `Registry.Built.required_of_proto3` — what descriptions bring
-/

namespace Protobuf

/-- The node is a required field. -/
def NodeKind.isRequired : NodeKind → Bool
  | field f => f.rule = .required
  | _ => false

@[simp] theorem NodeKind.isRequired_field {f : FieldNode} :
    (field f).isRequired ↔ f.rule = .required :=
  decide_eq_true_iff

@[simp] theorem NodeKind.isRequired_face (k : NodeKind) : k.face.isRequired = k.isRequired := by
  cases k <;> rfl

theorem NodeKind.isRequired_of_isPackage {k : NodeKind} (h : k.isPackage) :
    k.isRequired = false := by
  cases k <;> first | rfl | cases h

/-! ### Declarations -/

/-- An extension block in the message, at any level, declares a required field. -/
inductive MessageDecl.ExtendsRequired : MessageDecl → Prop
  | inside {m inside : MessageDecl} (hinside : inside ∈ m.messages) (h : inside.ExtendsRequired) :
      m.ExtendsRequired
  | body {m inside : MessageDecl} {b : ExtendDeclOf MessageDecl} (hb : b ∈ m.extendBlocks)
      (hinside : inside ∈ b.messages) (h : inside.ExtendsRequired) : m.ExtendsRequired
  | field {m : MessageDecl} {b : ExtendDeclOf MessageDecl} {f : FieldDecl}
      (hb : b ∈ m.extendBlocks) (hf : f ∈ b.fields) (h : f.rule = .required) : m.ExtendsRequired

/-- The extension block declares a required field, or one in the body of a group does. -/
def ExtendDecl.ExtendsRequired (b : ExtendDeclOf MessageDecl) : Prop :=
  (∃ m ∈ b.messages, m.ExtendsRequired) ∨ ∃ f ∈ b.fields, f.rule = .required

/-- An extension block of the definition declares a required field. -/
def Definition.ExtendsRequired : Definition → Prop
  | .message decl => decl.ExtendsRequired
  | .extension decl => ExtendDecl.ExtendsRequired decl
  | _ => False

theorem MessageDecl.extendsRequired_iff {m : MessageDecl} : m.ExtendsRequired ↔
    (∃ inside ∈ m.messages, inside.ExtendsRequired) ∨
      ∃ b ∈ m.extendBlocks, ExtendDecl.ExtendsRequired b := by
  constructor
  · rintro (⟨hinside, h⟩ | ⟨hb, hinside, h⟩ | ⟨hb, hf, h⟩)
    · exact .inl ⟨_, hinside, h⟩
    · exact .inr ⟨_, hb, .inl ⟨_, hinside, h⟩⟩
    · exact .inr ⟨_, hb, .inr ⟨_, hf, h⟩⟩
  · rintro (⟨inside, hinside, h⟩ | ⟨b, hb, ⟨inside, hinside, h⟩ | ⟨f, hf, h⟩⟩)
    · exact .inside hinside h
    · exact .body hb hinside h
    · exact .field hb hf h

/-! ### Graphs -/

namespace Graph

variable {g g' g'' : Graph} {p : NodeId} {declared more : Prop}

/-- Required fields have been added exactly if `declared` holds, and all of them belong to
extensions. -/
structure RequiredAdded (g g' : Graph) (declared : Prop) : Prop where
  owner : ∀ n, g.size ≤ n → (g'.kind n).isRequired → (g'.kind n).owner?.isSome
  iff : (∃ n, g.size ≤ n ∧ (g'.kind n).isRequired) ↔ declared

theorem Grown.isRequired (h : g.Grown p g') {n : NodeId} (hn : n < g.size) :
    (g'.kind n).isRequired = (g.kind n).isRequired := by
  rw [← NodeKind.isRequired_face, h.face_kind hn, NodeKind.isRequired_face]

theorem lt_size_of_isRequired {n : NodeId} (h : (g.kind n).isRequired) : n < g.size := by
  rcases Nat.lt_or_ge n g.size with hlt | hle
  · exact hlt
  · rw [kind_of_size_le hle] at h
    cases h

theorem RequiredAdded.congr (h : g.RequiredAdded g' declared) (hiff : declared ↔ more) :
    g.RequiredAdded g' more :=
  ⟨h.owner, h.iff.trans hiff⟩

/-- Where nothing but packages is new, there are no new fields. -/
theorem requiredAdded_of_isPackage
    (h : ∀ n, g.size ≤ n → n < g'.size → (g'.kind n).isPackage) : g.RequiredAdded g' False := by
  have hnone : ∀ n, g.size ≤ n → ¬(g'.kind n).isRequired := by
    intro n hle hn
    rw [NodeKind.isRequired_of_isPackage (h n hle (lt_size_of_isRequired hn))] at hn
    cases hn
  exact ⟨fun n hle hn => absurd hn (hnone n hle), fun ⟨n, hle, hn⟩ => hnone n hle hn, False.elim⟩

theorem requiredAdded_of_size_eq (h : g'.size = g.size) : g.RequiredAdded g' False :=
  requiredAdded_of_isPackage fun _ hle hlt => absurd hle (Nat.not_le.mpr (h ▸ hlt))

/-- What is added to a graph in two goes. -/
theorem RequiredAdded.trans (h : g.RequiredAdded g' declared) (hle : g.size ≤ g'.size)
    (hgrown : g'.Grown p g'') (h' : g'.RequiredAdded g'' more) :
    g.RequiredAdded g'' (declared ∨ more) := by
  constructor
  · intro n hn hrequired
    rcases Nat.lt_or_ge n g'.size with hold | hnew
    · rw [hgrown.isRequired hold] at hrequired
      rw [(hgrown.like hold).owner?]
      exact h.owner n hn hrequired
    · exact h'.owner n hnew hrequired
  · rw [← h.iff, ← h'.iff]
    constructor
    · rintro ⟨n, hn, hrequired⟩
      rcases Nat.lt_or_ge n g'.size with hold | hnew
      · rw [hgrown.isRequired hold] at hrequired
        exact .inl ⟨n, hn, hrequired⟩
      · exact .inr ⟨n, hnew, hrequired⟩
    · rintro (⟨n, hn, hrequired⟩ | ⟨n, hn, hrequired⟩)
      · rw [← hgrown.isRequired (lt_size_of_isRequired hrequired)] at hrequired
        exact ⟨n, hn, hrequired⟩
      · exact ⟨n, Nat.le_trans hle hn, hrequired⟩

/-- A node that is added is the only new one. -/
theorem requiredAdded_of_add {id : NodeId} {name : String} {kind : NodeKind} (hp : p < g.size)
    (howner : kind.isRequired → kind.owner?.isSome) (hadd : g.add p name kind = .ok (id, g')) :
    g.RequiredAdded g' kind.isRequired := by
  obtain ⟨-, hplanted, -⟩ := grown_of_add hp hadd
  have honly : ∀ n, g.size ≤ n → (g'.kind n).isRequired → g'.kind n = kind := by
    intro n hle hrequired
    have hlt := lt_size_of_isRequired hrequired
    rw [hplanted.size] at hlt
    rw [Nat.le_antisymm (Nat.le_of_lt_succ hlt) hle, hplanted.new]
  constructor
  · intro n hle hrequired
    have hn := honly n hle hrequired
    rw [hn] at hrequired ⊢
    exact howner hrequired
  · constructor
    · rintro ⟨n, hle, hrequired⟩
      exact honly n hle hrequired ▸ hrequired
    · intro hrequired
      exact ⟨g.size, Nat.le_refl _, by rwa [hplanted.new]⟩

end Graph

/-! ### Actions -/

namespace GraphEdit

/-- If the action is not refused, it grows the graph below `p`, which is such a node as it is asked
to be, and adds required fields exactly if they are `declared`, all of them for extensions. -/
def Brings (host : NodeKind → Prop) (p : NodeId) (declared : Prop) (x : GraphEdit Unit) : Prop :=
  ∀ g : Graph, p < g.size → host (g.kind p).face →
    Leads (· = g) x (fun _ g' => g.Grown p g' ∧ g.RequiredAdded g' declared) fun _ => True

namespace Brings

variable {host : NodeKind → Prop} {p : NodeId} {declared more : Prop} {x y : GraphEdit Unit}

theorem congr (hx : Brings host p declared x) (h : declared ↔ more) : Brings host p more x :=
  fun g hp hhost => (hx g hp hhost).mono (fun _ _ hs => ⟨hs.1, hs.2.congr h⟩) fun _ hs => hs

theorem weaken {host' : NodeKind → Prop} (hx : Brings host p declared x)
    (h : ∀ k, host' k → host k) : Brings host' p declared x :=
  fun g hp hhost => hx g hp (h _ hhost)

theorem pure : Brings host p False (Pure.pure ()) :=
  fun _ _ _ => Leads.pure fun _ hs => hs ▸ ⟨.refl p, Graph.requiredAdded_of_size_eq rfl⟩

theorem bind (hx : Brings host p declared x) (hy : Brings host p more y) :
    Brings host p (declared ∨ more) (x >>= fun _ => y) := by
  intro g hp hhost
  refine Leads.bind (hx g hp hhost) fun _ => Leads.each fun g' hg' => ?_
  obtain ⟨hgrown, hadded⟩ := hg'
  rw [← hgrown.face_kind hp] at hhost
  refine (hy g' (Nat.lt_of_lt_of_le hp hgrown.size) hhost).mono (fun _ g'' hg'' => ?_)
    fun _ _ => trivial
  obtain ⟨hgrown', hadded'⟩ := hg''
  exact ⟨hgrown.trans hgrown' (.inl rfl), hadded.trans hgrown.size hgrown' hadded'⟩

theorem forM {α : Type} {declared : α → Prop} {step : α → GraphEdit Unit} (items : List α)
    (hstep : ∀ a ∈ items, Brings host p (declared a) (step a)) :
    Brings host p (∃ a ∈ items, declared a) (items.forM step) := by
  induction items with
  | nil => exact pure.congr (by simp)
  | cons a more ih =>
    show Brings host p _ (step a >>= fun _ => more.forM step)
    refine ((hstep a List.mem_cons_self).bind
      (ih fun a ha => hstep a (List.mem_cons_of_mem _ ha))).congr ?_
    simp

/-- A loop of actions none of which brings anything. -/
theorem forM_none {α : Type} {step : α → GraphEdit Unit} (items : List α)
    (hstep : ∀ a ∈ items, Brings host p False (step a)) : Brings host p False (items.forM step) :=
  (forM items hstep).congr (by simp)

/-- A node that is no field, and then what is below it. -/
theorem node {name : String} {kind : NodeKind} (hkind : kind.isRequired = false)
    {rest : NodeId → GraphEdit Unit} (hrest : ∀ id, Brings (· = kind.face) id declared (rest id)) :
    Brings host p declared (add p name kind >>= rest) := by
  intro g hp _
  refine Leads.bind (Q := fun id s => g.add p name kind = .ok (id, s))
    (leads_add (fun s hs id g' hadd => hs ▸ hadd) fun _ _ _ _ => trivial)
    fun id => Leads.each fun g' hadd => ?_
  obtain ⟨rfl, hplanted, hgrown⟩ := Graph.grown_of_add hp hadd
  have hadded := Graph.requiredAdded_of_add hp (by rw [hkind]; simp) hadd
  refine (hrest g.size g' hplanted.lt_size (by rw [hplanted.new])).mono (fun _ g'' hg'' => ?_)
    fun _ _ => trivial
  obtain ⟨hgrown', hadded'⟩ := hg''
  refine ⟨hgrown.trans hgrown' (.inr (Nat.le_refl _)), ?_⟩
  rw [hkind, Bool.false_eq_true] at hadded
  exact (hadded.trans hgrown.size hgrown' hadded').congr (by simp)

/-- A node that is no field, with nothing below it. -/
theorem leaf {name : String} {kind : NodeKind} (hkind : kind.isRequired = false) :
    Brings host p False (add p name kind >>= fun _ => Pure.pure ()) :=
  node hkind fun _ => pure

end Brings

/-! ### Fields -/

/-- A required field is not let into a message of `proto3`. -/
theorem leads_createField_rule {g : Graph} (message : NodeId) (decl : FieldDecl) :
    Leads (· = g) (createField message decl)
      (fun _ _ => ¬(decl.rule = .required ∧ g.dialectOf message = .proto3)) fun _ => True := by
  rw [createField]
  refine Leads.bindGet ?_
  extract_lets label rest rest'
  refine Leads.bind (leads_checkFieldId label decl.id fun _ _ => trivial) fun _ => ?_
  refine Leads.refuseIf (fun _ _ => trivial) fun _ => ?_
  refine Leads.refuseIf (fun _ _ => trivial) fun hrule => ?_
  exact Leads.always (fun _ _ => hrule) fun _ => trivial

variable {p : NodeId} {host : NodeKind → Prop}

theorem brings_createField (decl : FieldDecl) :
    Brings (HostsFields .proto3) p False (createField p decl) := by
  intro g hp hhost
  have hruns := (leads_createField (g := g) p decl).and (leads_createField_rule (g := g) p decl)
  refine (hruns.weaken fun s hs => ⟨hs, hs⟩).mono (fun _ g' hg' => ?_) fun _ _ => trivial
  obtain ⟨hadded, hrule⟩ := hg'
  have hoptional : ∀ o, (NodeKind.field (fieldNode decl (g.dialectOf p) o none)).isRequired =
      false :=
    fun o => decide_eq_false fun hrequired => hrule ⟨hrequired, dialectOf_eq hhost⟩
  have hfield : ∀ {g' : Graph} {id : NodeId} {o : Option NodeId},
      g.add p (g.settings.fieldName decl.name)
        (.field (fieldNode decl (g.dialectOf p) o none)) = .ok (id, g') →
      g.Grown p g' ∧ g.RequiredAdded g' False := by
    intro g' id o hadd
    refine ⟨(Graph.grown_of_add hp hadd).2.2, ?_⟩
    refine (Graph.requiredAdded_of_add hp (fun h => ?_) hadd).congr ?_ <;> simp [hoptional] at *
  cases hadded with
  | alone _ _ _ hadd => exact hfield hadd
  | @member g' id o _ _ _ _ _ _ _ hadd =>
    obtain ⟨hgrown, hadded⟩ := hfield hadd
    have hmember : g'.Grown p (g'.mapKind o (·.addMember id)) := Graph.grown_addMember p o id
    refine ⟨hgrown.trans hmember (.inl rfl), ?_⟩
    exact (hadded.trans hgrown.size hmember (Graph.requiredAdded_of_size_eq
      (Graph.size_mapKind _ _))).congr (by simp)

/-- The rule of the field of an extension is not looked at. -/
theorem brings_createExtension (extendee : String) (decl : FieldDecl) :
    Brings host p (decl.rule = .required) (createExtension .proto3 p extendee decl) := by
  intro g hp _
  refine (leads_createExtension .proto3 hp extendee decl).mono (fun _ g' hg' => ?_)
    fun _ _ => trivial
  obtain ⟨-, hadd, hadd'⟩ := hg'
  obtain ⟨rfl, hplanted, hgrown⟩ := Graph.grown_of_add hp hadd
  obtain ⟨-, -, hgrown'⟩ := Graph.grown_of_add hplanted.lt_size hadd'
  refine ⟨hgrown.trans hgrown' (.inr (Nat.le_refl _)), ?_⟩
  have hextension := Graph.requiredAdded_of_add hp (fun h => (by cases h)) hadd
  have hfield := Graph.requiredAdded_of_add hplanted.lt_size (fun _ => rfl) hadd'
  refine (hextension.trans hgrown.size hgrown' hfield).congr ?_
  rw [NodeKind.isRequired_field]
  simp [NodeKind.isRequired, fieldNode]

/-! ### Definitions -/

theorem brings_createOneof (decl : OneofDecl) : Brings host p False (createOneof p decl) :=
  .leaf rfl

theorem brings_createEnum (decl : EnumDecl) :
    Brings host p False (createEnum .proto3 p decl) := by
  have hrest : Brings host p False (do
      let id ← add p decl.name (.enumeration { options := decl.options, dialect := .proto3 })
      decl.values.forM fun value => do
        let _ ← add id value.name (.enumValue value.id value.options)) :=
    .node rfl fun id => .forM_none _ fun value _ => .leaf rfl
  intro g hp hhost
  rw [createEnum]
  refine Leads.bindGet ?_
  split
  · exact Leads.bind (Q := fun _ _ => False) (Leads.throw fun _ _ => trivial) fun _ _ hs => hs.elim
  · exact hrest g hp hhost

theorem brings_createService (decl : ServiceDecl) :
    Brings host p False (createService .proto3 p decl) := by
  rw [createService]
  exact .node rfl fun id => .forM_none _ fun method _ => .leaf rfl

mutual

theorem brings_createMessage (host : NodeKind → Prop) (p : NodeId) (decl : MessageDecl) :
    Brings host p decl.ExtendsRequired (createMessage .proto3 p decl) := by
  obtain ⟨name, isGroup, fields, oneofs, enums, messages, blocks, options, ranges, reserved,
    line⟩ := decl
  rw [createMessage]
  refine .node rfl fun id => ?_
  refine .congr (.bind (.forM_none _ fun decl _ => brings_createOneof decl) <|
    .bind (.forM_none _ fun decl _ => brings_createEnum decl) <|
    .bind (brings_createMessages _ id messages) <|
    .bind (.forM_none _ fun decl _ => (brings_createField decl).weaken ?_)
      (brings_createExtendBlocks _ id blocks)) ?_
  · rintro k rfl
    exact ⟨rfl, rfl⟩
  · rw [MessageDecl.extendsRequired_iff]
    simp

theorem brings_createMessages (host : NodeKind → Prop) (p : NodeId) (decls : List MessageDecl) :
    Brings host p (∃ decl ∈ decls, decl.ExtendsRequired) (createMessages .proto3 p decls) := by
  match decls with
  | [] =>
    rw [createMessages]
    exact Brings.pure.congr (by simp)
  | decl :: more =>
    rw [createMessages]
    exact ((brings_createMessage host p decl).bind (brings_createMessages host p more)).congr
      (by simp)

theorem brings_createExtendBlock (host : NodeKind → Prop) (p : NodeId)
    (block : ExtendDeclOf MessageDecl) :
    Brings host p (ExtendDecl.ExtendsRequired block) (createExtendBlock .proto3 p block) := by
  obtain ⟨extendee, fields, messages, line⟩ := block
  rw [createExtendBlock]
  exact (brings_createMessages host p messages).bind
    (.forM _ fun decl _ => brings_createExtension extendee decl)

theorem brings_createExtendBlocks (host : NodeKind → Prop) (p : NodeId)
    (blocks : List (ExtendDeclOf MessageDecl)) :
    Brings host p (∃ b ∈ blocks, ExtendDecl.ExtendsRequired b)
      (createExtendBlocks .proto3 p blocks) := by
  match blocks with
  | [] =>
    rw [createExtendBlocks]
    exact Brings.pure.congr (by simp)
  | block :: more =>
    rw [createExtendBlocks]
    exact ((brings_createExtendBlock host p block).bind
      (brings_createExtendBlocks host p more)).congr (by simp)

end

/-- A definition brings required fields exactly if one of its extension blocks declares one. -/
theorem brings_create (d : Definition) :
    Brings host p d.ExtendsRequired (create .proto3 p d) := by
  cases d with
  | message decl => exact brings_createMessage host p decl
  | enumeration decl => exact brings_createEnum decl
  | service decl => exact brings_createService decl
  | extension decl => exact brings_createExtendBlock host p decl

theorem brings_createAll (host : NodeKind → Prop) (definitions : List Definition) :
    Brings host p (∃ d ∈ definitions, d.ExtendsRequired)
      (createAll .proto3 p definitions) :=
  .forM definitions fun d _ => brings_create d

end GraphEdit

/-! ### Registries -/

namespace Registry

variable {r s t : Registry}

theorem Standing.leads_createRequired (h : r.Standing) (hdialect : r.dialect = .proto3)
    (definitions : List Definition) :
    Leads (· = r) (create definitions) (fun _ s => r.graph.Grown r.current s.graph ∧
      r.graph.RequiredAdded s.graph (∃ d ∈ definitions, d.ExtendsRequired)) fun _ => True := by
  rintro r rfl
  have hbrings := GraphEdit.brings_createAll (fun _ => True) definitions r.graph h.current.1
    trivial
  rw [← hdialect] at hbrings
  rw [run_create]
  rcases hbrings.outcome rfl with ⟨a, hresult, hs⟩ | ⟨e, hresult, -⟩
  · rw [hresult]
    exact hs
  · rw [hresult]
    trivial

/-- Nothing but packages has been added, and definitions are to be those of `proto3`. -/
structure Ready (r s : Registry) : Prop where
  reached : s.Reached
  opened : r.graph.Opened s.graph
  dialect : s.dialect = .proto3

theorem Ready.step (h : Ready r s) (hstep : Step False s t) (hopened : s.graph.Opened t.graph)
    (hdialect : t.dialect = s.dialect) : Ready r t :=
  ⟨h.reached.step hstep, h.opened.trans hopened, hdialect.trans h.dialect⟩

theorem Ready.withOptions (h : Ready r s) (options : Options) : Ready r (s.withOptions options) :=
  h.step (.options options)
    (Graph.opened_mapScope h.reached.standing.package fun _ => ⟨rfl, rfl⟩) rfl

theorem leads_define_ready (package : String) (options : Options) :
    Leads (Ready r) (define package options) (fun _ => Ready r) fun _ => True := by
  refine leads_define_of (fun name hname hne s t hs ht => ?_) (fun _ _ => trivial)
    fun s hs => hs.withOptions options
  cases ht with
  | there hchild hpackage =>
    exact hs.step (.descend (List.mem_of_find?_eq_some hchild) hpackage) (.refl _) rfl
  | opened _ hadd =>
    have hstanding := hs.reached.standing
    exact hs.step (.enter hname hne hadd)
      (Graph.opened_of_add hstanding.current.1 hstanding.package hadd) rfl

/-- What a file brings are its definitions, whatever package they are in. -/
theorem leads_addFile_required (hr : r.Reached) {file : FileDecl}
    (hdialect : file.dialect = .proto3) :
    Leads (· = r) (addFile file) (fun _ s =>
      r.graph.RequiredAdded s.graph (∃ d ∈ file.definitions, d.ExtendsRequired)) fun _ => True := by
  refine leads_addFile_of (B := Ready r) (M := Ready r) (fun s hs => ?_)
    (fun package _ => leads_define_ready package file.options)
    (fun _ s hs => hs.withOptions file.options) (Leads.each fun s hs => ?_)
  · rw [hs, hdialect]
    exact ⟨hr.begin .proto3, .refl _, rfl⟩
  · refine (hs.reached.standing.leads_createRequired hs.dialect file.definitions).mono
      (fun _ t ht => ?_) fun _ _ => trivial
    have hopened := Graph.requiredAdded_of_isPackage hs.opened.new
    exact (hopened.trans hs.opened.size ht.1 ht.2).congr (by simp)

theorem leads_importFile_required (hr : r.Reached) {file : FileDecl}
    (hdialect : file.dialect = .proto3) {name : Option String}
    (hname : ∀ n, name = some n → n ∉ r.files) :
    Leads (· = r) (importFile file name) (fun _ s =>
      r.graph.RequiredAdded s.graph (∃ d ∈ file.definitions, d.ExtendsRequired)) fun _ => True := by
  refine leads_importFile_of (fun _ => leads_addFile_required hr hdialect)
    (fun n hn s hs hmem => ?_) fun n _ s hs _ => ?_
  · rw [hs] at hmem
    exact absurd hmem (hname n hn)
  · rw [hs]
    exact leads_addFile_required (hr.note n) hdialect

theorem Call.leads_required (hr : r.Reached) {call : Call} {file : FileDecl}
    (h : call.Takes file) (hdialect : file.dialect = .proto3)
    (hname : ∀ n, call.name? = some n → n ∉ r.files) :
    Leads (· = r) call.edit (fun _ s =>
      r.graph.RequiredAdded s.graph (∃ d ∈ file.definitions, d.ExtendsRequired)) fun _ => True := by
  rcases h with ⟨name, rfl⟩ | ⟨source, name, rfl, hparse⟩
  · exact (leads_importFile_required hr hdialect hname).adapt
  · show Leads _ (Registry.load source name) _ _
    rw [Registry.load, hparse]
    exact (leads_importFile_required hr hdialect hname).adapt

/-- Required fields under `proto3`. Where definitions of this dialect have been added and were not
refused, be it by themselves, with a file or with a file that another one imports, none of the
fields of messages that came with them is required, on whatever level. Required fields came with
them exactly if one of their extension blocks declares one. The same holds of a file that is given
to a call as a description or as a text, if the file was not noted before. -/
theorem Built.required_of_proto3 (h : r.Built) :
    (∀ c : r.Creation, c.before.dialect = .proto3 → c.result = .ok () →
      c.before.graph.RequiredAdded c.after.graph (∃ d ∈ c.definitions, d.ExtendsRequired)) ∧
    ∀ (call : Call) (file : FileDecl), call.Takes file → file.dialect = .proto3 →
      (∀ name, call.name? = some name → name ∉ r.files) →
      ((ExceptT.run call.edit).run r).1 = .ok () →
      r.graph.RequiredAdded (r.after call.edit).graph
        (∃ d ∈ file.definitions, d.ExtendsRequired) := by
  refine ⟨fun c hdialect hok => ?_, fun call file htakes hdialect hname hok => ?_⟩
  · rcases (c.reached.standing.leads_createRequired hdialect c.definitions).outcome rfl with
      ⟨a, -, -, hadded⟩ | ⟨e, hresult, -⟩
    · exact hadded
    · rw [Creation.result, hresult] at hok
      cases hok
  · rcases (call.leads_required h.reached htakes hdialect hname).outcome rfl with
      ⟨a, -, hadded⟩ | ⟨e, hresult, -⟩
    · exact hadded
    · rw [hresult] at hok
      cases hok

/-- A `proto3` file of the package `a`, with a message that has a field, a message inside and an
extension block, and with an extension of the given rule. -/
def ruled (rule : Rule) : FileDecl :=
  let field (rule : Rule) (name : String) (id : UInt32) : FieldDecl :=
    { rule, typeName := "int32", keyType := none, name, id, options := {}, oneof := none,
      line := 1 }
  { dialect := .proto3
    package := some "a"
    messages := [
      { name := "M"
        fields := [field .implicit "x" 1]
        messages := [{ name := "N", fields := [field .repeated "y" 1] }]
        extendBlocks := [⟨"M", [field .optional "z" 100], [], 1⟩]
        extensionRanges := [(100, 200)] }]
    extendBlocks := [⟨"M", [field rule "w" 101], [], 1⟩] }

theorem not_extendsRequired_ruled : ¬∃ d ∈ (ruled .optional).definitions, d.ExtendsRequired := by
  rintro ⟨d, hd, h⟩
  simp only [ruled, FileDecl.definitions, List.map_cons, List.map_nil, List.nil_append,
    List.append_nil, List.cons_append, List.mem_cons, List.not_mem_nil, or_false] at hd
  rcases hd with rfl | rfl
  · rcases MessageDecl.extendsRequired_iff.mp h with ⟨n, hn, h⟩ | ⟨b, hb, h⟩
    · rw [List.mem_singleton.mp hn] at h
      have hparts := MessageDecl.extendsRequired_iff.mp h
      simp at hparts
    · rw [List.mem_singleton.mp hb] at h
      simp [ExtendDecl.ExtendsRequired] at h
  · simp [Definition.ExtendsRequired, ExtendDecl.ExtendsRequired] at h

/-- The file brings no required fields if its extension is optional. -/
theorem required_of_proto3_optional :
    let call := Call.importFile (ruled .optional) none
    ((ExceptT.run call.edit).run (empty {})).1 = .ok () ∧
      ∀ n, 1 ≤ n → (((empty {}).after call.edit).graph.kind n).isRequired = false := by
  intro call
  have hok : ((ExceptT.run call.edit).run (empty {})).1 = .ok () := by cbv
  have hadded := (Built.empty {}).required_of_proto3.2 call (ruled .optional) (.inl ⟨none, rfl⟩) rfl
    (fun name hname => by cases hname) hok
  refine ⟨hok, fun n hle => Bool.eq_false_iff.mpr fun hn => ?_⟩
  exact not_extendsRequired_ruled (hadded.iff.mp ⟨n, hle, hn⟩)

/-- A required extension is let in, by a file as well as by a text that sets its dialect at the
end. -/
theorem import_required :
    let file := Call.importFile (ruled .required) none
    let text := Call.load ("message M { extensions 100 to 200; } " ++
      "extend M { required int32 x = 100; } syntax = \"proto3\";") none
    let fieldOf (call : Call) (n : NodeId) :=
      (((empty {}).after call.edit).graph.field? n).map fun f => (f.dialect, f.rule)
    ((ExceptT.run file.edit).run (empty {})).1 = .ok () ∧
      fieldOf file 9 = some (.proto3, .required) ∧
    ((ExceptT.run text.edit).run (empty {})).1 = .ok () ∧
      fieldOf text 3 = some (.proto3, .required) := by
  refine ⟨?_, ?_, ?_, ?_⟩
  · cbv
  · cbv
  · cbv
  · cbv

end Registry

end Protobuf

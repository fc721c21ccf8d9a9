import Protobuf.Proofs.Action
import Protobuf.Proofs.Graph.Growth
import Protobuf.Proofs.Schema.Textual

/-!
# What definitions keep of a graph

Whatever is defined, and wherever its definition is refused, the graph grows in the steps of
`Graph.Step` only, so a property that is stable is kept. Where it is stable for texts only, the
definition has to be one that could come from a text.

A definition is added below a node with a scope. That such a node stays one is stable itself, so it
goes along with the property that is kept: what is below a definition is added while the definition
is known to be there.

The actions only look at the graph until they add a node. So the graph at hand is named where an
action begins, and the checks in between are known to leave it alone.

## Main definitions

* `Graph.FieldAdded`, `Graph.ExtensionAdded` — what adding a field, or an extension, does.

## Main results

* `GraphEdit.leads_createField`, `GraphEdit.leads_createExtension` — fields and extensions are added
  as a whole or not at all, although it takes two actions
* `GraphEdit.keeps_create` — definitions keep what is stable
-/

namespace Protobuf

/-- The name of the node of a field, by the name that is declared. -/
def Settings.fieldName (settings : Settings) (declared : String) : String :=
  if settings.camelCase then Text.camelCase declared else declared

/-- The name of a node has no dots if the declared name has none. -/
theorem Settings.proper_fieldName (settings : Settings) {declared : String}
    (h : Path.Proper declared) : Path.Proper (settings.fieldName declared) := by
  rw [fieldName]
  split
  · exact h.camelCase
  · exact h

namespace Graph

/-- A field has been added to a message, and to the oneof that it names. -/
inductive FieldAdded (g : Graph) (message : NodeId) (decl : FieldDecl) : Graph → Prop
  /-- The field names no oneof. -/
  | alone {g' : Graph} {id : NodeId} (hnumber : IsFieldNumber decl.id)
      (hclosed : (g.kind message).opens decl.id = false) (hdecl : decl.oneof = none)
      (hadd : g.add message (g.settings.fieldName decl.name)
        (.field (GraphEdit.fieldNode decl (g.dialectOf message) none none)) = .ok (id, g')) :
      FieldAdded g message decl g'
  /-- The field names a oneof of the message, which may have it. -/
  | member {g' : Graph} {id o : NodeId} {c : OneofNode} (hnumber : IsFieldNumber decl.id)
      (hclosed : (g.kind message).opens decl.id = false) (hdecl : decl.oneof = some (g.name o))
      (hsingle : decl.rule ≠ .repeated ∧ decl.rule ≠ .map) (hc : g.oneof? o = some c)
      (hbelow : o ∈ g.children message)
      (hadd : g.add message (g.settings.fieldName decl.name)
        (.field (GraphEdit.fieldNode decl (g.dialectOf message) (some o) none)) = .ok (id, g')) :
      FieldAdded g message decl (g'.mapKind o (·.addMember id))

/-- An extension has been added, and its field below it. -/
inductive ExtensionAdded (g : Graph) (dialect : Dialect) (parent : NodeId) (extendee : String)
    (decl : FieldDecl) : Graph → Prop
  | intro {g₁ g₂ : Graph} {x id : NodeId} (hnumber : IsFieldNumber decl.id)
      (hadd : g.add parent (g.settings.fieldName decl.name)
        (.extension { extendee, field := g.size + 1 }) = .ok (x, g₁))
      (hadd' : g₁.add x (g.settings.fieldName decl.name)
        (.field (GraphEdit.fieldNode decl dialect none (some x))) = .ok (id, g₂)) :
      ExtensionAdded g dialect parent extendee decl g₂

theorem IsFieldNumber.ne_zero {id : UInt32} (h : IsFieldNumber id) : id ≠ 0 := by
  rintro rfl
  exact absurd h.1 (by decide)

end Graph

namespace GraphEdit

variable {strict : Prop} {Inv : Graph → Prop}

theorem leads_add {parent : NodeId} {name : String} {kind : NodeKind} {P I : Graph → Prop}
    {Q : NodeId → Graph → Prop}
    (hQ : ∀ g, P g → ∀ id g', g.add parent name kind = .ok (id, g') → Q id g')
    (hI : ∀ g, P g → ∀ e, g.add parent name kind = .error e → I g) :
    Leads P (add parent name kind) Q I := by
  rw [add]
  refine Leads.bind (Q := fun g s => s = g ∧ P g) (Leads.get fun g hg => ⟨rfl, hg⟩) fun g => ?_
  split
  · rename_i id g' hadd
    refine Leads.bind (Q := fun _ s => s = g' ∧ P g) (Leads.set fun s hs => ⟨rfl, hs.2⟩) fun _ => ?_
    refine Leads.pure fun s hs => ?_
    rw [hs.1]
    exact hQ g hs.2 id g' hadd
  · rename_i e hadd
    refine Leads.throw fun s hs => ?_
    rw [hs.1]
    exact hI g hs.2 e hadd

/-- A node that is added by itself keeps what is stable. -/
theorem keeps_add (hInv : Graph.Stable strict Inv) {parent : NodeId}
    {name : String} (hname : strict → Path.Proper name) {kind : NodeKind}
    (hparent : ∀ g, Inv g → g.Takes parent kind) (hkind : kind.Fresh) :
    Keeps Inv (add parent name kind) :=
  leads_add (fun g hg _ _ hadd => hInv hg (.node (hparent g hg) hname hkind hadd))
    fun _ hg _ _ => hg

/-- A definition with a scope is there after it has been added. -/
theorem leads_addScope (hInv : Graph.Stable strict Inv) {parent : NodeId}
    (hparent : ∀ g, Inv g → g.Scoped parent) {name : String} (hname : strict → Path.Proper name)
    {kind : NodeKind} (hkind : kind.Fresh) (hscope : kind.hasScope) :
    Leads Inv (add parent name kind) (fun id g => Inv g ∧ g.Placed id kind) Inv := by
  refine leads_add ?_ fun _ hg _ _ => hg
  intro g hg id g' hadd
  obtain ⟨rfl, hplanted⟩ := Graph.planted_of_add (hparent g hg).1 hadd
  have htakes := (hparent g hg).takes (NodeKind.isPart_of_hasScope hscope)
  refine ⟨hInv hg (.node htakes hname hkind hadd), hplanted.lt_size, ?_⟩
  rw [hplanted.new]
  exact .refl _

/-- What is below a definition is added while the definition is known to be there. -/
theorem keeps_addScope (hInv : Graph.Stable strict Inv) {parent : NodeId}
    (hparent : ∀ g, Inv g → g.Scoped parent) {name : String} (hname : strict → Path.Proper name)
    {kind : NodeKind} (hkind : kind.Fresh) (hscope : kind.hasScope) {rest : NodeId → GraphEdit Unit}
    (hrest : ∀ (I : Graph → Prop) id, Graph.Stable strict I → (∀ g, I g → g.Placed id kind) →
      Keeps I (rest id)) : Keeps Inv (add parent name kind >>= rest) := by
  refine Leads.bind (leads_addScope hInv hparent hname hkind hscope) ?_
  intro id
  have hkeeps := hrest (fun g => Inv g ∧ g.Placed id kind) id
    (hInv.and (Graph.stable_placed id kind)) fun g hg => hg.2
  exact hkeeps.mono (fun _ g hg => hg.1) fun g hg => hg.1

/-! ### Kinds of definitions -/

theorem fresh_package (scope : Scope) (h : scope.children = []) :
    (NodeKind.package scope).Fresh :=
  ⟨h, rfl, rfl, by simp, by simp, by simp⟩

theorem fresh_message {m : MessageNode} (hscope : m.scope.children = []) (hfields : m.fields = [])
    (honeofs : m.oneofs = []) : (NodeKind.message m).Fresh :=
  ⟨hscope, hfields, honeofs, by simp, by simp, by simp⟩

theorem fresh_enumeration (scope : Scope) (h : scope.children = []) :
    (NodeKind.enumeration scope).Fresh :=
  ⟨h, rfl, rfl, by simp, by simp, by simp⟩

theorem fresh_enumValue (id : Int32) (options : Options) :
    (NodeKind.enumValue id options).Fresh :=
  ⟨rfl, rfl, rfl, by simp, by simp, by simp⟩

theorem fresh_service (scope : Scope) (h : scope.children = []) :
    (NodeKind.service scope).Fresh :=
  ⟨h, rfl, rfl, by simp, by simp, by simp⟩

theorem fresh_method (m : MethodNode) : (NodeKind.method m).Fresh :=
  ⟨rfl, rfl, rfl, by simp, by simp, by simp⟩

theorem fresh_oneof {c : OneofNode} (h : c.fields = []) : (NodeKind.oneof c).Fresh :=
  ⟨rfl, rfl, rfl, by simp, by simpa using h, by simp⟩

theorem fresh_field {f : FieldNode} (hid : f.id ≠ 0) (honeof : f.oneof = none)
    (hextension : f.extension = none) : (NodeKind.field f).Fresh :=
  ⟨rfl, rfl, rfl, by simpa using ⟨hid, honeof, hextension⟩, by simp, by simp⟩

/-! ### Fields -/

theorem leads_checkFieldId {P I : Graph → Prop} (label : String) (id : UInt32)
    (hI : ∀ g, P g → I g) :
    Leads P (checkFieldId label id) (fun _ g => P g ∧ Graph.IsFieldNumber id) I := by
  unfold checkFieldId
  extract_lets rest
  refine Leads.refuseIf hI fun hrange => ?_
  obtain ⟨hlo, hhi⟩ := not_or.mp hrange
  show Leads P (if _ then _ else _) _ I
  split
  · exact Leads.throw hI
  · rename_i hband
    exact Leads.pure fun g hg => ⟨hg, UInt32.not_lt.mp hlo, UInt32.not_lt.mp hhi, hband⟩

/-- The oneof that a field is found to belong to is the one of its message that it names, and the
field holds single values. -/
theorem leads_oneofOf {g : Graph} (message : NodeId) (decl : FieldDecl) (label : String) :
    Leads (· = g) (oneofOf message decl label) (fun oneof s => s = g ∧
      (oneof = none ∧ decl.oneof = none ∨ ∃ o c, oneof = some o ∧ decl.oneof = some (g.name o) ∧
        (decl.rule ≠ .repeated ∧ decl.rule ≠ .map) ∧ g.oneof? o = some c ∧
        o ∈ g.children message)) (· = g) := by
  rw [oneofOf]
  split
  · rename_i name hname
    refine Leads.bindGet ?_
    split
    · rename_i o ho
      extract_lets rest
      refine Leads.refuseIf (fun s hs => hs) fun hsingle => Leads.pure fun s hs => ?_
      obtain ⟨hchild, hsome⟩ := Option.filter_eq_some_iff.mp ho
      obtain ⟨c, hc⟩ := Option.isSome_iff_exists.mp hsome
      have hfound := List.find?_some hchild
      rw [← of_decide_eq_true hfound] at hname
      exact ⟨hs, .inr ⟨o, c, rfl, hname, not_or.mp hsingle, hc, List.mem_of_find?_eq_some hchild⟩⟩
    · exact Leads.throw fun s hs => hs
  · rename_i hname
    exact Leads.pure fun s hs => ⟨hs, .inl ⟨rfl, Option.eq_none_iff_forall_ne_some.mpr hname⟩⟩

theorem leads_fieldName {g : Graph} {I : Graph → Prop} (declared : String) :
    Leads (· = g) (fieldName declared)
      (fun name s => s = g ∧ name = g.settings.fieldName declared) I := by
  rw [fieldName]
  exact Leads.bindGet (Leads.pure fun s hs => ⟨hs, rfl⟩)

/-- A field is added as a whole or not at all. -/
theorem leads_createField {g : Graph} (message : NodeId) (decl : FieldDecl) :
    Leads (· = g) (createField message decl) (fun _ => g.FieldAdded message decl) (· = g) := by
  rw [createField]
  refine Leads.bindGet ?_
  extract_lets label rest rest'
  refine Leads.bind (leads_checkFieldId label decl.id fun s hs => hs) fun _ => ?_
  refine Leads.given fun hnumber => Leads.refuseIf (fun s hs => hs) fun hclosed => ?_
  refine Leads.refuseIf (fun s hs => hs) fun _ => ?_
  refine Leads.bind (leads_oneofOf message decl label) fun oneof => Leads.given fun honeof => ?_
  refine Leads.bind (leads_fieldName decl.name) fun name => Leads.given fun hname => ?_
  have hopens : (g.kind message).opens decl.id = false := by
    rw [Graph.message?] at hclosed
    cases hkind : g.kind message <;> rw [hkind] at hclosed <;> first
      | rfl
      | simpa [NodeKind.opens] using hclosed
  subst hname
  rcases honeof with ⟨rfl, hdecl⟩ | ⟨o, c, rfl, hdecl, hsingle, hc, hbelow⟩
  · refine Leads.bind (Q := fun _ => g.FieldAdded message decl)
      (leads_add (fun s hs id g' hadd => ?_) fun s hs _ _ => hs) fun id => Leads.pure fun s hs => hs
    rw [hs] at hadd
    exact .alone hnumber hopens hdecl hadd
  · -- Between the two actions the oneof does not know its member yet.
    refine Leads.bind (Q := fun id s => g.FieldAdded message decl (s.mapKind o (·.addMember id)))
      (leads_add (fun s hs id g' hadd => ?_) fun s hs _ _ => hs)
      fun id => Leads.modify fun s hs => ?_
    · rw [hs] at hadd
      exact .member hnumber hopens hdecl hsingle hc hbelow hadd
    · refine cast (congrArg (fun change => g.FieldAdded message decl (s.mapKind o change))
        (funext fun k => ?_)) hs
      cases k <;> rfl

/-- The node of an extension has nothing below it with which its field could clash. -/
theorem add_extension_ne_error {g g' : Graph} {parent x : NodeId} {name fieldName : String}
    {e : ExtensionNode} {f : FieldNode} (hparent : parent < g.size)
    (hadd : g.add parent name (.extension e) = .ok (x, g')) (err : DefinitionError) :
    g'.add x fieldName (.field f) ≠ .error err := by
  obtain ⟨rfl, hplanted⟩ := Graph.planted_of_add hparent hadd
  have hchild : g'.child? g.size fieldName = none := by
    show ((g'.kind g.size).children.find? _) = none
    rw [hplanted.new]
    rfl
  have hfields : g'.ownFields g.size = [] := by
    rw [Graph.ownFields_eq, hplanted.new]
    rfl
  have hok := Graph.add_eq_ok.mpr
    ⟨hchild, fun f' (_ : NodeKind.field f = .field f') => by simp [hfields], rfl, rfl⟩
  rw [hok]
  simp

/-- The two nodes of an extension are added both or not at all. -/
theorem leads_createExtension {g : Graph} (dialect : Dialect) {parent : NodeId}
    (hparent : parent < g.size) (extendee : String) (decl : FieldDecl) :
    Leads (· = g) (createExtension dialect parent extendee decl)
      (fun _ => g.ExtensionAdded dialect parent extendee decl) (· = g) := by
  rw [createExtension]
  refine Leads.bindGet ?_
  refine Leads.bind (leads_checkFieldId _ decl.id fun s hs => hs) fun _ =>
    Leads.given fun hnumber => ?_
  refine Leads.bind (leads_fieldName decl.name) fun name => Leads.given fun hname => ?_
  subst hname
  refine Leads.bind (leads_add (Q := fun x s => g.add parent (g.settings.fieldName decl.name)
    (.extension { extendee, field := g.size + 1 }) = .ok (x, s)) (fun s hs x g' hadd => ?_)
    fun s hs _ _ => hs) fun x => ?_
  · rw [hs] at hadd
    exact hadd
  · refine Leads.bind (Q := fun _ => g.ExtensionAdded dialect parent extendee decl)
      (leads_add (fun s hadd id g' hadd' => ?_) fun s hadd e herr => ?_)
      fun _ => Leads.pure fun s hs => hs
    · exact .intro hnumber hadd hadd'
    · exact absurd herr (add_extension_ne_error hparent hadd e)

section Definitions

variable (hInv : Graph.Stable strict Inv)

include hInv

/-- A member of a oneof is added in two actions, which are one step. -/
theorem keeps_createField {message : NodeId}
    (hmessage : ∀ g, Inv g → (g.kind message).isMessage)
    {decl : FieldDecl} (hdecl : strict → decl.Textual) : Keeps Inv (createField message decl) := by
  refine Leads.each fun g hg => ?_
  refine (leads_createField message decl).mono (fun _ s hs => ?_) fun s hs => hs ▸ hg
  have hname : strict → Path.Proper (g.settings.fieldName decl.name) :=
    fun h => Settings.proper_fieldName _ (hdecl h).name
  have htakes : ∀ f, g.Takes message (.field f) :=
    fun f => Graph.takes_of_isMessage (hmessage g hg) _
  cases hs with
  | alone hnumber _ _ hadd =>
    exact hInv hg (.node (htakes _) hname (fresh_field hnumber.ne_zero rfl rfl) hadd)
  | member hnumber _ hdecl' hsingle hc hbelow hadd =>
    exact hInv hg (.member (htakes _) hname hnumber.ne_zero rfl
      (fun h => (hdecl h).member (by rw [hdecl']; rfl)) hsingle rfl hc hbelow hadd)

/-- The two nodes of an extension are added one after the other, which is one step. -/
theorem keeps_createExtension (dialect : Dialect) {parent : NodeId}
    (hparent : ∀ g, Inv g → g.Scoped parent) (extendee : String) {decl : FieldDecl}
    (hdecl : strict → decl.Textual) :
    Keeps Inv (createExtension dialect parent extendee decl) := by
  refine Leads.each fun g hg => ?_
  refine (leads_createExtension dialect (hparent g hg).1 extendee decl).mono (fun _ s hs => ?_)
    fun s hs => hs ▸ hg
  obtain ⟨hnumber, hadd, hadd'⟩ := hs
  obtain ⟨rfl, -⟩ := Graph.planted_of_add (hparent g hg).1 hadd
  exact hInv hg (.extension (hparent g hg)
    (fun h => Settings.proper_fieldName _ (hdecl h).name) hnumber.ne_zero rfl rfl rfl hadd hadd')

/-! ### Definitions -/

theorem keeps_createOneof {message : NodeId}
    (hmessage : ∀ g, Inv g → (g.kind message).isMessage) {decl : OneofDecl}
    (hdecl : strict → Path.Proper decl.name) : Keeps Inv (createOneof message decl) := by
  rw [createOneof]
  exact Leads.bind (keeps_add hInv hdecl (fun g hg => Graph.takes_of_isMessage (hmessage g hg) _)
    (fresh_oneof rfl)) fun _ => Leads.pure fun g hg => hg

variable (dialect : Dialect)

theorem keeps_createEnum {parent : NodeId} (hparent : ∀ g, Inv g → g.Scoped parent)
    {decl : EnumDecl} (hdecl : strict → decl.Textual) :
    Keeps Inv (createEnum dialect parent decl) := by
  rw [createEnum]
  refine Leads.bind (Q := fun _ => Inv) (Leads.get fun g hg => hg) fun g => ?_
  have hrest : Keeps Inv (do
      let id ← add parent decl.name (.enumeration { options := decl.options, dialect })
      decl.values.forM fun value => do
        let _ ← add id value.name (.enumValue value.id value.options)) := by
    refine keeps_addScope hInv hparent (fun h => (hdecl h).name) (fresh_enumeration _ rfl) rfl ?_
    intro I id hI hid
    refine Leads.forM fun value hvalue => ?_
    exact Leads.bind (keeps_add hI (fun h => (hdecl h).values value hvalue)
      (fun g hg => ((hid g hg).scoped rfl).takes rfl) (fresh_enumValue _ _))
      fun _ => Leads.pure fun g hg => hg
  split
  · exact Leads.bind (Q := fun _ => Inv) (Leads.throw fun g hg => hg) fun _ => hrest
  · exact hrest

theorem keeps_createService {parent : NodeId} (hparent : ∀ g, Inv g → g.Scoped parent)
    {decl : ServiceDecl} (hdecl : strict → decl.Textual) :
    Keeps Inv (createService dialect parent decl) := by
  rw [createService]
  refine keeps_addScope hInv hparent (fun h => (hdecl h).name) (fresh_service _ rfl) rfl ?_
  intro I id hI hid
  refine Leads.forM fun method hmethod => ?_
  exact Leads.bind (keeps_add hI (fun h => (hdecl h).methods method hmethod)
    (fun g hg => ((hid g hg).scoped rfl).takes rfl) (fresh_method _))
    fun _ => Leads.pure fun g hg => hg

end Definitions

variable (dialect : Dialect)

mutual

theorem keeps_createMessage {Inv : Graph → Prop} (hInv : Graph.Stable strict Inv) {parent : NodeId}
    (hparent : ∀ g, Inv g → g.Scoped parent) (decl : MessageDecl) (h : strict → decl.Textual) :
    Keeps Inv (createMessage dialect parent decl) := by
  obtain ⟨name, isGroup, fields, oneofs, enums, messages, blocks, options, ranges, reserved,
    line⟩ := decl
  have hname : strict → Path.Proper name := fun hs => by
    obtain ⟨hname, -⟩ := h hs
    exact hname
  have hfields : strict → ∀ decl ∈ fields, decl.Textual := fun hs => by
    obtain ⟨-, hfields, -⟩ := h hs
    exact hfields
  have honeofs : strict → ∀ decl ∈ oneofs, Path.Proper decl.name := fun hs => by
    obtain ⟨-, -, honeofs, -⟩ := h hs
    exact honeofs
  have henums : strict → ∀ decl ∈ enums, decl.Textual := fun hs => by
    obtain ⟨-, -, -, henums, -⟩ := h hs
    exact henums
  have hmessages : strict → ∀ decl ∈ messages, decl.Textual := fun hs => by
    obtain ⟨-, -, -, -, hmessages, -⟩ := h hs
    exact hmessages
  have hblocks : strict → ∀ b ∈ blocks, ExtendDecl.Textual b := fun hs b hb => by
    obtain ⟨-, -, -, -, -, hextensions, hbodies⟩ := h hs
    exact ⟨hextensions b hb, hbodies b hb⟩
  rw [createMessage]
  refine keeps_addScope hInv hparent hname (fresh_message rfl rfl rfl) rfl ?_
  intro I id hI hplaced
  have hid : ∀ g, I g → g.Scoped id := fun g hg => (hplaced g hg).scoped rfl
  have hmessage : ∀ g, I g → (g.kind id).isMessage := fun g hg => (hplaced g hg).2.isMessage
  refine Leads.bind (Leads.forM fun decl hdecl =>
    keeps_createOneof hI hmessage fun hs => honeofs hs decl hdecl) fun _ => ?_
  refine Leads.bind (Leads.forM fun decl hdecl =>
    keeps_createEnum hI dialect hid fun hs => henums hs decl hdecl) fun _ => ?_
  refine Leads.bind (keeps_createMessages hI hid messages hmessages) fun _ => ?_
  refine Leads.bind (Leads.forM fun decl hdecl =>
    keeps_createField hI hmessage fun hs => hfields hs decl hdecl) fun _ => ?_
  exact keeps_createExtendBlocks hI hid blocks hblocks

theorem keeps_createMessages {Inv : Graph → Prop} (hInv : Graph.Stable strict Inv) {parent : NodeId}
    (hparent : ∀ g, Inv g → g.Scoped parent) (decls : List MessageDecl)
    (h : strict → ∀ decl ∈ decls, decl.Textual) :
    Keeps Inv (createMessages dialect parent decls) := by
  match decls with
  | [] =>
    rw [createMessages]
    exact Leads.pure fun g hg => hg
  | decl :: more =>
    rw [createMessages]
    exact Leads.bind
      (keeps_createMessage hInv hparent decl fun hs => h hs decl List.mem_cons_self)
      fun _ => keeps_createMessages hInv hparent more fun hs decl hdecl =>
        h hs decl (List.mem_cons_of_mem _ hdecl)

theorem keeps_createExtendBlock {Inv : Graph → Prop} (hInv : Graph.Stable strict Inv)
    {parent : NodeId} (hparent : ∀ g, Inv g → g.Scoped parent) (block : ExtendDeclOf MessageDecl)
    (h : strict → ExtendDecl.Textual block) :
    Keeps Inv (createExtendBlock dialect parent block) := by
  obtain ⟨extendee, fields, messages, line⟩ := block
  rw [createExtendBlock]
  refine Leads.bind (keeps_createMessages hInv hparent messages fun hs => (h hs).messages)
    fun _ => ?_
  exact Leads.forM fun decl hdecl =>
    keeps_createExtension hInv dialect hparent extendee fun hs => (h hs).fields decl hdecl

theorem keeps_createExtendBlocks {Inv : Graph → Prop} (hInv : Graph.Stable strict Inv)
    {parent : NodeId} (hparent : ∀ g, Inv g → g.Scoped parent)
    (blocks : List (ExtendDeclOf MessageDecl))
    (h : strict → ∀ b ∈ blocks, ExtendDecl.Textual b) :
    Keeps Inv (createExtendBlocks dialect parent blocks) := by
  match blocks with
  | [] =>
    rw [createExtendBlocks]
    exact Leads.pure fun g hg => hg
  | block :: more =>
    rw [createExtendBlocks]
    exact Leads.bind
      (keeps_createExtendBlock hInv hparent block fun hs => h hs block List.mem_cons_self)
      fun _ => keeps_createExtendBlocks hInv hparent more fun hs b hb =>
        h hs b (List.mem_cons_of_mem _ hb)

end

/-- Whatever is defined, and wherever that is refused, what is stable is kept. -/
theorem keeps_create (hInv : Graph.Stable strict Inv) {parent : NodeId}
    (hparent : ∀ g, Inv g → g.Scoped parent) {d : Definition} (h : strict → d.Textual) :
    Keeps Inv (create dialect parent d) := by
  cases d with
  | message decl => exact keeps_createMessage dialect hInv hparent decl h
  | enumeration decl => exact keeps_createEnum hInv dialect hparent h
  | service decl => exact keeps_createService hInv dialect hparent h
  | extension decl => exact keeps_createExtendBlock dialect hInv hparent decl h

/-- Several definitions are added one after the other. -/
def createAll (parent : NodeId) (definitions : List Definition) : GraphEdit Unit :=
  definitions.forM (create dialect parent)

theorem keeps_createAll (hInv : Graph.Stable strict Inv) {parent : NodeId}
    (hparent : ∀ g, Inv g → g.Scoped parent) {definitions : List Definition}
    (h : strict → ∀ d ∈ definitions, d.Textual) :
    Keeps Inv (createAll dialect parent definitions) :=
  Leads.forM fun d hd => keeps_create dialect hInv hparent fun hs => h hs d hd

end GraphEdit

end Protobuf

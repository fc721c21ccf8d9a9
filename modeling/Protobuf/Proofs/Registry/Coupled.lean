import Protobuf.Proofs.Coupled
import Protobuf.Proofs.Graph.Rename
import Protobuf.Proofs.Registry.Outline
import Protobuf.Proofs.Registry.Step

/-!
# Adding the same definitions to two graphs

Whether a definition can be added to a graph depends on little of the graph: on names and numbers
below the node to which it is added, and on what that node is. If all this is the same in another
graph, in which nodes may go by other numbers, then the definition is added there in the same way,
or is refused in both.

## Main definitions

* `Ground` — where definitions may be added.
* `Graph.Mirrors` — an addition finds the same in two graphs.
* `Graph.Coupling` — a relation of graphs that mirror each other, which additions keep.
* `GraphEdit.Alike` — two actions go the same way under such a relation.

## Main results

* `GraphEdit.alike_createAll` — definitions go the same way in both graphs
* `Registry.coupled_editGraph` — so do the registries that the graphs belong to
-/

namespace Protobuf

/-- The name of the node that stands for the outline. -/
def Outline.name : Outline → String
  | node name _ _ _ => name

namespace NodeKind

/-- The dialect of the file that a node comes from, where it is kept. -/
def dialect : NodeKind → Dialect
  | field f => f.dialect
  | other => other.scope?.elim .proto2 Scope.dialect

theorem dialect_face (k : NodeKind) : k.face.dialect = k.dialect := by
  cases k <;> rfl

theorem dialect_rename (φ : NodeId → NodeId) (k : NodeKind) : (k.rename φ).dialect = k.dialect := by
  cases k <;> rfl

end NodeKind

theorem Graph.dialectOf_eq {g : Graph} (n : NodeId) : g.dialectOf n = (g.kind n).dialect := by
  rw [dialectOf]
  cases g.kind n <;> rfl

/-- Where definitions may be added: below the nodes that are `inner`, and under the names that are
`free` below other nodes as well. -/
structure Ground where
  inner : NodeId → Prop
  free : NodeId → String → Prop
  free_of_inner : ∀ {p}, inner p → ∀ name, free p name

/-- Definitions may be added anywhere. -/
def Ground.everywhere : Ground :=
  ⟨fun _ => True, fun _ _ => True, fun _ _ => trivial⟩

namespace Graph

/-- Whatever an addition asks of the graph `h`, it gets the same answer of the graph `g`, in which
nodes go by other numbers, as long as it keeps to the ground. Names of nodes are the same if the
relation is `exact`. -/
structure Mirrors (φ : NodeId → NodeId) (settings : Settings) (exact : Prop) (ground : Ground)
    (g h : Graph) : Prop where
  fieldName : g.settings.fieldName = settings.fieldName ∧
    h.settings.fieldName = settings.fieldName
  next : ∀ i, φ (h.size + i) = g.size + i
  inner : ground.inner h.size
  child? : ∀ p name, ground.free p name → g.child? (φ p) name = (h.child? p name).map φ
  face : ∀ n, ground.inner n → (g.kind (φ n)).face = ((h.kind n).rename φ).face
  oneof : ∀ n, (g.oneof? (φ n)).isSome = (h.oneof? n).isSome
  numbers : ∀ p, ground.inner p → ∀ id,
    (g.ownFields (φ p)).any (g.hasFieldId id) = (h.ownFields p).any (h.hasFieldId id)
  fqn : exact → ∀ n, g.fqn (φ n) = h.fqn n
  scopeName : exact → ∀ n, g.scopeName (φ n) = h.scopeName n

/-- Graphs that are related mirror each other, and what is added to both keeps them related. -/
structure Coupling (φ : NodeId → NodeId) (settings : Settings) (exact : Prop)
    (ground : Ground) (R : Graph → Graph → Prop) : Prop where
  mirrors : ∀ {g h}, R g h → Mirrors φ settings exact ground g h
  add : ∀ {g h p name kind id h'}, R g h → ground.free p name → (kind.isField → ground.inner p) →
    h.add p name kind = .ok (id, h') →
      ∃ g', g.add (φ p) name (kind.rename φ) = .ok (φ id, g') ∧ R g' h'
  addMember : ∀ {g h o id}, R g h →
    R (g.mapKind (φ o) (·.addMember (φ id))) (h.mapKind o (·.addMember id))

theorem dialectOf_eq_of_face {φ : NodeId → NodeId} {g h : Graph} {n m : NodeId}
    (hface : (g.kind n).face = ((h.kind m).rename φ).face) : g.dialectOf n = h.dialectOf m := by
  rw [dialectOf_eq, dialectOf_eq, ← NodeKind.dialect_face, hface, NodeKind.dialect_face,
    NodeKind.dialect_rename]

theorem any_acceptsExtension_eq {g : Graph} (n : NodeId) (id : UInt32) :
    (g.message? n).any (·.acceptsExtension id) = (g.kind n).opens id := by
  rw [message?]
  cases g.kind n <;> rfl

/-- A node is refused if its name is taken, or its number if it is a field. -/
theorem add_eq_error {g : Graph} {p : NodeId} {name : String} {kind : NodeKind}
    {e : DefinitionError} :
    g.add p name kind = .error e ↔
      (g.child? p name).isSome ∧ e = .duplicateName (g.scopeName p) name ∨
      g.child? p name = none ∧ ∃ f, kind = .field f ∧
        (g.ownFields p).any (g.hasFieldId f.id) ∧ e = .duplicateFieldId (g.fqn p) f.id := by
  simp only [Graph.add]
  split
  · rename_i hsome
    constructor
    · intro h
      cases h
      exact .inl ⟨hsome, rfl⟩
    · rintro (⟨-, rfl⟩ | ⟨hnone, -⟩)
      · rfl
      · rw [hnone] at hsome
        cases hsome
  · rename_i hnone
    rw [Option.not_isSome_iff_eq_none] at hnone
    split
    · rename_i f
      split
      · rename_i htaken
        constructor
        · intro h
          cases h
          exact .inr ⟨hnone, f, rfl, htaken, rfl⟩
        · rintro (⟨hsome, -⟩ | ⟨-, f', hf', -, rfl⟩)
          · rw [hnone] at hsome
            cases hsome
          · cases hf'
            rfl
      · rename_i hfree
        constructor
        · intro h
          cases h
        · rintro (⟨hsome, -⟩ | ⟨-, f', hf', htaken, -⟩)
          · rw [hnone] at hsome
            cases hsome
          · cases hf'
            exact absurd htaken hfree
    · rename_i hfield
      constructor
      · intro h
        cases h
      · rintro (⟨hsome, -⟩ | ⟨-, f, hf, -⟩)
        · rw [hnone] at hsome
          cases hsome
        · exact absurd hf (hfield f)

/-- What is refused in one graph is refused in the other one. -/
theorem Mirrors.add_eq_error {φ : NodeId → NodeId} {settings : Settings} {exact : Prop}
    {ground : Ground} {g h : Graph} (hm : Mirrors φ settings exact ground g h) {p : NodeId}
    {name : String} {kind : NodeKind} (hp : ground.free p name)
    (hfield : kind.isField → ground.inner p) {e : DefinitionError}
    (hadd : h.add p name kind = .error e) :
    ∃ e', g.add (φ p) name (kind.rename φ) = .error e' ∧ (exact → e' = e) := by
  have hchild := hm.child? p name hp
  simp only [Graph.add_eq_error, hchild]
  rcases Graph.add_eq_error.mp hadd with ⟨hsome, rfl⟩ | ⟨hnone, f, rfl, htaken, rfl⟩
  · refine ⟨.duplicateName (g.scopeName (φ p)) name, .inl ⟨?_, rfl⟩, fun hexact => ?_⟩
    · rw [Option.isSome_map, hsome]
    · rw [hm.scopeName hexact]
  · refine ⟨.duplicateFieldId (g.fqn (φ p)) f.id, .inr ⟨?_, f.rename φ, rfl, ?_, rfl⟩,
      fun hexact => ?_⟩
    · rw [hnone, Option.map_none]
    · rw [← htaken]
      exact hm.numbers p (hfield rfl) f.id
    · rw [hm.fqn hexact]

end Graph

namespace GraphEdit

open Protobuf.Graph

variable {φ : NodeId → NodeId} {settings : Settings} {exact : Prop} {ground : Ground}
  {R : Graph → Graph → Prop}

/-- The actions go the same way, and errors are the same if the relation is exact. -/
abbrev Alike {α β : Type} (R : Graph → Graph → Prop) (exact : Prop) (V : α → β → Prop) (g h : Graph)
    (x : GraphEdit α) (y : GraphEdit β) : Prop :=
  Coupled R (fun e e' => exact → e = e') V g h x y

section

variable (hR : Coupling φ settings exact ground R) {g h : Graph} {p : NodeId}

include hR

theorem alike_add (hgh : R g h) {name : String} {kind kind' : NodeKind}
    (hkind : kind' = kind.rename φ) (hp : ground.free p name)
    (hfield : kind.isField → ground.inner p) :
    Alike R exact (fun a b => a = φ b ∧ ground.inner b) g h (add (φ p) name kind')
      (add p name kind) := by
  rw [hkind, add, add]
  refine Coupled.bindGet ?_
  have hm := hR.mirrors hgh
  cases hadd : h.add p name kind with
  | ok r =>
    obtain ⟨id, h'⟩ := r
    obtain ⟨g', hadd', hgh'⟩ := hR.add hgh hp hfield hadd
    rw [hadd']
    refine Coupled.bind (V := fun _ _ => True) (Coupled.set trivial hgh') fun _ _ _ _ _ hgh' => ?_
    refine Coupled.pure ⟨rfl, ?_⟩ hgh'
    rw [(add_eq_ok.mp hadd).2.2.1]
    exact hm.inner
  | error e =>
    obtain ⟨e', hadd', he⟩ := hm.add_eq_error hp hfield hadd
    rw [hadd']
    exact Coupled.throw he hgh

/-! ### Fields -/

omit hR in
theorem alike_checkFieldId (hgh : R g h) {label label' : String} (hlabel : exact → label = label')
    (id : UInt32) : Alike R exact (fun _ _ => True) g h (checkFieldId label id)
      (checkFieldId label' id) := by
  unfold checkFieldId
  extract_lets rest rest'
  refine Coupled.refuseIf Iff.rfl (fun hexact => by rw [hlabel hexact]) hgh fun _ => ?_
  show Alike R exact _ g h (if _ then _ else _) (if _ then _ else _)
  split
  · exact Coupled.throw (fun hexact => by rw [hlabel hexact]) hgh
  · exact Coupled.pure trivial hgh

theorem alike_fieldName (hgh : R g h) (declared : String) :
    Alike R exact (fun a b => a = settings.fieldName declared ∧ b = settings.fieldName declared) g h
      (fieldName declared) (fieldName declared) := by
  obtain ⟨hg, hh⟩ := (hR.mirrors hgh).fieldName
  rw [fieldName]
  exact Coupled.bindGet (Coupled.pure ⟨congrFun hg declared, congrFun hh declared⟩ hgh)

theorem alike_oneofOf (hgh : R g h) (hp : ground.inner p) (decl : FieldDecl) {label label' : String}
    (hlabel : exact → label = label') :
    Alike R exact (fun a b => a = b.map φ) g h (oneofOf (φ p) decl label)
      (oneofOf p decl label') := by
  have hm := hR.mirrors hgh
  rw [oneofOf, oneofOf]
  split
  · rename_i name hname
    refine Coupled.bindGet ?_
    have hfound : (g.child? (φ p) name).filter (fun o => (g.oneof? o).isSome) =
        ((h.child? p name).filter fun o => (h.oneof? o).isSome).map φ := by
      rw [hm.child? p name (ground.free_of_inner hp name)]
      cases h.child? p name with
      | none => rfl
      | some o =>
        simp only [Option.map_some, Option.filter_some, hm.oneof]
        split <;> rfl
    rw [hfound]
    cases (h.child? p name).filter fun o => (h.oneof? o).isSome with
    | none => exact Coupled.throw (fun hexact => by rw [hlabel hexact]) hgh
    | some o =>
      dsimp only [Option.map_some]
      refine Coupled.refuseIf Iff.rfl (fun hexact => by rw [hm.fqn hexact, hlabel hexact]) hgh
        fun _ => ?_
      exact Coupled.pure rfl hgh
  · exact Coupled.pure rfl hgh

theorem alike_createField (hgh : R g h) (hp : ground.inner p) (decl : FieldDecl) :
    Alike R exact (fun _ _ => True) g h (createField (φ p) decl) (createField p decl) := by
  have hm := hR.mirrors hgh
  have hface := hm.face p hp
  rw [createField, createField]
  refine Coupled.bindGet ?_
  extract_lets label dialect rest rest' label' dialect' more more'
  have hlabel : exact → label = label' := fun hexact => by
    show s!"{g.fqn (φ p)}.{decl.name}" = s!"{h.fqn p}.{decl.name}"
    rw [hm.fqn hexact]
  have hdialect : dialect = dialect' := dialectOf_eq_of_face hface
  have hopens : (g.kind (φ p)).opens decl.id = (h.kind p).opens decl.id := by
    rw [← NodeKind.opens_face, hface, NodeKind.opens_face, NodeKind.opens_rename]
  refine Coupled.bind (alike_checkFieldId hgh hlabel decl.id) fun _ _ g h _ hgh => ?_
  refine Coupled.refuseIf (by rw [any_acceptsExtension_eq, any_acceptsExtension_eq, hopens])
    (fun hexact => by rw [hlabel hexact, hm.fqn hexact]) hgh fun _ => ?_
  refine Coupled.refuseIf (by rw [hdialect]) (fun hexact => by rw [hm.fqn hexact]) hgh fun _ => ?_
  refine Coupled.bind (alike_oneofOf hR hgh hp decl hlabel) fun oneof oneof' g h honeof hgh => ?_
  refine Coupled.bind (alike_fieldName hR hgh decl.name) fun name name' g h hname hgh => ?_
  obtain ⟨rfl, rfl⟩ := hname
  subst honeof
  rw [hdialect]
  refine Coupled.bind (alike_add hR hgh rfl (ground.free_of_inner hp _) fun _ => hp) fun id id' g h hid hgh => ?_
  obtain ⟨rfl, -⟩ := hid
  cases oneof' with
  | none => exact Coupled.pure trivial hgh
  | some o => exact Coupled.modify trivial (hR.addMember hgh)

/-! ### Definitions -/

theorem alike_createOneof (hgh : R g h) (hp : ground.inner p) (decl : OneofDecl) :
    Alike R exact (fun _ _ => True) g h (createOneof (φ p) decl) (createOneof p decl) :=
  Coupled.bind (alike_add hR hgh rfl (ground.free_of_inner hp _) fun _ => hp)
    fun _ _ _ _ _ hgh => Coupled.pure trivial hgh

variable (dialect : Dialect)

theorem alike_createEnum (hgh : R g h) (decl : EnumDecl) (hp : ground.free p decl.name) :
    Alike R exact (fun _ _ => True) g h (createEnum dialect (φ p) decl)
      (createEnum dialect p decl) := by
  have hm := hR.mirrors hgh
  rw [createEnum, createEnum]
  refine Coupled.bindGet ?_
  rw [hm.child? p decl.name hp]
  cases h.child? p decl.name with
  | some c =>
    exact Coupled.bind (V := fun _ _ => False)
      (Coupled.throw (fun hexact => by rw [hm.fqn hexact]) hgh) fun _ _ _ _ h => h.elim
  | none =>
    refine Coupled.bind (alike_add hR hgh rfl hp fun hfield => by cases hfield) fun id id' g h hid hgh => ?_
    obtain ⟨rfl, hin⟩ := hid
    refine Coupled.forM hgh fun value _ g h hgh => ?_
    exact Coupled.bind (alike_add hR hgh rfl (ground.free_of_inner hin _) fun _ => hin)
      fun _ _ _ _ _ hgh => Coupled.pure trivial hgh

theorem alike_createService (hgh : R g h) (decl : ServiceDecl) (hp : ground.free p decl.name) :
    Alike R exact (fun _ _ => True) g h (createService dialect (φ p) decl)
      (createService dialect p decl) := by
  rw [createService, createService]
  refine Coupled.bind (alike_add hR hgh rfl hp fun hfield => by cases hfield) fun id id' g h hid hgh => ?_
  obtain ⟨rfl, hin⟩ := hid
  refine Coupled.forM hgh fun method _ g h hgh => ?_
  exact Coupled.bind (alike_add hR hgh rfl (ground.free_of_inner hin _) fun _ => hin)
    fun _ _ _ _ _ hgh => Coupled.pure trivial hgh

theorem alike_createExtension (hgh : R g h) (extendee : String) (decl : FieldDecl)
    (hp : ground.free p (settings.fieldName decl.name)) :
    Alike R exact (fun _ _ => True) g h (createExtension dialect (φ p) extendee decl)
      (createExtension dialect p extendee decl) := by
  have hm := hR.mirrors hgh
  rw [createExtension, createExtension]
  refine Coupled.bindGet ?_
  refine Coupled.bind (alike_checkFieldId hgh (fun hexact => by rw [hm.fqn hexact]) decl.id)
    fun _ _ g' h' _ hgh => ?_
  refine Coupled.bind (alike_fieldName hR hgh decl.name) fun name name' g' h' hname hgh => ?_
  obtain ⟨rfl, rfl⟩ := hname
  have hkind : NodeKind.extension { extendee, field := g.size + 1 } =
      (NodeKind.extension { extendee, field := h.size + 1 }).rename φ := by
    rw [← hm.next 1]
    rfl
  refine Coupled.bind (alike_add hR hgh hkind hp fun hfield => by cases hfield) fun x x' g' h' hx hgh => ?_
  obtain ⟨rfl, hin⟩ := hx
  exact Coupled.bind (alike_add hR hgh rfl (ground.free_of_inner hin _) fun _ => hin)
    fun _ _ _ _ _ hgh => Coupled.pure trivial hgh

end

variable (dialect : Dialect)

mutual

theorem alike_createMessage (hR : Coupling φ settings exact ground R) {g h : Graph} (hgh : R g h)
    (p : NodeId) (decl : MessageDecl)
    (hp : ground.free p (decl.outline settings dialect).name) :
    Alike R exact (fun _ _ => True) g h (createMessage dialect (φ p) decl)
      (createMessage dialect p decl) := by
  obtain ⟨name, isGroup, fields, oneofs, enums, messages, blocks, options, ranges, reserved,
    line⟩ := decl
  rw [MessageDecl.outline] at hp
  rw [createMessage, createMessage]
  refine Coupled.bind (alike_add hR hgh rfl hp fun hfield => by cases hfield) fun id id' g h hid hgh => ?_
  obtain ⟨rfl, hin⟩ := hid
  refine Coupled.bind (Coupled.forM hgh fun decl _ g h hgh => alike_createOneof hR hgh hin decl)
    fun _ _ g h _ hgh => ?_
  refine Coupled.bind (Coupled.forM hgh fun decl _ g h hgh =>
    alike_createEnum hR dialect hgh decl (ground.free_of_inner hin _)) fun _ _ g h _ hgh => ?_
  refine Coupled.bind (alike_createMessages hR hgh id' messages fun _ _ => ground.free_of_inner hin _)
    fun _ _ g h _ hgh => ?_
  refine Coupled.bind (Coupled.forM hgh fun decl _ g h hgh => alike_createField hR hgh hin decl)
    fun _ _ g h _ hgh => ?_
  exact alike_createExtendBlocks hR hgh id' blocks fun _ _ => ground.free_of_inner hin _

theorem alike_createMessages (hR : Coupling φ settings exact ground R) {g h : Graph} (hgh : R g h)
    (p : NodeId) (decls : List MessageDecl)
    (hp : ∀ o ∈ MessageDecl.outlines settings dialect decls, ground.free p o.name) :
    Alike R exact (fun _ _ => True) g h (createMessages dialect (φ p) decls)
      (createMessages dialect p decls) := by
  match decls with
  | [] =>
    rw [createMessages, createMessages]
    exact Coupled.pure trivial hgh
  | decl :: more =>
    rw [MessageDecl.outlines] at hp
    rw [createMessages, createMessages]
    exact Coupled.bind
      (alike_createMessage hR hgh p decl (hp _ List.mem_cons_self))
      fun _ _ g h _ hgh => alike_createMessages hR hgh p more fun o ho =>
        hp o (List.mem_cons_of_mem _ ho)

theorem alike_createExtendBlock (hR : Coupling φ settings exact ground R) {g h : Graph} (hgh : R g h)
    (p : NodeId) (block : ExtendDeclOf MessageDecl)
    (hp : ∀ o ∈ ExtendDecl.outlines settings dialect block, ground.free p o.name) :
    Alike R exact (fun _ _ => True) g h (createExtendBlock dialect (φ p) block)
      (createExtendBlock dialect p block) := by
  obtain ⟨extendee, fields, messages, line⟩ := block
  rw [ExtendDecl.outlines] at hp
  rw [createExtendBlock, createExtendBlock]
  refine Coupled.bind (alike_createMessages hR hgh p messages fun o ho =>
    hp o (List.mem_append_left _ ho)) fun _ _ g h _ hgh => ?_
  exact Coupled.forM hgh fun decl hdecl _ _ hgh =>
    alike_createExtension hR dialect hgh extendee decl
      (hp _ (List.mem_append_right _ (List.mem_map_of_mem hdecl)))

theorem alike_createExtendBlocks (hR : Coupling φ settings exact ground R) {g h : Graph} (hgh : R g h)
    (p : NodeId) (blocks : List (ExtendDeclOf MessageDecl))
    (hp : ∀ o ∈ ExtendDecl.allOutlines settings dialect blocks, ground.free p o.name) :
    Alike R exact (fun _ _ => True) g h (createExtendBlocks dialect (φ p) blocks)
      (createExtendBlocks dialect p blocks) := by
  match blocks with
  | [] =>
    rw [createExtendBlocks, createExtendBlocks]
    exact Coupled.pure trivial hgh
  | block :: more =>
    rw [ExtendDecl.allOutlines] at hp
    rw [createExtendBlocks, createExtendBlocks]
    exact Coupled.bind
      (alike_createExtendBlock hR hgh p block fun o ho =>
        hp o (List.mem_append_left _ ho))
      fun _ _ g h _ hgh => alike_createExtendBlocks hR hgh p more fun o ho =>
        hp o (List.mem_append_right _ ho)

end

/-- A definition goes the same way in both graphs. -/
theorem alike_create (hR : Coupling φ settings exact ground R) {g h : Graph} (hgh : R g h)
    (p : NodeId) (d : Definition) (hp : ∀ o ∈ d.outlines settings dialect, ground.free p o.name) :
    Alike R exact (fun _ _ => True) g h (create dialect (φ p) d) (create dialect p d) := by
  cases d with
  | message decl =>
    exact alike_createMessage dialect hR hgh p decl (hp _ List.mem_cons_self)
  | enumeration decl =>
    exact alike_createEnum hR dialect hgh decl (hp _ List.mem_cons_self)
  | service decl =>
    exact alike_createService hR dialect hgh decl (hp _ List.mem_cons_self)
  | extension decl => exact alike_createExtendBlock dialect hR hgh p decl hp

/-- So do several definitions. -/
theorem alike_createAll (hR : Coupling φ settings exact ground R) {g h : Graph} (hgh : R g h)
    (p : NodeId) (definitions : List Definition)
    (hp : ∀ o ∈ definitions.flatMap (Definition.outlines settings dialect),
      ground.free p o.name) :
    Alike R exact (fun _ _ => True) g h (createAll dialect (φ p) definitions)
      (createAll dialect p definitions) :=
  Coupled.forM hgh fun d hd _ _ hgh => alike_create dialect hR hgh p d fun o ho =>
    hp o (List.mem_flatMap.mpr ⟨d, hd, ho⟩)

end GraphEdit

/-! ### Registries -/

/-- What is coupled on the graphs of two registries is coupled on the registries. -/
theorem Registry.coupled_editGraph {α β : Type} {R : Graph → Graph → Prop}
    {R' : Registry → Registry → Prop} {E : DefinitionError → DefinitionError → Prop}
    {V : α → β → Prop} {r s : Registry} {x : GraphEdit α} {y : GraphEdit β}
    (hxy : Coupled R E V r.graph s.graph x y)
    (hR : ∀ g h, R g h → R' { r with graph := g } { s with graph := h }) :
    Coupled R' E V r s (editGraph x) (editGraph y) := by
  rw [Coupled, run_editGraph, run_editGraph]
  rw [Coupled] at hxy
  generalize (ExceptT.run x).run r.graph = a at hxy
  generalize (ExceptT.run y).run s.graph = b at hxy
  cases hxy with
  | ok hV hgh => exact .ok hV (hR _ _ hgh)
  | error hE hgh => exact .error hE (hR _ _ hgh)

end Protobuf

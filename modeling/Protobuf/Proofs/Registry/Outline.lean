import Protobuf.Proofs.Graph.Outline
import Protobuf.Proofs.Registry.Create

/-!
# What definitions add to a graph

A definition that is not refused adds the whole of its outline. One that is refused has added a
beginning of it, up to the place of the refusal: a field, a value, a method or a definition inside
that could not be added. Either way nothing else has become of the graph, and the numbers of all
fields are admissible.

The two ways out of an action are stated together, as `GraphEdit.Adds`. It comes with a law for
sequences, one for loops and one for nodes with something below them, so that each action is
followed as it is written.

## Main definitions

* `FieldDecl.outline`, `EnumDecl.outline`, `ServiceDecl.outline`, `MessageDecl.outline` and
  `Definition.outlines` — the outlines of declarations.
* `Graph.Gained`, `Graph.Halted` — outlines have been added to a graph, or a beginning of them.
* `GraphEdit.Adds` — an action adds outlines, or is refused midway.

## Main results

* `GraphEdit.Adds.bind`, `GraphEdit.Adds.flatMap`, `GraphEdit.Adds.node` — the laws
* `GraphEdit.adds_create` — a definition adds its outlines, or is refused midway
-/

namespace Protobuf

/-! ### Outlines of declarations -/

section Outlines

variable (settings : Settings) (dialect : Dialect)

/-- The outline of a field of a message. -/
def FieldDecl.outline (decl : FieldDecl) : Outline :=
  .node (settings.fieldName decl.name) (.field (GraphEdit.fieldNode decl dialect none none))
    decl.oneof []

/-- The outline of a field of an extension block: an extension, and the field below it, which is a
member of no oneof. -/
def FieldDecl.extensionOutline (extendee : String) (decl : FieldDecl) : Outline :=
  .node (settings.fieldName decl.name) (.extension { extendee, field := Graph.root }) none
    [outline settings dialect { decl with oneof := none }]

/-- The outline of a oneof. -/
def OneofDecl.outline (decl : OneofDecl) : Outline :=
  .node decl.name (.oneof { options := decl.options }) none []

/-- The outline of an enum. -/
def EnumDecl.outline (decl : EnumDecl) : Outline :=
  .node decl.name (.enumeration { options := decl.options, dialect }) none
    (decl.values.map fun value => .node value.name (.enumValue value.id value.options) none [])

/-- The outline of a service. -/
def ServiceDecl.outline (decl : ServiceDecl) : Outline :=
  .node decl.name (.service { options := decl.options, dialect }) none
    (decl.methods.map fun method => .node method.name (.method
      { requestName := method.request, responseName := method.response,
        requestStream := method.requestStream, responseStream := method.responseStream,
        options := method.options }) none [])

mutual

/-- The outline of a message, with everything below it in the order in which it is added. -/
def MessageDecl.outline : MessageDecl → Outline
  | ⟨name, isGroup, fields, oneofs, enums, messages, blocks, options, ranges, reserved, _⟩ =>
    .node name
      (.message
        { scope := { options, dialect }, extensionRanges := ranges, reserved, isGroup }) none
      (oneofs.map OneofDecl.outline ++ (enums.map (EnumDecl.outline dialect) ++
        (MessageDecl.outlines messages ++ (fields.map (FieldDecl.outline settings dialect) ++
          ExtendDecl.allOutlines blocks))))

/-- The outlines of messages. -/
def MessageDecl.outlines : List MessageDecl → List Outline
  | [] => []
  | decl :: more => MessageDecl.outline decl :: MessageDecl.outlines more

/-- The outlines of an extension block: the bodies of its groups, then its extensions. -/
def ExtendDecl.outlines : ExtendDeclOf MessageDecl → List Outline
  | ⟨extendee, fields, messages, _⟩ =>
    MessageDecl.outlines messages ++
      fields.map (FieldDecl.extensionOutline settings dialect extendee)

/-- The outlines of extension blocks. -/
def ExtendDecl.allOutlines : List (ExtendDeclOf MessageDecl) → List Outline
  | [] => []
  | block :: more => ExtendDecl.outlines block ++ ExtendDecl.allOutlines more

end

/-- The outlines of a definition. Only an extension block has more than one, or none. -/
def Definition.outlines : Definition → List Outline
  | .message decl => [decl.outline settings dialect]
  | .enumeration decl => [decl.outline dialect]
  | .service decl => [decl.outline dialect]
  | .extension decl => ExtendDecl.outlines settings dialect decl

end Outlines

/-! ### Graphs with outlines added -/

namespace Graph

variable {g g' g'' : Graph} {p : NodeId} {outlines more : List Outline}

/-- The outlines have been added below `p`, each with everything below it. -/
def Gained (g : Graph) (p : NodeId) (outlines : List Outline) (g' : Graph) : Prop :=
  ∃ new, g.Enlarged p new g' ∧ List.Forall₂ (g'.Whole g.size) new outlines

/-- A beginning of the outlines has been added below `p`. -/
def Halted (g : Graph) (p : NodeId) (outlines : List Outline) (g' : Graph) : Prop :=
  ∃ new, g.Enlarged p new g' ∧ g'.Stopped g.size new outlines

theorem gained_nil (g : Graph) (p : NodeId) : g.Gained p [] g :=
  ⟨[], .refl p, .nil⟩

theorem halted_cons (g : Graph) (p : NodeId) (o : Outline) (more : List Outline) :
    g.Halted p (o :: more) g :=
  ⟨[], .refl p, .before .nil o more⟩

/-- What has been added below a node stays whole while more is added there. -/
theorem Enlarged.forall₂ {new new' : List NodeId} (h' : g'.Enlarged p new' g'') (hp : p < g.size)
    (hw : List.Forall₂ (g'.Whole g.size) new outlines) :
    List.Forall₂ (g''.Whole g.size) new outlines :=
  (h'.toGrown.preserves hp).forall₂ hw

theorem Gained.trans (h : g.Gained p outlines g') (hp : p < g.size) (h' : g'.Gained p more g'') :
    g.Gained p (outlines ++ more) g'' := by
  obtain ⟨new, hnew, hw⟩ := h
  obtain ⟨new', hnew', hw'⟩ := h'
  exact ⟨new ++ new', hnew.trans hnew',
    List.rel_append (hnew'.forall₂ hp hw) (forall₂_of_le hnew.size hw')⟩

theorem Gained.halted (h : g.Gained p outlines g') (hp : p < g.size) (h' : g'.Halted p more g'') :
    g.Halted p (outlines ++ more) g'' := by
  obtain ⟨new, hnew, hw⟩ := h
  obtain ⟨new', hnew', hs⟩ := h'
  exact ⟨new ++ new', hnew.trans hnew', (hs.of_le hnew.size).append_left (hnew'.forall₂ hp hw)⟩

theorem Halted.append (h : g.Halted p outlines g') (more : List Outline) :
    g.Halted p (outlines ++ more) g' := by
  obtain ⟨new, hnew, hs⟩ := h
  exact ⟨new, hnew, hs.append_right more⟩

/-! ### One node -/

section Node

variable {id : NodeId} {name : String} {kind : NodeKind}

/-- A new node is what it was declared to be, and stays so while more is added below it. -/
theorem shows_of_add {new : List NodeId} {oneof : Option String} (hp : p < g.size)
    (hpackage : kind.isPackage = false) (hadd : g.add p name kind = .ok (id, g'))
    (h : g'.Enlarged g.size new g'')
    (honeof : ∀ o, kind.memberOf? = some o → o < g.size ∧ oneof = some (g.name o))
    (hnone : kind.memberOf? = none → oneof = none) :
    g''.Shows g.size name kind.declared oneof := by
  obtain ⟨-, hplanted, hgrown⟩ := grown_of_add hp hadd
  have hlt : g.size < g'.size := hplanted.lt_size
  have hface : (g''.kind g.size).face = kind.face := by rw [h.face_kind hlt, hplanted.new]
  have hmember : (g''.kind g.size).memberOf? = kind.memberOf? :=
    (NodeKind.like_of_face_eq hface).memberOf?
  refine ⟨Nat.lt_of_lt_of_le hlt h.size, ?_, ?_, ?_, ?_, ?_⟩
  · rw [h.name hlt, hplanted.names, if_pos rfl]
  · rw [← NodeKind.declared_face, hface, NodeKind.declared_face]
  · rw [h.isPackage hlt, hplanted.new, hpackage]
  · rw [hmember]
    cases ho : kind.memberOf? with
    | none => exact (hnone ho).symm
    | some o =>
      obtain ⟨hlt', hname⟩ := honeof o ho
      rw [hname, Option.map_some, h.name (Nat.lt_trans hlt' hlt), hgrown.name hlt']
  · intro o ho
    rw [hmember] at ho
    exact Nat.lt_of_lt_of_le (Nat.lt_trans (honeof o ho).1 hlt) h.size

/-- A new node has below it what is added there. -/
theorem parts_of_add {new : List NodeId} (hp : p < g.size) (hchildren : kind.children = [])
    (hadd : g.add p name kind = .ok (id, g')) (h : g'.Enlarged g.size new g'') :
    g''.parts g.size = new ++ kind.owned?.toList := by
  obtain ⟨-, hplanted, -⟩ := grown_of_add hp hadd
  have hface : (g''.kind g.size).face = kind.face := by
    rw [h.face_kind hplanted.lt_size, hplanted.new]
  rw [parts, h.appended, hplanted.children_new hchildren, List.nil_append,
    (NodeKind.like_of_face_eq hface).owned?]

theorem lt_size_of_oneof? {o : NodeId} {c : OneofNode} (h : g.oneof? o = some c) : o < g.size := by
  rcases Nat.lt_or_ge o g.size with hlt | hle
  · exact hlt
  · rw [oneof?_eq_some, kind_of_size_le hle] at h
    cases h

/-- A node that is added by itself, and is no field, is there. -/
theorem enlarged_of_addFresh (hp : p < g.size) (hscope : (g.kind p).hasScope) (hkind : kind.Fresh)
    (hfield : kind.isField = false) (hpackage : kind.isPackage = false)
    (hadd : g.add p name kind = .ok (id, g')) : g.Enlarged p [g.size] g' := by
  have h := enlarged_of_add hp hkind.ownFields hpackage
    (fun f hf => by rw [hf] at hfield; cases hfield) hadd
  rw [if_pos hscope] at h
  exact h

/-- A node that is added by itself, and is no field, is a member of no oneof, and has below it what
is added there. -/
theorem shows_of_addFresh {new : List NodeId} (hp : p < g.size) (hkind : kind.Fresh)
    (hfield : kind.isField = false) (hpackage : kind.isPackage = false)
    (hadd : g.add p name kind = .ok (id, g')) (h : g'.Enlarged g.size new g'') :
    g''.Shows g.size name kind.declared none ∧ g''.parts g.size = new := by
  have hmember : kind.memberOf? = none := by
    cases kind <;> first | rfl | cases hfield
  refine ⟨shows_of_add hp hpackage hadd h (fun o ho => ?_) fun _ => rfl, ?_⟩
  · rw [hmember] at ho
    cases ho
  · rw [parts_of_add hp hkind.children hadd h, hkind.owned?]
    exact List.append_nil new

/-- What is added below a new node is added with it. -/
theorem Gained.below (hp : p < g.size) (hscope : (g.kind p).hasScope) (hkind : kind.Fresh)
    (hfield : kind.isField = false) (hpackage : kind.isPackage = false)
    (hadd : g.add p name kind = .ok (id, g')) (h : g'.Gained g.size outlines g'') :
    g.Gained p [.node name kind.declared none outlines] g'' := by
  obtain ⟨new, hnew, hw⟩ := h
  obtain ⟨hshows, hparts⟩ := shows_of_addFresh hp hkind hfield hpackage hadd hnew
  have henlarged := enlarged_of_addFresh hp hscope hkind hfield hpackage hadd
  refine ⟨[g.size], henlarged.inside hp (Nat.le_refl _) hnew, .cons ?_ .nil⟩
  refine whole_iff.mpr ⟨Nat.le_refl _, hshows, ?_⟩
  rw [hparts]
  exact forall₂_of_le henlarged.size hw

/-- A beginning of what is to be below a new node is added with it. -/
theorem Halted.below (hp : p < g.size) (hscope : (g.kind p).hasScope) (hkind : kind.Fresh)
    (hfield : kind.isField = false) (hpackage : kind.isPackage = false)
    (hadd : g.add p name kind = .ok (id, g')) (h : g'.Halted g.size outlines g'') :
    g.Halted p [.node name kind.declared none outlines] g'' := by
  obtain ⟨new, hnew, hstopped⟩ := h
  obtain ⟨hshows, hparts⟩ := shows_of_addFresh hp hkind hfield hpackage hadd hnew
  have henlarged := enlarged_of_addFresh hp hscope hkind hfield hpackage hadd
  refine ⟨[g.size], henlarged.inside hp (Nat.le_refl _) hnew, ?_⟩
  have hdone : List.Forall₂ (g''.Whole g.size) [] [] := .nil
  refine .within hdone (Nat.le_refl _) hshows ?_ []
  rw [hparts]
  exact hstopped.of_le henlarged.size

end Node

end Graph

namespace GraphEdit

/-! ### Actions that add outlines -/

/-- The action adds the outlines below `p`, or is stopped on the way, if `p` is such a node as it is
asked to be. -/
def Adds (settings : Settings) (host : NodeKind → Prop) (p : NodeId) (outlines : List Outline)
    (x : GraphEdit Unit) : Prop :=
  ∀ g : Graph, p < g.size → host (g.kind p).face → g.settings = settings →
    Leads (· = g) x (fun _ => g.Gained p outlines) (g.Halted p outlines)

namespace Adds

variable {settings : Settings} {host host' : NodeKind → Prop} {p : NodeId}
  {outlines more : List Outline} {x y : GraphEdit Unit}

theorem weaken (hx : Adds settings host p outlines x) (h : ∀ k, host' k → host k) :
    Adds settings host' p outlines x :=
  fun g hp hhost => hx g hp (h _ hhost)

theorem pure : Adds settings host p [] (Pure.pure ()) :=
  fun g _ _ _ => Leads.pure fun _ hs => hs ▸ g.gained_nil p

/-- What is added one after the other. -/
theorem bind (hx : Adds settings host p outlines x) (hy : Adds settings host p more y) :
    Adds settings host p (outlines ++ more) (x >>= fun _ => y) := by
  intro g hp hhost hsettings
  refine Leads.bind ((hx g hp hhost hsettings).mono (fun _ s hs => hs) fun s hs => hs.append more)
    fun _ => Leads.each fun g' hg' => ?_
  obtain ⟨new, hnew, hw⟩ := hg'
  rw [← hnew.face_kind hp] at hhost
  rw [← hnew.settings] at hsettings
  refine (hy g' (Nat.lt_of_lt_of_le hp hnew.size) hhost hsettings).mono (fun _ s hs => ?_)
    fun s hs => ?_
  · exact Graph.Gained.trans ⟨new, hnew, hw⟩ hp hs
  · exact Graph.Gained.halted ⟨new, hnew, hw⟩ hp hs

theorem flatMap {α : Type} {outlines : α → List Outline} {step : α → GraphEdit Unit}
    (items : List α) (hstep : ∀ a ∈ items, Adds settings host p (outlines a) (step a)) :
    Adds settings host p (items.flatMap outlines) (items.forM step) := by
  induction items with
  | nil => exact pure
  | cons a more ih =>
    rw [List.flatMap_cons]
    show Adds settings host p _ (step a >>= fun _ => more.forM step)
    exact (hstep a List.mem_cons_self).bind (ih fun a ha => hstep a (List.mem_cons_of_mem _ ha))

theorem forM {α : Type} {outline : α → Outline} {step : α → GraphEdit Unit} (items : List α)
    (hstep : ∀ a ∈ items, Adds settings host p [outline a] (step a)) :
    Adds settings host p (items.map outline) (items.forM step) := by
  rw [List.map_eq_flatMap]
  exact flatMap items hstep

/-- A node, and then what is below it. -/
theorem node {name : String} {kind : NodeKind} (hkind : kind.Fresh) (hfield : kind.isField = false)
    (hpackage : kind.isPackage = false) (hhost : ∀ k, host k → k.hasScope)
    {rest : NodeId → GraphEdit Unit} {parts : List Outline}
    (hrest : ∀ id, Adds settings (· = kind.face) id parts (rest id)) :
    Adds settings host p [.node name kind.declared none parts] (add p name kind >>= rest) := by
  intro g hp hk hsettings
  have hscope : (g.kind p).hasScope := by
    rw [← (NodeKind.like_face (g.kind p)).hasScope]
    exact hhost _ hk
  refine Leads.bind (Q := fun id s => id = g.size ∧ g.add p name kind = .ok (id, s))
    (leads_add (fun s hs id g' hadd => ?_) fun s hs _ _ => ?_) fun id => Leads.each fun g' hg' => ?_
  · rw [hs] at hadd
    exact ⟨(Graph.grown_of_add hp hadd).1, hadd⟩
  · rw [hs]
    exact g.halted_cons p _ []
  · obtain ⟨rfl, hadd⟩ := hg'
    obtain ⟨-, hplanted, hgrown⟩ := Graph.grown_of_add hp hadd
    refine (hrest g.size g' hplanted.lt_size (by rw [hplanted.new])
      (hgrown.settings.trans hsettings)).mono (fun _ s hs => ?_) fun s hs => ?_
    · exact hs.below hp hscope hkind hfield hpackage hadd
    · exact hs.below hp hscope hkind hfield hpackage hadd

/-- A node with nothing below it. -/
theorem leaf {name : String} {kind : NodeKind} (hkind : kind.Fresh) (hfield : kind.isField = false)
    (hpackage : kind.isPackage = false) (hhost : ∀ k, host k → k.hasScope) :
    Adds settings host p [.node name kind.declared none []]
      (add p name kind >>= fun _ => Pure.pure ()) :=
  node hkind hfield hpackage hhost fun _ => pure

end Adds

/-! ### Fields -/

/-- Fields of the dialect can be added to the node, which is a message. -/
def HostsFields (dialect : Dialect) (k : NodeKind) : Prop :=
  k.isMessage ∧ k.scope?.elim .proto2 Scope.dialect = dialect

theorem dialectOf_eq {g : Graph} {p : NodeId} {dialect : Dialect}
    (h : HostsFields dialect (g.kind p).face) : g.dialectOf p = dialect := by
  obtain ⟨hmessage, hdialect⟩ := h
  rw [Graph.dialectOf]
  cases hkind : g.kind p with
  | message m =>
    rw [hkind] at hdialect
    exact hdialect
  | _ => rw [hkind] at hmessage; cases hmessage

variable {settings : Settings} (dialect : Dialect) {p : NodeId}

/-- A field with an admissible number that is added to a message is there. -/
theorem enlarged_of_addField {g g' : Graph} {id : NodeId} {name : String} {f : FieldNode}
    (hp : p < g.size) (hscope : (g.kind p).hasScope) (hnumber : Graph.IsFieldNumber f.id)
    (hclosed : (g.kind p).opens f.id = false) (hadd : g.add p name (.field f) = .ok (id, g')) :
    g.Enlarged p [g.size] g' := by
  have h := Graph.enlarged_of_add hp rfl rfl
    (fun f' hf' _ => by cases hf'; exact ⟨hnumber, hclosed⟩) hadd
  rw [if_pos hscope] at h
  exact h

/-- A new field is whole: it is what it was declared to be, and nothing is below it. -/
theorem whole_of_addField {g g' s : Graph} {id : NodeId} {decl : FieldDecl} {o : Option NodeId}
    (hp : p < g.size) (hhost : HostsFields dialect (g.kind p).face)
    (hsettings : g.settings = settings)
    (hadd : g.add p (g.settings.fieldName decl.name)
      (.field (fieldNode decl (g.dialectOf p) o none)) = .ok (id, g'))
    (hs : g'.Enlarged g.size [] s)
    (honeof : ∀ o', o = some o' → o' < g.size ∧ decl.oneof = some (g.name o'))
    (hnone : o = none → decl.oneof = none) :
    s.Whole g.size g.size (decl.outline settings dialect) := by
  refine Graph.whole_iff.mpr ⟨Nat.le_refl _, ?_, ?_⟩
  · have hshows := Graph.shows_of_add hp rfl hadd hs honeof hnone
    rw [hsettings, dialectOf_eq hhost] at hshows
    exact hshows
  · rw [Graph.parts_of_add hp rfl hadd hs]
    exact .nil

theorem adds_createField (decl : FieldDecl) :
    Adds settings (HostsFields dialect) p [decl.outline settings dialect] (createField p decl) := by
  intro g hp hhost hsettings
  have hmessage : (g.kind p).isMessage := by
    rw [← (NodeKind.like_face (g.kind p)).isMessage]
    exact hhost.1
  have hscope := NodeKind.hasScope_of_isMessage hmessage
  refine (leads_createField p decl).mono (fun _ s hs => ?_) fun s hs => hs ▸ g.halted_cons p _ []
  cases hs with
  | @alone s id hnumber hclosed hdecl hadd =>
    refine ⟨[g.size], enlarged_of_addField hp hscope hnumber hclosed hadd, .cons ?_ .nil⟩
    exact whole_of_addField dialect hp hhost hsettings hadd (.refl _)
      (fun o' ho' => by cases ho') fun _ => hdecl
  | @member g' id o c hnumber hclosed hdecl hsingle hc hbelow hadd =>
    have hlt : o < g.size := Graph.lt_size_of_oneof? hc
    refine ⟨[g.size], (enlarged_of_addField hp hscope hnumber hclosed hadd).trans
      (Graph.enlarged_addMember p o id), .cons ?_ .nil⟩
    refine whole_of_addField dialect hp hhost hsettings hadd (Graph.enlarged_addMember _ o id)
      (fun o' ho' => ?_) fun h => ?_
    · cases ho'
      exact ⟨hlt, hdecl⟩
    · cases h

theorem adds_createExtension (extendee : String) (decl : FieldDecl) :
    Adds settings (·.hasScope) p [decl.extensionOutline settings dialect extendee]
      (createExtension dialect p extendee decl) := by
  intro g hp hhost hsettings
  have hscope : (g.kind p).hasScope := by
    rw [← (NodeKind.like_face (g.kind p)).hasScope]
    exact hhost
  refine (leads_createExtension dialect hp extendee decl).mono (fun _ s hs => ?_)
    fun s hs => hs ▸ g.halted_cons p _ []
  obtain ⟨hnumber, hadd, hadd'⟩ := hs
  rename_i g' x id
  obtain ⟨rfl, hplanted, hgrown⟩ := Graph.grown_of_add hp hadd
  have hlt := hplanted.lt_size
  obtain ⟨rfl, hplanted', hgrown'⟩ := Graph.grown_of_add hlt hadd'
  have henlarged := Graph.enlarged_of_add hp rfl rfl (fun f hf => by cases hf) hadd
  rw [if_pos hscope] at henlarged
  -- An extension has no scope: its field is below it all the same.
  have henlarged' := Graph.enlarged_of_add hlt rfl rfl
    (fun f hf hmessage => by rw [hplanted.new] at hmessage; cases hmessage) hadd'
  rw [hplanted.new, if_neg (by simp [NodeKind.hasScope, NodeKind.scope?])] at henlarged'
  refine ⟨[g.size], henlarged.inside hp (Nat.le_refl _) henlarged', .cons ?_ .nil⟩
  refine Graph.whole_iff.mpr ⟨Nat.le_refl _, ?_, ?_⟩
  · have hshows := Graph.shows_of_add hp rfl hadd henlarged' (fun o ho => by cases ho) fun _ => rfl
    rw [hsettings] at hshows
    exact hshows
  · rw [Graph.parts_of_add hp rfl hadd henlarged']
    have hfield : g'.size = g.size + 1 := hplanted.size
    show List.Forall₂ _ [g.size + 1] _
    rw [← hfield]
    refine .cons (Graph.whole_iff.mpr ⟨Nat.le_of_lt hlt, ?_, ?_⟩) .nil
    · have hshows :=
        Graph.shows_of_add hlt rfl hadd' (.refl _) (fun o ho => by cases ho) fun _ => rfl
      rw [hsettings] at hshows
      exact hshows
    · rw [Graph.parts_of_add hlt rfl hadd' (.refl _)]
      exact .nil

/-! ### Definitions -/

theorem adds_createOneof (decl : OneofDecl) :
    Adds settings (·.hasScope) p [decl.outline] (createOneof p decl) :=
  .leaf (fresh_oneof rfl) rfl rfl fun _ h => h

theorem adds_createEnum (decl : EnumDecl) :
    Adds settings (·.hasScope) p [decl.outline dialect] (createEnum dialect p decl) := by
  have hrest : Adds settings (·.hasScope) p [decl.outline dialect] (do
      let id ← add p decl.name (.enumeration { options := decl.options, dialect })
      decl.values.forM fun value => do
        let _ ← add id value.name (.enumValue value.id value.options)) := by
    refine .node (fresh_enumeration _ rfl) rfl rfl (fun _ h => h) fun id => ?_
    refine .forM _ fun value _ => ?_
    exact .leaf (fresh_enumValue _ _) rfl rfl fun k hk => by rw [hk]; rfl
  intro g hp hhost hsettings
  rw [createEnum]
  refine Leads.bindGet ?_
  split
  · exact Leads.bind (Q := fun _ _ => False) (Leads.throw fun s hs => hs ▸ g.halted_cons p _ [])
      fun _ s hs => hs.elim
  · exact hrest g hp hhost hsettings

theorem adds_createService (decl : ServiceDecl) :
    Adds settings (·.hasScope) p [decl.outline dialect] (createService dialect p decl) := by
  rw [createService]
  refine .node (fresh_service _ rfl) rfl rfl (fun _ h => h) fun id => ?_
  refine .forM _ fun method _ => ?_
  exact .leaf (fresh_method ⟨_, _, _, _, _, none⟩) rfl rfl fun k hk => by rw [hk]; rfl

mutual

theorem adds_createMessage (p : NodeId) (decl : MessageDecl) :
    Adds settings (·.hasScope) p [decl.outline settings dialect]
      (createMessage dialect p decl) := by
  obtain ⟨name, isGroup, fields, oneofs, enums, messages, blocks, options, ranges, reserved,
    line⟩ := decl
  rw [createMessage, MessageDecl.outline]
  refine .node (fresh_message rfl rfl rfl) rfl rfl (fun _ h => h) fun id => ?_
  have hscope : ∀ k, k = NodeKind.face (.message
      { scope := { options, dialect }, extensionRanges := ranges, reserved, isGroup }) →
      k.hasScope := fun k hk => by rw [hk]; rfl
  refine .bind (.forM _ fun decl _ => (adds_createOneof decl).weaken hscope) ?_
  refine .bind (.forM _ fun decl _ => (adds_createEnum dialect decl).weaken hscope) ?_
  refine .bind ((adds_createMessages id messages).weaken hscope) ?_
  refine .bind (.forM _ fun decl _ => (adds_createField dialect decl).weaken ?_) ?_
  · exact fun k hk => by rw [hk]; exact ⟨rfl, rfl⟩
  · exact (adds_createExtendBlocks id blocks).weaken hscope

theorem adds_createMessages (p : NodeId) (decls : List MessageDecl) :
    Adds settings (·.hasScope) p (MessageDecl.outlines settings dialect decls)
      (createMessages dialect p decls) := by
  match decls with
  | [] =>
    rw [createMessages, MessageDecl.outlines]
    exact .pure
  | decl :: more =>
    rw [createMessages, MessageDecl.outlines]
    exact (adds_createMessage p decl).bind (adds_createMessages p more)

theorem adds_createExtendBlock (p : NodeId) (block : ExtendDeclOf MessageDecl) :
    Adds settings (·.hasScope) p (ExtendDecl.outlines settings dialect block)
      (createExtendBlock dialect p block) := by
  obtain ⟨extendee, fields, messages, line⟩ := block
  rw [createExtendBlock, ExtendDecl.outlines]
  exact (adds_createMessages p messages).bind
    (.forM _ fun decl _ => adds_createExtension dialect extendee decl)

theorem adds_createExtendBlocks (p : NodeId) (blocks : List (ExtendDeclOf MessageDecl)) :
    Adds settings (·.hasScope) p (ExtendDecl.allOutlines settings dialect blocks)
      (createExtendBlocks dialect p blocks) := by
  match blocks with
  | [] =>
    rw [createExtendBlocks, ExtendDecl.allOutlines]
    exact .pure
  | block :: more =>
    rw [createExtendBlocks, ExtendDecl.allOutlines]
    exact (adds_createExtendBlock p block).bind (adds_createExtendBlocks p more)

end

/-- A definition adds its outlines below a node with a scope, or is refused midway. -/
theorem adds_create (d : Definition) :
    Adds settings (·.hasScope) p (d.outlines settings dialect) (create dialect p d) := by
  cases d with
  | message decl => exact adds_createMessage dialect p decl
  | enumeration decl => exact adds_createEnum dialect decl
  | service decl => exact adds_createService dialect decl
  | extension decl => exact adds_createExtendBlock dialect p decl

theorem adds_createAll (definitions : List Definition) :
    Adds settings (·.hasScope) p (definitions.flatMap (Definition.outlines settings dialect))
      (createAll dialect p definitions) :=
  .flatMap definitions fun d _ => adds_create dialect d

end GraphEdit

end Protobuf

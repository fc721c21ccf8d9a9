import Protobuf.Proofs.Registry.Link
import Protobuf.Proofs.Registry.Step

/-!
# What registries keep of their graphs

A property of graphs that lasts when nodes are added and when references are looked up is kept in
every step of a registry, whether definitions come from schema texts or are put together by a
program, and also where an action is refused midway. The graph is a tree all the time, and the
current package is in it, so definitions are always added below a node with a scope.

That the members of oneofs hold single values is such a property: a repeated field is not let into a
oneof. That they are optional is one for schema texts only. Linking alone sees to it that defaults
are of the types of their fields, so they are in every snapshot.

## Main definitions

* `Graph.Lasting` — a property that lasts.
* `Registry.Meets` — it holds of the graph of a registry and of its snapshot.
* `Registry.Built`, `Snapshot.Built` — what is reached from an empty registry by any actions.
* `Graph.SingleMembers` — the members of oneofs hold single values.
* `Graph.DefaultsHold` — defaults are values of the types of their fields.

## Main results

* `Snapshot.Built.tree`, `Snapshot.Built.singleMembers`, `Snapshot.Built.defaultsHold` — what holds
  in every snapshot
-/

namespace Protobuf

/-- What an action leaves behind, refused or not. -/
def Registry.after {ε α : Type} (r : Registry) (edit : RegistryEdit ε α) : Registry :=
  ((ExceptT.run edit).run r).2

/-- The property is stable, and also lasts when options are added and when references are looked up.
Then `Linked` holds as well. -/
structure Graph.Lasting (strict : Prop) (Inv Linked : Graph → Prop) : Prop where
  stable : Graph.Stable strict Inv
  empty : ∀ settings, Inv (.empty settings)
  mapScope : ∀ {g : Graph}, Inv g → ∀ id change, (∀ s : Scope, (change s).children = s.children) →
    Inv (g.mapKind id (·.mapScope change))
  link : ∀ {g g' : Graph}, Inv g → g.link = .ok g' → Inv g' ∧ Linked g'

namespace Registry

/-- The graph is a tree with the property `Inv`, the current package is in it, and the graph of the
snapshot has the property `Linked` if there is one. -/
structure Meets (Inv Linked : Graph → Prop) (r : Registry) : Prop where
  graph : Inv r.graph
  tree : r.graph.Tree
  current : r.graph.Scoped r.current
  snapshot : ∀ S, r.snapshot = some S → Linked S.graph

variable {strict : Prop} {Inv Linked : Graph → Prop}

theorem Reaches.after {ε α : Type} {r₀ r : Registry} (h : Reaches strict r₀ r)
    {edit : RegistryEdit ε α} (hedit : Keeps (Reaches strict r₀) edit) :
    Reaches strict r₀ (r.after edit) :=
  hedit.left h

theorem meets_empty (h : ∀ settings, Inv (.empty settings)) (settings : Settings) :
    (Registry.empty settings).Meets Inv Linked :=
  ⟨h settings, Graph.tree_empty settings, (Graph.tree_empty settings).root,
    by simp [Registry.empty]⟩

/-- What holds of graphs holds after each step. -/
theorem Meets.step {r r' : Registry} (hInv : Graph.Lasting strict Inv Linked)
    (h : r.Meets Inv Linked) (hstep : Step strict r r') : r'.Meets Inv Linked := by
  cases hstep with
  | reset => exact ⟨h.graph, h.tree, h.tree.root, h.snapshot⟩
  | @descend p hp hpackage =>
    exact ⟨h.graph, h.tree, ⟨(h.tree.lt_of_mem_children hp).2,
      NodeKind.hasScope_of_isPackage hpackage⟩, h.snapshot⟩
  | @enter name id g hname hne hadd =>
    have hgrows : r.graph.Step strict g := .node (h.current.takes rfl) (fun _ => ⟨hname, hne⟩)
      (GraphEdit.fresh_package { dialect := r.dialect } rfl) hadd
    obtain ⟨rfl, hplanted⟩ := Graph.planted_of_add h.current.1 hadd
    exact ⟨hInv.stable h.graph hgrows, Graph.stable_tree h.tree hgrows,
      ⟨hplanted.lt_size, by rw [hplanted.new]; rfl⟩, h.snapshot⟩
  | options options =>
    have hshape : r.graph.SameShape (r.withOptions options).graph :=
      Graph.sameShape_mapScope _ fun s => rfl
    exact ⟨hInv.mapScope h.graph _ _ fun s => rfl, h.tree.congr hshape, hshape.scoped h.current,
      h.snapshot⟩
  | dialect dialect => exact ⟨h.graph, h.tree, h.current, h.snapshot⟩
  | note name => exact ⟨h.graph, h.tree, h.current, h.snapshot⟩
  | thaw => exact ⟨h.graph, h.tree, h.current, by simp⟩
  | create definitions hsnapshot htextual =>
    have hstable : Graph.Stable strict fun g => (Inv g ∧ g.Tree) ∧ g.Scoped r.current :=
      (hInv.stable.and Graph.stable_tree).and (Graph.stable_scoped _)
    have hkeeps := GraphEdit.keeps_createAll r.dialect hstable (fun g hg => hg.2) htextual
    obtain ⟨⟨hgraph, htree⟩, hcurrent⟩ := hkeeps.left ⟨⟨h.graph, h.tree⟩, h.current⟩
    exact ⟨hgraph, htree, hcurrent, h.snapshot⟩
  | freeze stamp hsnapshot hlink =>
    obtain ⟨hgraph, hlinked⟩ := hInv.link h.graph hlink
    have hshape := Graph.sameShape_of_link hlink
    refine ⟨hgraph, h.tree.congr hshape, hshape.scoped h.current, fun S hS => ?_⟩
    cases hS
    exact hlinked

theorem Meets.reaches {r r' : Registry} (hInv : Graph.Lasting strict Inv Linked)
    (h : r.Meets Inv Linked) (hreaches : Reaches strict r r') : r'.Meets Inv Linked := by
  induction hreaches with
  | refl => exact h
  | tail _ hstep ih => exact ih.step hInv hstep

end Registry

/-! ### Definitions of any origin -/

/-- The registry was made by any actions, from schema texts or from definitions that were put
together in another way. Any of the actions may have been refused midway. -/
inductive Registry.Built : Registry → Prop
  | empty (settings : Settings) : Built (.empty settings)
  | load {r : Registry} (h : r.Built) (source : String) (name : Option String) :
      Built (r.after (Registry.load source name))
  | loadWith {r : Registry} (h : r.Built) (available : List (String × String))
      (source name : String) : Built (r.after (Registry.loadWith available source name))
  | importFile {r : Registry} (h : r.Built) (file : FileDecl) (name : Option String) :
      Built (r.after (Registry.importFile file name))
  | create {r : Registry} (h : r.Built) (definitions : List Definition) :
      Built (r.after (Registry.create definitions))
  | define {r : Registry} (h : r.Built) (package : String) (options : Options) :
      Built (r.after (Registry.define package options))
  | reset {r : Registry} (h : r.Built) :
      Built (r.after (Registry.reset : RegistryEdit SchemaError Unit))
  | resolveAll {r : Registry} (h : r.Built) (stamp : Nat) :
      Built (r.after (Registry.resolveAll stamp))

/-- The snapshot was taken of a registry that was made by any actions. -/
def Snapshot.Built (S : Snapshot) : Prop :=
  ∃ r : Registry, r.Built ∧ r.snapshot = some S

/-- Whatever actions have made a registry, it was reached step by step. -/
theorem Registry.Built.reaches {r : Registry} (h : r.Built) :
    ∃ settings, Reaches False (.empty settings) r := by
  induction h with
  | empty settings => exact ⟨settings, .refl _⟩
  | load _ source name ih => exact ih.imp fun _ h => h.after (keeps_load source name)
  | loadWith _ available source name ih =>
    exact ih.imp fun _ h => h.after (keeps_loadWithin available _ source name)
  | importFile _ file name ih => exact ih.imp fun _ h => h.after (keeps_importFile False.elim name)
  | create _ definitions ih => exact ih.imp fun _ h => h.after (keeps_create False.elim)
  | define _ package options ih => exact ih.imp fun _ h => h.after (keeps_define package options)
  | reset _ ih => exact ih.imp fun _ h => h.after keeps_reset
  | resolveAll _ stamp ih => exact ih.imp fun _ h => h.after (keeps_resolveAll stamp)

theorem Registry.Built.meets {r : Registry} (h : r.Built) {Inv Linked : Graph → Prop}
    (hInv : Graph.Lasting False Inv Linked) : r.Meets Inv Linked := by
  obtain ⟨settings, hreaches⟩ := h.reaches
  exact (meets_empty hInv.empty settings).reaches hInv hreaches

/-! ### The tree -/

theorem Graph.lasting_tree {strict : Prop} : Graph.Lasting strict Graph.Tree Graph.Tree where
  stable := stable_tree
  empty := tree_empty
  mapScope hg _ _ hchange := hg.congr (sameShape_mapScope _ hchange)
  link hg h := ⟨hg.congr (sameShape_of_link h), hg.congr (sameShape_of_link h)⟩

theorem Snapshot.Built.tree {S : Snapshot} (h : S.Built) : S.graph.Tree := by
  obtain ⟨r, hr, hS⟩ := h
  exact (hr.meets Graph.lasting_tree).snapshot S hS

/-! ### Members of oneofs -/

/-- The members of oneofs hold single values. -/
def Graph.SingleMembers (g : Graph) : Prop :=
  ∀ o c, g.oneof? o = some c → ∀ n ∈ c.fields,
    ∃ f, g.field? n = some f ∧ f.rule ≠ .repeated ∧ f.rule ≠ .map

theorem Graph.SingleMembers.added {g g' : Graph} {parent : NodeId} {kind : NodeKind}
    (hg : g.SingleMembers) (h : g.Added parent kind g')
    (honeof : ∀ c, kind = .oneof c → c.fields = []) : g'.SingleMembers := by
  intro o c hc n hn
  rcases (h.oneof? o c).mp hc with ⟨-, hkind⟩ | hc
  · rw [honeof c hkind] at hn
    cases hn
  · obtain ⟨f, hf, hsingle⟩ := hg o c hc n hn
    exact ⟨f, (h.field? n f).mpr (.inr hf), hsingle⟩

theorem Graph.SingleMembers.addMember {g g' : Graph} {parent o : NodeId} {f : FieldNode}
    {c : OneofNode} (hg : g.SingleMembers) (h : g.Added parent (.field f) g')
    (hsingle : f.rule ≠ .repeated ∧ f.rule ≠ .map) (hc : g.oneof? o = some c) :
    (g'.mapKind o (·.addMember g.size)).SingleMembers := by
  have hlater : g'.oneof? o = some c := (h.oneof? o c).mpr (.inr hc)
  have hall := hg.added h fun c hc => by cases hc
  intro o' c' hc' n hn
  rw [Graph.field?_mapKind_oneof hlater rfl]
  rw [Graph.oneof?_mapKind_oneof hlater rfl] at hc'
  split at hc'
  · cases hc'
    rcases List.mem_append.mp hn with hn | hn
    · exact hall o c hlater n hn
    · rw [List.mem_singleton.mp hn]
      exact ⟨f, (h.field? _ f).mpr (.inl ⟨rfl, rfl⟩), hsingle⟩
  · exact hall o' c' hc' n hn

theorem Graph.stable_singleMembers {strict : Prop} :
    Graph.Stable strict Graph.SingleMembers := by
  intro g g' hg hstep
  cases hstep with
  | node _ _ hkind hadd => exact hg.added (added_of_add hkind.ownFields hadd).2 hkind.oneof
  | member _ _ _ _ _ hsingle _ hc _ hadd =>
    obtain ⟨rfl, hadded⟩ := added_of_add rfl hadd
    exact hg.addMember hadded hsingle hc
  | extension _ _ _ _ _ _ hadd hadd' =>
    have hbetween := hg.added (added_of_add rfl hadd).2 fun c hc => by cases hc
    exact hbetween.added (added_of_add rfl hadd').2 fun c hc => by cases hc

theorem Graph.lasting_singleMembers :
    Graph.Lasting False Graph.SingleMembers Graph.SingleMembers where
  stable := stable_singleMembers
  empty settings o c hc := by
    rw [Graph.oneof?_eq_some, Graph.kind_empty] at hc
    cases hc
  mapScope hg id change _ o c hc n hn := by
    rw [Graph.oneof?_mapScope] at hc
    rw [Graph.field?_mapScope]
    exact hg o c hc n hn
  link := by
    intro g g' hg h
    obtain ⟨-, -, hkinds⟩ := Graph.linkedKind_of_link h
    have hlinked : g'.SingleMembers := by
      intro o c hc n hn
      rw [(Graph.linkedKind_other hkinds o).1] at hc
      obtain ⟨f, hf, hsingle⟩ := hg o c hc n hn
      obtain ⟨l, -, heq⟩ := (hkinds n).field f (Graph.field?_eq_some.mp hf)
      exact ⟨_, Graph.field?_eq_some.mpr heq, hsingle⟩
    exact ⟨hlinked, hlinked⟩

theorem Snapshot.Built.singleMembers {S : Snapshot} (h : S.Built) : S.graph.SingleMembers := by
  obtain ⟨r, hr, hS⟩ := h
  exact (hr.meets Graph.lasting_singleMembers).snapshot S hS

/-- A repeated field is no member of a oneof. -/
theorem Graph.SingleMembers.notMem {g : Graph} (hg : g.SingleMembers) {f : NodeId} {s : Slot}
    (hs : g.slot? f = some s) (hshape : s.shape = .list) {o : NodeId} {c : OneofNode}
    (hc : g.oneof? o = some c) : f ∉ c.fields := by
  intro hmem
  obtain ⟨fn, hfn, hrepeated, -⟩ := hg o c hc f hmem
  obtain ⟨fn', -, hfn', -, -, -, -, hlist, -⟩ := Graph.slot?_eq_some hs
  rw [hfn] at hfn'
  cases hfn'
  exact hrepeated (hlist hshape)

/-! ### Defaults -/

/-- The defaults of fields are values of their types. -/
def Graph.DefaultsHold (g : Graph) : Prop :=
  ∀ n f l a, g.field? n = some f → f.link = some l → l.default = some a → l.type.holds a

theorem Graph.lasting_defaultsHold : Graph.Lasting False (fun _ => True) Graph.DefaultsHold where
  stable _ _ _ _ := trivial
  empty _ := trivial
  mapScope _ _ _ _ := trivial
  link := by
    intro g g' _ h
    obtain ⟨-, -, hkinds⟩ := Graph.linkedKind_of_link h
    refine ⟨trivial, fun n f' l a hf' hl ha => ?_⟩
    obtain ⟨f, l', -, hlink, rfl⟩ := Graph.exists_link_of_field? hkinds hf'
    cases hl
    exact (Graph.fits_of_linkField hlink).default a ha

theorem Snapshot.Built.defaultsHold {S : Snapshot} (h : S.Built) : S.graph.DefaultsHold := by
  obtain ⟨r, hr, hS⟩ := h
  exact (hr.meets Graph.lasting_defaultsHold).snapshot S hS

end Protobuf

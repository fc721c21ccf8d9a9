import Protobuf.Proofs.Registry.Built
import Protobuf.Proofs.Registry.Outline

/-!
# What stands in a registry

A registry goes over into another one step by step. What has been added to its graph stays: nodes
keep their names and places, and those that are no packages keep what they are and what is below
them. So what has once been added as a whole, or as a beginning only, is that for ever.

Definitions are only added below packages, and packages have names by which they are found from the
root. The numbers of fields are admissible at all times.

## Main definitions

* `Graph.Becomes` — the second graph is a later one.
* `Graph.PackagesNamed` — packages are below packages and have proper names.
* `Registry.Standing` — what holds of a registry at all times.
* `Registry.Reached` — what comes up while something is done to a registry.

## Main results

* `Registry.Standing.step` — a step keeps what holds, and leads to a later graph
* `Registry.Reached.standing` — it holds of all registries
* `Registry.Reaches.taken` — a snapshot shows the graph as it was at some time
* `Registry.Standing.leads_createAll` — definitions are added as a whole, or up to where they are
  refused
-/

namespace Protobuf

namespace Graph

variable {g g' g'' : Graph}

/-- The second graph is a later one: nodes have been added, packages have got more below them, and
references have been looked up. -/
structure Becomes (g g' : Graph) : Prop where
  size : g.size ≤ g'.size
  settings : g'.settings = g.settings
  name : ∀ n < g.size, g'.name n = g.name n
  parent? : ∀ n < g.size, g'.parent? n = g.parent? n
  isPackage : ∀ n < g.size, (g'.kind n).isPackage = (g.kind n).isPackage
  face : ∀ n < g.size, (g.kind n).isPackage = false → (g'.kind n).face = (g.kind n).face
  children : ∀ n < g.size, (g.kind n).isPackage = false → g'.children n = g.children n
  listed : ∀ n < g.size, g.children n <+: g'.children n

namespace Becomes

theorem refl (g : Graph) : g.Becomes g :=
  ⟨Nat.le_refl _, rfl, fun _ _ => rfl, fun _ _ => rfl, fun _ _ => rfl, fun _ _ _ => rfl,
    fun _ _ _ => rfl, fun _ _ => List.prefix_refl _⟩

theorem trans (h : g.Becomes g') (h' : g'.Becomes g'') : g.Becomes g'' := by
  have hlt : ∀ {n}, n < g.size → n < g'.size := fun hn => Nat.lt_of_lt_of_le hn h.size
  have hpackage : ∀ {n}, n < g.size → (g.kind n).isPackage = false →
      (g'.kind n).isPackage = false := fun hn hp => (h.isPackage _ hn).trans hp
  exact ⟨Nat.le_trans h.size h'.size, h'.settings.trans h.settings,
    fun n hn => (h'.name n (hlt hn)).trans (h.name n hn),
    fun n hn => (h'.parent? n (hlt hn)).trans (h.parent? n hn),
    fun n hn => (h'.isPackage n (hlt hn)).trans (h.isPackage n hn),
    fun n hn hp => (h'.face n (hlt hn) (hpackage hn hp)).trans (h.face n hn hp),
    fun n hn hp => (h'.children n (hlt hn) (hpackage hn hp)).trans (h.children n hn hp),
    fun n hn => (h.listed n hn).trans (h'.listed n (hlt hn))⟩

/-- What is whole stays whole, and what has been stopped stays where it is. -/
theorem preserves (h : g.Becomes g') (since : NodeId) : g.Preserves since g' :=
  ⟨h.size, h.name, h.face, fun n _ => h.children n⟩

end Becomes

/-! ### Growth below packages -/

/-- Growth below a package leads to a later graph. -/
theorem Grown.becomes {p : NodeId} (h : g.Grown p g') (hp : (g.kind p).isPackage)
    (hlisted : g.children p <+: g'.children p) : g.Becomes g' := by
  refine ⟨h.size, h.settings, fun _ => h.name, fun _ => h.parent?, fun _ => h.isPackage,
    fun _ hn _ => h.face_kind hn, fun n hn hpackage => h.children n hn ?_, fun n hn => ?_⟩
  · rintro rfl
    rw [hp] at hpackage
    cases hpackage
  · by_cases hne : n = p
    · rw [hne]
      exact hlisted
    · exact h.children n hn hne ▸ List.prefix_refl _

theorem Enlarged.becomes {p : NodeId} {new : List NodeId} (h : g.Enlarged p new g')
    (hp : (g.kind p).isPackage) : g.Becomes g' :=
  h.toGrown.becomes hp (h.appended ▸ List.prefix_append _ _)

/-- Options of a package are a matter of the package. -/
theorem becomes_mapScope {p : NodeId} {change : Scope → Scope} (hp : (g.kind p).isPackage)
    (hchange : ∀ s, (change s).children = s.children) :
    g.Becomes (g.mapKind p (·.mapScope change)) := by
  have hshape : g.SameShape (g.mapKind p (·.mapScope change)) := sameShape_mapScope p hchange
  refine ⟨Nat.le_of_eq hshape.size.symm, rfl, fun n _ => hshape.name n, fun n _ => hshape.parent? n,
    fun n _ => ?_, fun n _ hpackage => ?_, fun n _ _ => hshape.children n,
    fun n _ => hshape.children n ▸ List.prefix_refl _⟩
  · rw [kind_mapKind]
    split
    · cases g.kind n <;> rfl
    · rfl
  · rw [kind_mapKind, if_neg]
    rintro ⟨rfl, -⟩
    rw [hp] at hpackage
    cases hpackage

/-! ### Linking -/

theorem LinkStep.face {before after : List ExtensionEntry} {n : NodeId} {k k' : NodeKind}
    (h : g.LinkStep n before k k' after) : k'.face = k.face := by
  cases h <;> rfl

/-- Linking leaves alone everything that a node declares. -/
theorem becomes_of_link (h : g.link = .ok g') : g.Becomes g' := by
  obtain ⟨found, hlinked⟩ := exists_linkedBy_of_link h
  have hshape := sameShape_of_link h
  have hface : ∀ n < g.size, (g'.kind n).face = (g.kind n).face :=
    fun n hn => (hlinked.step n hn).face
  refine ⟨Nat.le_of_eq hshape.size.symm, hlinked.settings, hlinked.name, hlinked.parent?,
    fun n hn => ?_, fun n hn _ => hface n hn, fun n _ _ => hshape.children n,
    fun n _ => hshape.children n ▸ List.prefix_refl _⟩
  rw [← NodeKind.isPackage_face, hface n hn, NodeKind.isPackage_face]

/-- Linking changes no number and no field. -/
theorem Admissible.link (hg : g.Admissible) (h : g.link = .ok g') : g'.Admissible := by
  have hshape := sameShape_of_link h
  have hface : ∀ n, (g'.kind n).face = (g.kind n).face := by
    intro n
    rcases Nat.lt_or_ge n g.size with hlt | hle
    · obtain ⟨found, hlinked⟩ := exists_linkedBy_of_link h
      exact (hlinked.step n hlt).face
    · rw [kind_of_size_le hle, kind_of_size_le (hshape.size.symm ▸ hle)]
  refine hg.congr (fun n f hf => exists_field?_of_face hf (hface n)) (fun m id => ?_)
    hshape.ownFields
  rw [← NodeKind.opens_face, hface, NodeKind.opens_face]

theorem Admissible.mapScope (hg : g.Admissible) (p : NodeId) (change : Scope → Scope) :
    (g.mapKind p (·.mapScope change)).Admissible := by
  refine hg.congr (fun n f hf => ⟨f, ?_, rfl⟩) (fun m id => ?_) (ownFields_mapScope p change)
  · rw [field?_mapScope]
    exact hf
  · rw [kind_mapKind]
    split
    · exact NodeKind.opens_mapScope _ _ _
    · rfl

/-! ### Packages -/

/-- Every package but the root is below a package, and has a name that may stand in a path. -/
def PackagesNamed (g : Graph) : Prop :=
  ∀ n p, (g.kind n).isPackage → g.parent? n = some p →
    (g.kind p).isPackage ∧ Path.Plain (g.name n) ∧ g.name n ≠ ""

/-- Packages keep their names, so it is only new ones that have to be looked at. -/
theorem PackagesNamed.becomes (hg : g.PackagesNamed) (htree : g.Branching) (h : g.Becomes g')
    (hnew : ∀ n p, g.size ≤ n → n < g'.size → (g'.kind n).isPackage → g'.parent? n = some p →
      (g'.kind p).isPackage ∧ Path.Plain (g'.name n) ∧ g'.name n ≠ "") : g'.PackagesNamed := by
  intro n p hn hp
  rcases Nat.lt_or_ge n g.size with hlt | hle
  · rw [h.isPackage n hlt] at hn
    rw [h.parent? n hlt] at hp
    rw [h.isPackage p (Nat.lt_trans (htree.lt_of_parent? hp).1 hlt), h.name n hlt]
    exact hg n p hn hp
  · exact hnew n p hle (lt_size_of_parent? hp) hn hp

/-- A node with a proper name may be added below a package. -/
theorem PackagesNamed.planted (hg : g.PackagesNamed) (htree : g.Branching) (h : g.Becomes g')
    {parent : NodeId} {name : String} {kind : NodeKind} (hplanted : g.Planted parent name kind g')
    (hlt : parent < g.size) (hparent : (g.kind parent).isPackage) (hname : Path.Plain name)
    (hne : name ≠ "") : g'.PackagesNamed := by
  refine hg.becomes htree h fun n p hle hn _ hp => ?_
  have hlast : n = g.size := by
    rw [hplanted.size] at hn
    exact Nat.le_antisymm (Nat.le_of_lt_succ hn) hle
  rw [hlast, hplanted.parents, if_pos rfl] at hp
  cases hp
  rw [hlast, hplanted.names, if_pos rfl, h.isPackage _ hlt]
  exact ⟨hparent, hname, hne⟩

end Graph

namespace Registry

/-- What holds of a registry at all times. -/
structure Standing (r : Registry) : Prop extends Meets Graph.Tree Graph.Tree r where
  root : (r.graph.kind Graph.root).isPackage
  package : (r.graph.kind r.current).isPackage
  named : r.graph.PackagesNamed
  admissible : r.graph.Admissible

theorem standing_empty (settings : Settings) : (empty settings).Standing := by
  have hkind : ∀ n, ((empty settings).graph.kind n).isPackage := by
    intro n
    show ((Graph.empty settings).kind n).isPackage
    rw [Graph.kind_empty]
    rfl
  refine ⟨meets_empty Graph.tree_empty settings, hkind _, hkind _, fun n p _ hp => ?_,
    Graph.admissible_empty settings⟩
  have hnone : (empty settings).graph.parent? n = none := by cases n <;> rfl
  rw [hnone] at hp
  cases hp

variable {r r' : Registry}

/-- The outlines of definitions that are added to a registry. -/
def outlines (r : Registry) (definitions : List Definition) : List Outline :=
  definitions.flatMap (Definition.outlines r.graph.settings r.dialect)

/-- Definitions are added to the graph as a whole, or up to where they are refused. -/
theorem Standing.leads_createAll (h : r.Standing) (definitions : List Definition) :
    Leads (· = r.graph) (GraphEdit.createAll r.dialect r.current definitions)
      (fun _ => r.graph.Gained r.current (r.outlines definitions))
      (r.graph.Halted r.current (r.outlines definitions)) := by
  refine GraphEdit.adds_createAll r.dialect definitions r.graph h.current.1 ?_ rfl
  show (r.graph.kind r.current).face.hasScope
  rw [(NodeKind.like_face _).hasScope]
  exact h.current.2

theorem Standing.leads_create (h : r.Standing) (definitions : List Definition) :
    Leads (· = r) (Registry.create definitions)
      (fun _ s => r.graph.Gained r.current (r.outlines definitions) s.graph)
      (fun s => r.graph.Halted r.current (r.outlines definitions) s.graph) := by
  rintro r rfl
  rw [run_create]
  rcases (h.leads_createAll definitions).outcome rfl with ⟨a, hresult, hs⟩ | ⟨e, hresult, hs⟩
  · rw [hresult]
    exact hs
  · rw [hresult]
    exact hs

/-- Whether definitions are refused or not, the graph has grown below the current package. -/
theorem Standing.enlarged (h : r.Standing) (definitions : List Definition) :
    ∃ new, r.graph.Enlarged r.current new (r.withDefinitions definitions).graph := by
  have hkeeps : Leads (· = r.graph) (GraphEdit.createAll r.dialect r.current definitions)
      (fun _ g => ∃ new, r.graph.Enlarged r.current new g)
      (fun g => ∃ new, r.graph.Enlarged r.current new g) :=
    (h.leads_createAll definitions).mono (fun _ g hg => hg.imp fun _ hnew => hnew.1)
      fun g hg => hg.imp fun _ hnew => hnew.1
  exact hkeeps.left rfl

/-- What holds is kept where the graph becomes a later one, as long as the current package stays and no
package is added. -/
theorem Standing.becomes (h : r.Standing) (hbecomes : r.graph.Becomes r'.graph)
    (hmeets : r'.Meets Graph.Tree Graph.Tree) (hcurrent : r'.current = r.current)
    (hnew : ∀ n, r.graph.size ≤ n → n < r'.graph.size → (r'.graph.kind n).isPackage = false)
    (hadmissible : r'.graph.Admissible) : r'.Standing := by
  refine ⟨hmeets, ?_, ?_, ?_, hadmissible⟩
  · exact (hbecomes.isPackage _ h.tree.root.1).trans h.root
  · rw [hcurrent]
    exact (hbecomes.isPackage _ h.current.1).trans h.package
  · refine h.named.becomes h.tree.toBranching hbecomes fun n p hle hlt hn => ?_
    rw [hnew n hle hlt] at hn
    cases hn

/-- A step keeps what holds, and leads to a later graph. -/
theorem Standing.step (h : r.Standing) (hstep : Step False r r') :
    r'.Standing ∧ r.graph.Becomes r'.graph := by
  have hmeets := h.toMeets.step Graph.lasting_tree hstep
  cases hstep with
  | reset => exact ⟨⟨hmeets, h.root, h.root, h.named, h.admissible⟩, .refl _⟩
  | descend hp hpackage => exact ⟨⟨hmeets, h.root, hpackage, h.named, h.admissible⟩, .refl _⟩
  | dialect dialect => exact ⟨⟨hmeets, h.root, h.package, h.named, h.admissible⟩, .refl _⟩
  | note name => exact ⟨⟨hmeets, h.root, h.package, h.named, h.admissible⟩, .refl _⟩
  | thaw => exact ⟨⟨hmeets, h.root, h.package, h.named, h.admissible⟩, .refl _⟩
  | @enter name id g hname hne hadd =>
    obtain ⟨rfl, hplanted, hgrown⟩ := Graph.grown_of_add h.current.1 hadd
    have hlisted : r.graph.children r.current <+: g.children r.current := by
      rw [hplanted.children r.current (Nat.ne_of_lt h.current.1), if_pos ⟨rfl, h.current.2⟩]
      exact List.prefix_append _ _
    have hbecomes := hgrown.becomes h.package hlisted
    refine ⟨⟨hmeets, ?_, ?_, ?_, ?_⟩, hbecomes⟩
    · exact (hbecomes.isPackage _ h.tree.root.1).trans h.root
    · show (g.kind r.graph.size).isPackage
      rw [hplanted.new]
      rfl
    · exact h.named.planted h.tree.toBranching hbecomes hplanted h.current.1 h.package hname hne
    · exact h.admissible.add h.current.1 rfl (fun f hf => by cases hf) hadd
  | options options =>
    have hbecomes : r.graph.Becomes (r.withOptions options).graph :=
      Graph.becomes_mapScope h.package fun s => rfl
    refine ⟨h.becomes hbecomes hmeets rfl (fun n hle hlt => ?_) (h.admissible.mapScope _ _), hbecomes⟩
    exact absurd hle (Nat.not_le.mpr (Graph.size_mapKind (g := r.graph) _ _ ▸ hlt))
  | create definitions hsnapshot htextual =>
    obtain ⟨new, hnew⟩ := h.enlarged definitions
    have hbecomes := hnew.becomes h.package
    exact ⟨h.becomes hbecomes hmeets rfl hnew.notPackage (hnew.admissible h.admissible), hbecomes⟩
  | @freeze g stamp hsnapshot hlink =>
    have hbecomes := Graph.becomes_of_link hlink
    refine ⟨h.becomes hbecomes hmeets rfl (fun n hle hlt => ?_) (h.admissible.link hlink), hbecomes⟩
    exact absurd hle (Nat.not_le.mpr ((Graph.sameShape_of_link hlink).size ▸ hlt))

theorem Standing.reaches (h : r.Standing) (hreaches : Reaches False r r') :
    r'.Standing ∧ r.graph.Becomes r'.graph := by
  induction hreaches with
  | refl => exact ⟨h, .refl _⟩
  | tail _ hstep ih =>
    obtain ⟨hstanding, hbecomes⟩ := ih
    obtain ⟨hstanding', hbecomes'⟩ := hstanding.step hstep
    exact ⟨hstanding', hbecomes.trans hbecomes'⟩

/-! ### Registries that are reached -/

/-- The registry comes up while something is done to an empty one. -/
def Reached (r : Registry) : Prop :=
  ∃ settings, Reaches False (.empty settings) r

theorem Built.reached (h : r.Built) : r.Reached :=
  h.reaches

theorem Reached.standing (h : r.Reached) : r.Standing := by
  obtain ⟨settings, hreaches⟩ := h
  exact ((standing_empty settings).reaches hreaches).1

theorem Reached.step (h : r.Reached) (hstep : Step False r r') : r'.Reached := by
  obtain ⟨settings, hreaches⟩ := h
  exact ⟨settings, hreaches.step hstep⟩

theorem Reached.note (h : r.Reached) (name : String) :
    Reached { r with files := Keyed.insert id name r.files } :=
  h.step (.note name)

/-- A file begins with its dialect, and with the root as the current package. -/
theorem Reached.begin (h : r.Reached) (dialect : Dialect) :
    Reached { r with dialect := dialect, current := Graph.root } :=
  (h.step (.dialect dialect)).step .reset

/-- What leads on step by step leads to registries that are reached. -/
theorem Reached.leads (hr : r.Reached) {ε α : Type} {edit : RegistryEdit ε α}
    (h : ∀ r₀, Keeps (Reaches False r₀) edit) :
    Leads (· = r) edit (fun _ => Reached) Reached := by
  obtain ⟨settings, hreaches⟩ := hr
  refine ((h (.empty settings)).mono (fun _ s hs => ⟨settings, hs⟩)
    fun s hs => ⟨settings, hs⟩).weaken fun s hs => ?_
  rw [hs]
  exact hreaches

theorem keeps_reached {ε α : Type} {edit : RegistryEdit ε α}
    (h : ∀ r₀, Keeps (Reaches False r₀) edit) : Keeps Reached edit :=
  Leads.each fun _ hr => hr.leads h

/-- A snapshot is one that was there at the beginning, or shows the graph as it was on the way. -/
theorem Reaches.taken (h : Reaches False r r') {S : Snapshot} (hS : r'.snapshot = some S) :
    r.snapshot = some S ∨
      ∃ between, Reaches False r between ∧ between.graph = S.graph ∧ Reaches False between r' := by
  induction h with
  | refl => exact .inl hS
  | @tail r₁ r₂ hreaches hstep ih =>
    have hextend : r₁.snapshot = some S → r.snapshot = some S ∨ ∃ between,
        Reaches False r between ∧ between.graph = S.graph ∧ Reaches False between r₂ := by
      intro hS
      refine (ih hS).imp_right ?_
      rintro ⟨between, hbefore, hgraph, hafter⟩
      exact ⟨between, hbefore, hgraph, hafter.step hstep⟩
    cases hstep with
    | thaw => cases hS
    | @freeze g stamp hsnapshot hlink =>
      cases hS
      exact .inr ⟨_, Reaches.step hreaches (.freeze stamp hsnapshot hlink), rfl, .refl _⟩
    | _ => exact hextend hS

/-- What a snapshot shows is the graph of a registry that came up on the way. -/
theorem Reached.exists_taken (hr : r.Reached) {S : Snapshot} (hS : r.snapshot = some S) :
    ∃ between : Registry, between.Reached ∧ between.graph = S.graph ∧ Reaches False between r := by
  obtain ⟨settings, hreaches⟩ := hr
  rcases hreaches.taken hS with hbefore | ⟨between, hbefore, hgraph, hafter⟩
  · cases hbefore
  · exact ⟨between, ⟨settings, hbefore⟩, hgraph, hafter⟩

end Registry

end Protobuf

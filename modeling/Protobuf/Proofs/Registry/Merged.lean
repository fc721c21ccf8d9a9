import Mathlib
import Protobuf.Proofs.Graph.Merged
import Protobuf.Proofs.Registry.Files

/-!
# Files added to a registry that has others

A file is added to a registry with other definitions as it is added to an empty one, beside what is
there. Its package begins with a chain of packages that are there already; at the end of that the file
puts the next part of its package, or its definitions if there is none. So all depends on whether a
name that it puts there is taken. If one is, the file is refused; if none is, the file is added just if
it can be added to an empty registry, and the graph is made of the two.

## Main definitions

* `Registry.Opened` — the packages of a path have been opened in an empty registry.
* `Registry.Beside` — a file is being added to two registries.
* `FileDecl.tops` — the names that a file puts at the end of the chain.
* `Graph.Apart` — two graphs have no name in common at the end of the chain.

## Main results

* `Registry.coupled_addFile` — a file is added in the same way, if no name is taken
* `Registry.Added.second_iff` — when a second file can be added
* `Registry.Added.merged` — what has come out then
-/

namespace Protobuf

namespace Registry

variable {r s t : Registry} {names rest : List String} {settings : Settings} {file : FileDecl}

/-! ### Going into packages -/

/-- What is done below the current package when a file is added. -/
def addBelow (package : String) (parts : List String) (file : FileDecl) :
    RegistryEdit DefinitionError Unit := do
  parts.forM (enter package)
  addOptions file.options
  create file.definitions
  reset

/-- A registry in which definitions are added to the package `p`, in the dialect of the file. -/
def startAt (r : Registry) (file : FileDecl) (p : NodeId) : Registry :=
  { r with dialect := file.dialect, current := p }

theorem run_addFile (r : Registry) (file : FileDecl) :
    (ExceptT.run (addFile file)).run r =
      (ExceptT.run (addBelow (file.package.getD "") file.packageParts file)).run
        (r.startAt file Graph.root) := by
  rw [addFile, addBelow, FileDecl.packageParts]
  cases file.package with
  | none => rfl
  | some package =>
    show (ExceptT.run (define package file.options >>= fun _ => _)).run (r.startAt file Graph.root) = _
    rw [define, bind_assoc]
    rfl

theorem run_addBelow_cons (package name : String) (more : List String) (file : FileDecl)
    (r : Registry) : (ExceptT.run (addBelow package (name :: more) file)).run r =
      (ExceptT.run (enter package name >>= fun _ => addBelow package more file)).run r := by
  show (ExceptT.run ((enter package name >>= fun _ => more.forM (enter package)) >>= _)).run r = _
  rw [bind_assoc]
  rfl

/-- Going into the first parts of the package comes first. -/
theorem run_addBelow_append {package : String}
    (h : (ExceptT.run (names.forM (enter package))).run r = (.ok (), s)) :
    (ExceptT.run (addBelow package (names ++ rest) file)).run r =
      (ExceptT.run (addBelow package rest file)).run s := by
  rw [addBelow, List.forM_eq_forM, List.forM_append, bind_assoc, run_bind_eq, ← List.forM_eq_forM, h]
  rfl

/-- A package below which there is nothing is opened. -/
theorem run_enter_of_child?_eq_none {name : String} (package : String)
    (h : r.graph.child? r.current name = none) :
    ∃ g, r.graph.add r.current name (.package { dialect := r.dialect }) = .ok (r.graph.size, g) ∧
      (ExceptT.run (enter package name)).run r =
        (.ok (), { r with graph := g, current := r.graph.size }) := by
  have hadd := Graph.add_eq_ok.mpr ⟨h, fun f
    (hf : NodeKind.package { dialect := r.dialect } = .field f) => (by cases hf), rfl, rfl⟩
  refine ⟨_, hadd, ?_⟩
  rw [enter, run_get_bind, h]
  dsimp only
  rw [run_bind_eq, run_editGraph, GraphEdit.add, run_get_bind, hadd]
  rfl

theorem child?_eq_none_of_children {g : Graph} {p : NodeId} (h : g.children p = []) (name : String) :
    g.child? p name = none := by
  rw [Graph.child?, h]
  rfl

/-- Nothing but the packages of a path has been put into the registry, and the last of them is the
current one. -/
structure Opened (names : List String) (settings : Settings) (dialect : Dialect) (r : Registry) :
    Prop where
  chain : r.graph.Chain names
  size : r.graph.size = names.length + 1
  current : r.current = names.length
  children : r.graph.children names.length = []
  settings : r.graph.settings = settings
  dialect : r.dialect = dialect

theorem opened_startAt (settings : Settings) (file : FileDecl) :
    Opened [] settings file.dialect ((empty settings).startAt file Graph.root) where
  chain := ⟨Nat.one_pos, rfl, rfl, nofun, nofun, fun i hi => by
    rw [Nat.le_zero.mp hi]
    rfl, nofun⟩
  size := rfl
  current := rfl
  children := rfl
  settings := rfl
  dialect := rfl

/-- The next package is opened below the last one. -/
theorem Opened.enter {dialect : Dialect} (h : Opened names settings dialect r) (package name : String) :
    ∃ s, (ExceptT.run (Registry.enter package name)).run r = (.ok (), s) ∧
      Opened (names ++ [name]) settings dialect s := by
  have hnone := child?_eq_none_of_children (h.current.symm ▸ h.children) name
  obtain ⟨g, hadd, hrun⟩ := run_enter_of_child?_eq_none package hnone
  refine ⟨_, hrun, ?_⟩
  rw [h.current] at hadd
  obtain ⟨-, hplanted, hgrown⟩ := Graph.grown_of_add h.chain.lt hadd
  have hlength : (names ++ [name]).length = r.graph.size := by
    rw [h.size, List.length_append, List.length_singleton]
  have hchain := h.chain.grown hgrown (Nat.le_refl _)
  have hnew : r.graph.size = names.length + 1 := h.size
  have hcases : ∀ {i}, i < (names ++ [name]).length → i < names.length ∨ i = names.length := by
    intro i hi
    rw [hlength, hnew] at hi
    exact Nat.lt_or_eq_of_le (Nat.le_of_lt_succ hi)
  have hlonger : g.Chain (names ++ [name]) := by
    constructor
    case lt =>
      rw [hlength]
      exact hplanted.lt_size
    case name_root => exact hchain.name_root
    case parent?_root => exact hchain.parent?_root
    case name =>
      intro i hi
      rcases hcases hi with hlt | rfl
      · rw [hchain.name i hlt, List.getElem_append_left hlt]
      · rw [← hnew, hplanted.names, if_pos rfl, List.getElem_concat_length rfl]
    case parent? =>
      intro i hi
      rcases hcases hi with hlt | rfl
      · exact hchain.parent? i hlt
      · rw [← hnew, hplanted.parents, if_pos rfl]
    case package =>
      intro i hi
      rw [hlength] at hi
      rcases Nat.lt_or_eq_of_le hi with hlt | rfl
      · rw [hnew] at hlt
        exact hchain.package i (Nat.le_of_lt_succ hlt)
      · rw [hplanted.new]
        rfl
    case children =>
      intro i hi
      rcases hcases hi with hlt | rfl
      · exact hchain.children i hlt
      · -- the last package so far has had nothing below it
        have hscope := NodeKind.hasScope_of_isPackage (h.chain.package _ (Nat.le_refl _))
        rw [hplanted.children _ (Nat.ne_of_lt h.chain.lt), if_pos ⟨rfl, hscope⟩, h.children, hnew]
        rfl
  refine ⟨hlonger, ?_, hlength.symm, ?_, hgrown.settings.trans h.settings, h.dialect⟩
  · rw [hlength]
    exact hplanted.size
  · rw [hlength]
    exact hplanted.children_new rfl

/-- In an empty registry, all parts of a package are opened. -/
theorem Opened.parts {dialect : Dialect} (h : Opened names settings dialect r) (package : String)
    (rest : List String) :
    ∃ s, (ExceptT.run (rest.forM (Registry.enter package))).run r = (.ok (), s) ∧
      Opened (names ++ rest) settings dialect s := by
  induction rest generalizing names r with
  | nil =>
    rw [List.append_nil]
    exact ⟨r, rfl, h⟩
  | cons name more ih =>
    obtain ⟨s, hs, hopened⟩ := h.enter package name
    obtain ⟨t, ht, hopened'⟩ := ih hopened
    rw [List.append_cons]
    refine ⟨t, ?_, hopened'⟩
    show (ExceptT.run (Registry.enter package name >>= fun _ => more.forM (Registry.enter package))).run
      r = _
    rw [run_bind_eq, hs]
    exact ht

/-- Where the parts of a package are there already, they are gone into. -/
theorem run_parts_of_chain (h : r.graph.Chain names) (package : String) :
    (ExceptT.run (names.forM (enter package))).run { r with current := Graph.root } =
      (.ok (), { r with current := names.length }) := by
  induction names using List.reverseRecOn with
  | nil => rfl
  | append_singleton before name ih =>
    have hlt : before.length < (before ++ [name]).length := by simp
    have hchild : r.graph.child? before.length name = some (before.length + 1) := by
      rw [Graph.child?, h.children _ hlt, List.find?_singleton, h.name _ hlt,
        List.getElem_concat_length rfl]
      exact if_pos (decide_eq_true rfl)
    obtain ⟨scope, hscope⟩ :=
      Graph.exists_scope_of_isPackage (h.package (before.length + 1) hlt)
    rw [List.forM_eq_forM, List.forM_append, run_bind_eq, ← List.forM_eq_forM, ih h.of_append]
    dsimp only
    show (ExceptT.run (enter package name >>= fun _ => pure ())).run _ = _
    rw [run_bind_eq, enter, run_get_bind]
    dsimp only
    rw [hchild]
    dsimp only
    rw [hscope, List.length_append]
    rfl

/-! ### Beside other definitions -/

/-- A file is being added to a registry with other definitions, and to one without. -/
structure Beside (names : List String) (P : Graph) (dialect : Dialect) (r s : Registry) : Prop where
  merged : Graph.Merged names P s.graph r.graph
  current : r.current = Graph.aside names.length P.size s.current
  le : names.length ≤ s.current
  lt : s.current < s.graph.size
  dialect : r.dialect = dialect ∧ s.dialect = dialect

/-- The current package is past the end of the chain, unless there is no further part. -/
def Past (names rest : List String) (s : Registry) : Prop :=
  names.length < s.current ∨ rest = [] ∧ s.current = names.length

section Beside

variable {P : Graph} {dialect : Dialect} (hP : P.Chain names) (htree : P.Branching)

include hP htree

/-- The next part of the package is opened in both. -/
theorem Beside.enter (h : Beside names P dialect r s) (hbare : s.graph.children s.current = [])
    {name : String} (package : String)
    (hfree : (Graph.groundBeside names P).free s.current name) :
    Coupled (fun r s => Beside names P dialect r s ∧ s.graph.children s.current = [] ∧
        names.length < s.current) (fun _ _ => True) (fun _ _ => True) r s
      (Registry.enter package name) (Registry.enter package name) := by
  have hsmall := child?_eq_none_of_children hbare name
  have hbig : r.graph.child? r.current name = none := by
    rw [h.current, h.merged.child? htree hfree, hsmall]
    rfl
  obtain ⟨k, hadd, hrun⟩ := run_enter_of_child?_eq_none package hsmall
  obtain ⟨g, hadd', hrun'⟩ := run_enter_of_child?_eq_none package hbig
  obtain ⟨g', hboth, hmerged⟩ :=
    (Graph.coupling_merged hP htree).add h.merged hfree (fun h => by cases h) hadd
  rw [h.current, h.dialect.1] at hadd'
  rw [h.dialect.2] at hboth
  have heq := Except.ok.inj (hadd'.symm.trans hboth)
  obtain ⟨hid, rfl⟩ := Prod.mk.inj heq
  obtain ⟨-, hplanted, -⟩ := Graph.grown_of_add h.lt hadd
  have hnew : names.length < s.graph.size := h.merged.part.lt
  rw [Coupled, hrun, hrun']
  exact .ok trivial ⟨⟨hmerged, hid, Nat.le_of_lt hnew, hplanted.lt_size, h.dialect⟩,
    hplanted.children_new rfl, hnew⟩

/-- All parts of the package are opened in both, if the first of them is new. -/
theorem Beside.parts (h : Beside names P dialect r s) (hs : s.current = names.length)
    (hbare : s.graph.children s.current = []) (package : String)
    (hfree : ∀ name ∈ rest.head?, ∀ c ∈ P.children names.length, P.name c ≠ name) :
    Coupled (fun r s => Beside names P dialect r s ∧ Past names rest s) (fun _ _ => True)
      (fun _ _ => True) r s (rest.forM (Registry.enter package))
      (rest.forM (Registry.enter package)) := by
  cases rest with
  | nil => exact Coupled.pure trivial ⟨h, .inr ⟨rfl, hs⟩⟩
  | cons name more =>
    show Coupled _ _ _ r s (Registry.enter package name >>= fun _ => more.forM _) _
    refine Coupled.mono (Coupled.bind (h.enter hP htree hbare package (.inr ⟨hs, hfree name rfl⟩))
      fun _ _ r s _ hrs => Coupled.forM hrs fun name _ r s hrs =>
        hrs.1.enter hP htree hrs.2.1 package (.inl hrs.2.2)) (fun _ _ hrs => ⟨hrs.1, .inl hrs.2.2⟩)
          (fun _ _ h => h) fun _ _ h => h

end Beside

end Registry

theorem FileDecl.plain_packageParts (file : FileDecl) :
    ∀ name ∈ file.packageParts, Path.Plain name ∧ name ≠ "" := by
  intro name hname
  cases hpackage : file.package with
  | none =>
    rw [FileDecl.packageParts_of_none hpackage] at hname
    cases hname
  | some package =>
    rw [FileDecl.packageParts_of_some hpackage] at hname
    exact Registry.plain_of_mem_names hname

/-- The names that a file puts at the end of the chain of packages that are there: the next part of
its package, or those of its definitions if there is none. -/
def FileDecl.tops (settings : Settings) (file : FileDecl) : List String → List String
  | name :: _ => [name]
  | [] =>
    (file.definitions.flatMap (Definition.outlines settings file.dialect)).map Outline.name

namespace Registry

variable {r s t : Registry} {names rest : List String} {settings : Settings} {file : FileDecl}

/-- What a package gets as options, it gets in both. -/
theorem Beside.addOptions {P : Graph} {dialect : Dialect} (hP : P.Chain names)
    (h : Beside names P dialect r s) (options : Options) :
    Beside names P dialect (r.withOptions options) (s.withOptions options) := by
  refine ⟨?_, h.current, h.le, ?_, h.dialect⟩
  · show Graph.Merged names P (s.graph.mapKind s.current _) (r.graph.mapKind r.current _)
    rw [h.current]
    exact h.merged.mapOptions hP h.le fun o => .ofList (o.entries ++ options.entries)
  · show s.current < (s.graph.mapKind s.current _).size
    rw [Graph.size_mapKind]
    exact h.lt

/-- Definitions are added to both, if their names are not taken. -/
theorem Beside.create {P : Graph} {dialect : Dialect} (hP : P.Chain names) (htree : P.Branching)
    (h : Beside names P dialect r s) (definitions : List Definition)
    (hfree : ∀ o ∈ definitions.flatMap (Definition.outlines P.settings dialect),
      (Graph.groundBeside names P).free s.current o.name) :
    Coupled (fun r s => Graph.Merged names P s.graph r.graph) (fun _ _ => True) (fun _ _ => True)
      r s (Registry.create definitions) (Registry.create definitions) := by
  have halike := GraphEdit.alike_createAll dialect (Graph.coupling_merged hP htree) h.merged
    s.current definitions hfree
  rw [Coupled, run_create, run_create, withDefinitions, withDefinitions]
  rw [← h.current, GraphEdit.Alike, Coupled] at halike
  simp only [h.dialect.1, h.dialect.2]
  generalize (ExceptT.run (GraphEdit.createAll dialect r.current definitions)).run r.graph = x
    at halike ⊢
  generalize (ExceptT.run (GraphEdit.createAll dialect s.current definitions)).run s.graph = y
    at halike ⊢
  cases halike with
  | ok hV hR => exact .ok hV hR
  | error hE hR => exact .error trivial hR

/-- A file is added in the same way below a chain of packages, if no name is taken there. -/
theorem Beside.addBelow {P : Graph} (hP : P.Chain names) (htree : P.Branching)
    (h : Beside names P file.dialect r s) (hs : s.current = names.length)
    (hbare : s.graph.children s.current = []) (package : String)
    (hfree : ∀ name ∈ file.tops P.settings rest, ∀ c ∈ P.children names.length, P.name c ≠ name) :
    Coupled (fun r s => Graph.Merged names P s.graph r.graph) (fun _ _ => True) (fun _ _ => True)
      r s (Registry.addBelow package rest file) (Registry.addBelow package rest file) := by
  have hhead : ∀ name ∈ rest.head?, ∀ c ∈ P.children names.length, P.name c ≠ name := by
    intro name hname
    cases rest with
    | nil => cases hname
    | cons top more =>
      cases hname
      exact hfree name List.mem_cons_self
  rw [Registry.addBelow]
  refine Coupled.andThen (fun _ _ h => h.1.merged) (h.parts hP htree hs hbare package hhead)
    fun _ _ r s _ hrs => ?_
  obtain ⟨hrs, hplace⟩ := hrs
  refine Coupled.andThen (fun _ _ h => h.1.merged) (V := fun _ _ => True)
    (R := fun r s => Beside names P file.dialect r s ∧ Past names rest s)
    (Coupled.modify trivial ⟨hrs.addOptions hP file.options, hplace⟩) fun _ _ r s _ hrs => ?_
  obtain ⟨hrs, hplace⟩ := hrs
  refine Coupled.bind (hrs.create hP htree file.definitions fun o ho => ?_)
    fun _ _ r s _ hrs => Coupled.modify trivial hrs
  rcases hplace with hlt | ⟨rfl, heq⟩
  · exact .inl hlt
  · exact .inr ⟨heq, hfree o.name (List.mem_map_of_mem ho)⟩

/-! ### A file by itself -/

theorem Reached.startAt (h : r.Reached) (file : FileDecl) :
    (r.startAt file Graph.root).Reached :=
  h.begin file.dialect

theorem Reached.parts (h : r.Reached) {package : String}
    (hnames : ∀ name ∈ names, Path.Plain name ∧ name ≠ "")
    (hrun : (ExceptT.run (names.forM (enter package))).run r = (.ok (), s)) : s.Reached := by
  have hkeeps : Keeps Reached (names.forM (enter package)) := keeps_reached fun _ =>
    Leads.forM fun name hname => keeps_enter package (hnames name hname).1 (hnames name hname).2
  have hleft := hkeeps.left h
  rw [hrun] at hleft
  exact hleft

/-- The definitions of a file are put at the end of its package. -/
theorem gained_of_addBelow {package : String} (hr : r.Reached) (hdialect : r.dialect = file.dialect)
    (hrun : (ExceptT.run (addBelow package [] file)).run r = (.ok (), s)) :
    (r.withOptions file.options).graph.Gained r.current
      (file.definitions.flatMap (Definition.outlines r.graph.settings file.dialect)) s.graph := by
  have hstanding : (r.withOptions file.options).Standing :=
    (hr.step (.options file.options)).standing
  have hsplit : (ExceptT.run (addBelow package [] file)).run r =
      (ExceptT.run (create file.definitions >>= fun _ => reset)).run (r.withOptions file.options) :=
    rfl
  rw [hsplit, run_bind_eq] at hrun
  rcases (hstanding.leads_create file.definitions).outcome rfl with ⟨_, hok, hgained⟩ | ⟨_, herror, -⟩
  · generalize (ExceptT.run (create file.definitions)).run (r.withOptions file.options) = x
      at hrun hok hgained
    obtain ⟨_, t⟩ := x
    cases hok
    cases hrun
    rw [outlines] at hgained
    exact hdialect ▸ hgained
  · generalize (ExceptT.run (create file.definitions)).run (r.withOptions file.options) = x
      at hrun herror
    obtain ⟨_, t⟩ := x
    cases herror
    cases hrun

/-- The registry is what comes out when a file is added to an empty one. -/
def Added (settings : Settings) (file : FileDecl) (r : Registry) : Prop :=
  (ExceptT.run (addFile file)).run (empty settings) = (.ok (), r)

theorem Added.reached (h : Added settings file r) : r.Reached := by
  have hkeeps : Keeps Reached (addFile file) := keeps_reached fun _ => keeps_addFile False.elim
  have hleft := hkeeps.left (s := empty settings) ⟨settings, .refl _⟩
  rw [Added] at h
  rw [h] at hleft
  exact hleft

/-- In an empty registry, the file has its package and its definitions to itself. -/
theorem Added.content (h : Added settings file r) :
    r.graph.Chain file.packageParts ∧ r.graph.settings = settings ∧
      List.Forall₂ (r.graph.Whole 0) (r.graph.children file.packageParts.length)
        (file.definitions.flatMap (Definition.outlines settings file.dialect)) := by
  obtain ⟨s, hs, hopened⟩ :=
    (opened_startAt settings file).parts (file.package.getD "") file.packageParts
  rw [List.nil_append] at hopened
  have hreached : s.Reached := Reached.parts
    (Reached.startAt ⟨settings, .refl _⟩ file) file.plain_packageParts hs
  rw [Added, run_addFile, ← List.append_nil file.packageParts, run_addBelow_append hs] at h
  obtain ⟨new, hnew, hwhole⟩ := gained_of_addBelow hreached hopened.dialect h
  have hshape : s.graph.SameShape (s.withOptions file.options).graph :=
    Graph.sameShape_mapScope _ fun s => rfl
  have hchain : (s.withOptions file.options).graph.Chain file.packageParts := by
    refine hopened.chain.congr (Nat.le_of_eq hshape.size.symm) (fun n _ => hshape.name n)
      (fun n _ => hshape.parent? n) (fun n _ => ?_) fun n _ => hshape.children n
    show ((s.graph.mapKind s.current _).kind n).isPackage = _
    rw [Graph.kind_mapKind]
    split
    · cases s.graph.kind n <;> rfl
    · rfl
  have hcurrent : s.current = file.packageParts.length := hopened.current
  rw [hcurrent] at hnew
  refine ⟨hchain.grown hnew.toGrown (Nat.le_refl _), hnew.settings.trans hopened.settings, ?_⟩
  rw [hnew.appended, hshape.children, hopened.children, List.nil_append]
  rw [hopened.settings] at hwhole
  exact Graph.forall₂_of_le (Nat.zero_le _) hwhole

theorem map_name_of_whole {g : Graph} {since : NodeId} {nodes : List NodeId}
    {outlines : List Outline} (h : List.Forall₂ (g.Whole since) nodes outlines) :
    nodes.map g.name = outlines.map Outline.name ∧ ∀ n ∈ nodes, (g.kind n).isPackage = false := by
  induction h with
  | nil => exact ⟨rfl, nofun⟩
  | @cons n o nodes outlines hw _ ih =>
    obtain ⟨name, kind, oneof, parts⟩ := o
    obtain ⟨-, hshows, -⟩ := Graph.whole_iff.mp hw
    exact ⟨congrArg₂ List.cons hshows.name ih.1, List.forall_mem_cons.mpr ⟨hshows.notPackage, ih.2⟩⟩

/-- At the end of a chain of packages, the file puts what it puts there, and nothing else is there. -/
theorem Added.tops (h : Added settings file r) (hparts : file.packageParts = names ++ rest) :
    (r.graph.children names.length).map r.graph.name = file.tops settings rest ∧
      ∀ c ∈ r.graph.children names.length, (r.graph.kind c).isPackage →
        rest.head? = some (r.graph.name c) := by
  obtain ⟨hchain, -, hwhole⟩ := h.content
  rw [hparts] at hchain hwhole
  cases rest with
  | nil =>
    rw [List.append_nil] at hwhole
    obtain ⟨hnames, hother⟩ := map_name_of_whole hwhole
    refine ⟨hnames, fun c hc hpackage => ?_⟩
    rw [hother c hc] at hpackage
    cases hpackage
  | cons name more =>
    have hlt : names.length < (names ++ name :: more).length := by simp
    have hname : r.graph.name (names.length + 1) = name := by
      rw [hchain.name _ hlt, List.getElem_append_right (Nat.le_refl _)]
      simp
    rw [hchain.children _ hlt]
    refine ⟨congrArg (fun n => [n]) hname, fun c hc _ => ?_⟩
    rw [List.mem_singleton.mp hc, hname]
    rfl

/-! ### A file after others -/

/-- The chain of packages is gone into, in a registry that has it. -/
theorem run_addFile_of_chain (hchain : r.graph.Chain names)
    (hparts : file.packageParts = names ++ rest) :
    (ExceptT.run (addFile file)).run r =
      (ExceptT.run (addBelow (file.package.getD "") rest file)).run
        (r.startAt file names.length) := by
  have hwalk := run_parts_of_chain (r := r.startAt file Graph.root) hchain (file.package.getD "")
  rw [run_addFile, hparts]
  exact run_addBelow_append hwalk

/-- A file is added to a registry with other definitions as it is added to an empty one, if no name is
taken at the end of the chain of packages that is there. -/
theorem coupled_addFile (hr : r.Reached) (hchain : r.graph.Chain names)
    (hparts : file.packageParts = names ++ rest)
    (hfree : ∀ name ∈ file.tops r.graph.settings rest,
      ∀ c ∈ r.graph.children names.length, r.graph.name c ≠ name) :
    Coupled (fun s t => Graph.Merged names r.graph t.graph s.graph) (fun _ _ => True)
      (fun _ _ => True) r (empty r.graph.settings) (addFile file) (addFile file) := by
  obtain ⟨s, hs, hopened⟩ :=
    (opened_startAt r.graph.settings file).parts (file.package.getD "") names
  rw [List.nil_append] at hopened
  have hempty : (ExceptT.run (addFile file)).run (empty r.graph.settings) =
      (ExceptT.run (addBelow (file.package.getD "") rest file)).run s := by
    rw [run_addFile, hparts]
    exact run_addBelow_append hs
  have hbeside : Beside names r.graph file.dialect
      (r.startAt file names.length) s := by
    refine ⟨Graph.merged_self hchain hopened.chain hopened.settings hopened.size hopened.children, ?_,
      Nat.le_of_eq hopened.current.symm, ?_, rfl, hopened.dialect⟩
    · rw [hopened.current, Graph.aside_of_le (Nat.le_refl _)]
      rfl
    · rw [hopened.current, hopened.size]
      exact Nat.lt_succ_self _
  have hbelow := hbeside.addBelow hchain hr.standing.tree.toBranching hopened.current
    (hopened.current ▸ hopened.children) (file.package.getD "") hfree
  rw [Coupled] at hbelow ⊢
  rw [run_addFile_of_chain hchain hparts, hempty]
  exact hbelow

/-- If a part of a package is gone into and no package has its name, nothing else has it. -/
theorem free_of_run_enter {package part : String} {a : Unit}
    (hpackage : ∀ c ∈ r.graph.children r.current, (r.graph.kind c).isPackage →
      r.graph.name c ≠ part)
    (hrun : (ExceptT.run (enter package part)).run r = (.ok a, s)) :
    ∀ c ∈ r.graph.children r.current, r.graph.name c ≠ part := by
  have henter := leads_enter package part r rfl
  rw [hrun] at henter
  intro c hc hname
  cases henter with
  | there hchild hpk =>
    have hfound := List.find?_some hchild
    exact hpackage _ (List.mem_of_find?_eq_some hchild) hpk (of_decide_eq_true hfound)
  | opened hchild hadd => exact List.find?_eq_none.mp hchild c hc (decide_eq_true hname)

/-- Definitions that are added to a package have other names than what has been there before. -/
theorem free_of_run_addBelow {package : String} (hr : r.Reached) (ht : t.Reached)
    (hdialect : r.dialect = file.dialect)
    (hrun : (ExceptT.run (addBelow package [] file)).run r = (.ok (), t)) :
    ∀ name ∈ file.tops r.graph.settings [],
      ∀ c ∈ r.graph.children r.current, r.graph.name c ≠ name := by
  intro name hname c hc heq
  obtain ⟨new, hnew, hwhole⟩ := gained_of_addBelow hr hdialect hrun
  obtain ⟨hnames, -⟩ := map_name_of_whole hwhole
  have hmem : name ∈ new.map t.graph.name := by
    rw [hnames]
    exact hname
  obtain ⟨d, hd, hdname⟩ := List.mem_map.mp hmem
  have hshape : r.graph.SameShape (r.withOptions file.options).graph :=
    Graph.sameShape_mapScope _ fun s => rfl
  -- the old and the new members of the package are siblings afterwards
  have hsiblings := ht.standing.tree.siblings r.current
  have happended : t.graph.children r.current = r.graph.children r.current ++ new := by
    rw [← hshape.children]
    exact hnew.appended
  rw [happended] at hsiblings
  refine (List.pairwise_append.mp hsiblings).2.2 c hc d hd ?_
  have hlt : c < r.graph.size := (hr.standing.tree.lt_of_mem_children hc).2
  rw [hnew.name (hshape.size.symm ▸ hlt), hshape.name, heq, hdname]

/-- A file that is added after others brings no name to the end of the chain that is taken there. -/
theorem free_of_run (hr : r.Reached) (hchain : r.graph.Chain names)
    (hparts : file.packageParts = names ++ rest)
    (hpackage : ∀ c ∈ r.graph.children names.length, (r.graph.kind c).isPackage →
      rest.head? ≠ some (r.graph.name c))
    (hrun : (ExceptT.run (addFile file)).run r = (.ok (), t)) :
    ∀ name ∈ file.tops r.graph.settings rest,
      ∀ c ∈ r.graph.children names.length, r.graph.name c ≠ name := by
  cases rest with
  | cons part more =>
    rw [run_addFile_of_chain hchain hparts, run_addBelow_cons, run_bind_eq] at hrun
    intro name hname
    obtain rfl := List.mem_singleton.mp hname
    rcases hresult : (ExceptT.run (enter (file.package.getD "") name)).run
        (r.startAt file names.length) with ⟨e | a, s⟩
    · rw [hresult] at hrun
      cases hrun
    · refine free_of_run_enter (r := r.startAt file names.length)
        (fun c hc hpk heq => hpackage c hc hpk ?_) hresult
      rw [← heq]
      rfl
  | nil =>
    have hreached : Registry.Reached (r.startAt file names.length) := by
      refine Reached.parts (hr.startAt file) (fun n hn => file.plain_packageParts n ?_)
        (run_parts_of_chain (r := r.startAt file Graph.root) hchain "")
      rw [hparts]
      exact List.mem_append_left _ hn
    have hafter : t.Reached := by
      have hkeeps : Keeps Reached (addFile file) :=
        keeps_reached fun _ => keeps_addFile False.elim
      have hleft := hkeeps.left hr
      rw [hrun] at hleft
      exact hleft
    rw [run_addFile_of_chain hchain hparts] at hrun
    exact free_of_run_addBelow hreached hafter rfl hrun

end Registry

/-- The graphs have no name in common at the end of the chain. -/
def Graph.Apart (names : List String) (g h : Graph) : Prop :=
  ∀ c ∈ g.children names.length, ∀ d ∈ h.children names.length, g.name c ≠ h.name d

theorem Graph.Apart.symm {names : List String} {g h : Graph} (hgh : g.Apart names h) :
    h.Apart names g :=
  fun d hd c hc => (hgh c hc d hd).symm

namespace Registry

section Second

variable {r s t : Registry} {names more : List String} {settings : Settings} {a b : FileDecl}
  (ha : Added settings a r) (hb : b.packageParts = names ++ more)

include ha hb

theorem Added.free_iff (hs : Added settings b s) : r.graph.Apart names s.graph ↔
    ∀ name ∈ b.tops r.graph.settings more,
      ∀ c ∈ r.graph.children names.length, r.graph.name c ≠ name := by
  rw [ha.content.2.1, ← (hs.tops hb).1, List.forall_mem_map]
  exact ⟨fun h d hd c hc => h c hc d hd, fun h c hc d hd => h d hd c hc⟩

/-- A second file can be added if it can be added by itself, and has no name in common with the first
one at the end of the chain. -/
theorem Added.exists_second (hchain : r.graph.Chain names) (hs : Added settings b s)
    (hapart : r.graph.Apart names s.graph) :
    ∃ t, (ExceptT.run (addFile b)).run r = (.ok (), t) := by
  have hcoupled := coupled_addFile ha.reached hchain hb ((ha.free_iff hb hs).mp hapart)
  rw [Coupled, ha.content.2.1] at hcoupled
  rw [Added] at hs
  rw [hs] at hcoupled
  rcases hresult : (ExceptT.run (addFile b)).run r with ⟨e | _, t⟩
  · rw [hresult] at hcoupled
    cases hcoupled
  · exact ⟨t, rfl⟩

/-- If a second file can be added, it can be added by itself, has no name in common with the first one
at the end of the chain, and the graph is made of the two. -/
theorem Added.merged (hchain : r.graph.Chain names)
    (hpackage : ∀ c ∈ r.graph.children names.length, (r.graph.kind c).isPackage →
      more.head? ≠ some (r.graph.name c))
    (ht : (ExceptT.run (addFile b)).run r = (.ok (), t)) :
    ∃ s, Added settings b s ∧ r.graph.Apart names s.graph ∧
      Graph.Merged names r.graph s.graph t.graph := by
  have hfree := free_of_run ha.reached hchain hb hpackage ht
  have hcoupled := coupled_addFile ha.reached hchain hb hfree
  rw [Coupled, ht, ha.content.2.1] at hcoupled
  rcases hresult : (ExceptT.run (addFile b)).run (empty settings) with ⟨e | _, s⟩
  · rw [hresult] at hcoupled
    cases hcoupled
  · rw [hresult] at hcoupled
    cases hcoupled with
    | ok _ hmerged => exact ⟨s, hresult, (ha.free_iff hb hresult).mpr hfree, hmerged⟩

end Second

end Registry

end Protobuf

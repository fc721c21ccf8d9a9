import Mathlib.Logic.Relation
import Protobuf.Proofs.Registry.Create
import Protobuf.Registry.Basic

/-!
# Steps of registries

Whatever is done to a registry, and wherever that is refused, is a sequence of a few kinds of steps:
packages are gone into or opened, the dialect is changed, a file is noted, the snapshot is dropped,
definitions are added to the current package, and a snapshot is taken. So what holds of a registry
at all times is looked at step by step, once.

Definitions are only ever added where there is no snapshot, and a snapshot is only taken where there
is none. A package may be opened, and be given options, under a snapshot.

## Main definitions

* `Registry.Step` — a step.
* `Registry.Reaches` — a registry goes over into another one, step by step.
* `Registry.Enters` — what going into a part of a package does.

## Main results

* `Registry.keeps_define`, `Registry.keeps_create`, `Registry.keeps_importFile`,
  `Registry.keeps_load`, `Registry.keeps_loadWithin`, `Registry.keeps_resolveAll` — actions on
  registries are sequences of steps
-/

namespace Protobuf

namespace Registry

/-- A registry whose current package has got further options. -/
def withOptions (r : Registry) (options : Options) : Registry :=
  let extend (s : Scope) : Scope :=
    { s with options := .ofList (s.options.entries ++ options.entries) }
  { r with graph := r.graph.mapKind r.current (·.mapScope extend) }

/-- A registry in which definitions have been added to the current package, as far as they are not
refused. -/
def withDefinitions (r : Registry) (definitions : List Definition) : Registry :=
  { r with graph :=
      ((ExceptT.run (GraphEdit.createAll r.dialect r.current definitions)).run r.graph).2 }

/-- A step of a registry. Where `strict` holds, definitions are such as could come from a text. -/
inductive Step (strict : Prop) (r : Registry) : Registry → Prop
  /-- The root becomes the current package. -/
  | reset : Step strict r { r with current := Graph.root }
  /-- A package below the current one becomes the current one. -/
  | descend {p : NodeId} (hp : p ∈ r.graph.children r.current)
      (hpackage : (r.graph.kind p).isPackage) : Step strict r { r with current := p }
  /-- A package is added below the current one and becomes the current one. -/
  | enter {name : String} {id : NodeId} {g : Graph} (hname : Path.Plain name) (hne : name ≠ "")
      (hadd : r.graph.add r.current name (.package { dialect := r.dialect }) = .ok (id, g)) :
      Step strict r { r with graph := g, current := id }
  /-- The current package gets further options. -/
  | options (options : Options) : Step strict r (r.withOptions options)
  /-- The dialect of what is to come is set. -/
  | dialect (dialect : Dialect) : Step strict r { r with dialect }
  /-- A file is noted. -/
  | note (name : String) : Step strict r { r with files := Keyed.insert id name r.files }
  /-- The snapshot is dropped. -/
  | thaw : Step strict r { r with snapshot := none }
  /-- Definitions are added to the current package, as far as they are not refused. -/
  | create (definitions : List Definition) (hsnapshot : r.snapshot = none)
      (htextual : strict → ∀ d ∈ definitions, d.Textual) :
      Step strict r (r.withDefinitions definitions)
  /-- All references are looked up, and a snapshot is taken. -/
  | freeze {g : Graph} (stamp : Nat) (hsnapshot : r.snapshot = none)
      (hlink : r.graph.link = .ok g) :
      Step strict r { r with graph := g, snapshot := some { graph := g, stamp } }

/-- The registry goes over into another one, step by step. -/
def Reaches (strict : Prop) : Registry → Registry → Prop :=
  Relation.ReflTransGen (Step strict)

variable {strict : Prop} {r₀ r : Registry}

theorem Reaches.refl (r : Registry) : Reaches strict r r :=
  Relation.ReflTransGen.refl

theorem Reaches.step {r' : Registry} (h : Reaches strict r₀ r) (hstep : Step strict r r') :
    Reaches strict r₀ r' :=
  Relation.ReflTransGen.tail h hstep

/-! ### Actions on the graph -/

/-- An action on the graph leaves everything else of a registry alone. -/
theorem leads_editGraph {α : Type} {edit : GraphEdit α} {Q : α → Registry → Prop}
    {I : Registry → Prop} (h : Leads (· = r.graph) edit (fun a g => Q a { r with graph := g })
      fun g => I { r with graph := g }) : Leads (· = r) (editGraph edit) Q I := by
  rintro r rfl
  have hrun := h r.graph rfl
  have hedit : (ExceptT.run (editGraph edit)).run r = (((ExceptT.run edit).run r.graph).1,
      { r with graph := ((ExceptT.run edit).run r.graph).2 }) := rfl
  rw [hedit]
  rcases hrun' : (ExceptT.run edit).run r.graph with ⟨e | a, g⟩
  · rw [hrun'] at hrun
    exact hrun
  · rw [hrun'] at hrun
    exact hrun

theorem run_editGraph {α : Type} (edit : GraphEdit α) (r : Registry) :
    (ExceptT.run (editGraph edit)).run r = (((ExceptT.run edit).run r.graph).1,
      { r with graph := ((ExceptT.run edit).run r.graph).2 }) :=
  rfl

/-- Two actions on the graph are one. -/
theorem editGraph_bind {α β : Type} (x : GraphEdit α) (f : α → GraphEdit β) :
    editGraph (x >>= f) = editGraph x >>= fun a => editGraph (f a) := by
  funext r
  show (ExceptT.run (editGraph (x >>= f))).run r =
    (ExceptT.run (editGraph x >>= fun a => editGraph (f a))).run r
  rw [run_bind_eq, run_editGraph, run_editGraph, run_bind_eq]
  rcases (ExceptT.run x).run r.graph with ⟨e | a, g⟩ <;> rfl

theorem editGraph_forM {α : Type} (step : α → GraphEdit Unit) (items : List α) :
    (items.forM fun a => editGraph (step a)) = editGraph (items.forM step) := by
  induction items with
  | nil => rfl
  | cons a more ih =>
    show (editGraph (step a) >>= fun _ => more.forM fun a => editGraph (step a)) =
      editGraph (step a >>= fun _ => more.forM step)
    rw [editGraph_bind, ih]

/-- Definitions are added to the graph as it is, and the snapshot is dropped. -/
theorem run_create (definitions : List Definition) (r : Registry) :
    (ExceptT.run (create definitions)).run r =
      (((ExceptT.run (GraphEdit.createAll r.dialect r.current definitions)).run r.graph).1,
        { r with snapshot := none }.withDefinitions definitions) := by
  show (ExceptT.run (definitions.forM fun d => editGraph (.create r.dialect r.current d))).run
    { r with snapshot := none } = _
  rw [editGraph_forM]
  rfl

/-! ### Packages -/

theorem keeps_reset {ε : Type} : Keeps (Reaches strict r₀) (reset : RegistryEdit ε Unit) :=
  Leads.modify fun _ hr => hr.step .reset

/-- A part of a package has been gone into. -/
inductive Enters (r : Registry) (name : String) : Registry → Prop
  /-- The part is there. -/
  | there {p : NodeId} (hchild : r.graph.child? r.current name = some p)
      (hpackage : (r.graph.kind p).isPackage) : Enters r name { r with current := p }
  /-- The part has been added. -/
  | opened {id : NodeId} {g : Graph} (hchild : r.graph.child? r.current name = none)
      (hadd : r.graph.add r.current name (.package { dialect := r.dialect }) = .ok (id, g)) :
      Enters r name { r with graph := g, current := id }

/-- A part of a package is refused only if something else is in its place, and then nothing has been
done. -/
theorem leads_enter (package name : String) :
    Leads (· = r) (enter package name) (fun _ => r.Enters name)
      fun s => s = r ∧ ∃ c, r.graph.child? r.current name = some c := by
  rw [enter]
  refine Leads.bindGet ?_
  split
  · rename_i existing hexisting
    split
    · rename_i scope hkind
      refine Leads.bind (Q := fun inner s => inner = existing ∧ s = r)
        (Leads.pure fun s hs => ⟨rfl, hs⟩) fun inner => Leads.modify fun s hs => ?_
      obtain ⟨rfl, rfl⟩ := hs
      exact .there hexisting (by rw [hkind]; rfl)
    · exact Leads.bind (Q := fun _ _ => False) (Leads.throw fun s hs => ⟨hs, _, hexisting⟩)
        fun _ => Leads.modify fun s hs => hs.elim
  · rename_i hnone
    refine Leads.bind (Q := fun inner s => r.Enters name { s with current := inner })
      (leads_editGraph (GraphEdit.leads_add (fun g hg id g' hadd => ?_) fun g hg e herr => ?_))
      fun inner => Leads.modify fun s hs => hs
    · rw [hg] at hadd
      exact .opened hnone hadd
    · have hok := Graph.add_eq_ok.mpr ⟨hnone, fun f
        (hf : NodeKind.package { dialect := r.dialect } = .field f) => (by cases hf), rfl, rfl⟩
      rw [hg, hok] at herr
      cases herr

theorem Reaches.enters {r s : Registry} {name : String} (hr : Reaches strict r₀ r)
    (hname : Path.Plain name) (hne : name ≠ "") (hs : r.Enters name s) : Reaches strict r₀ s := by
  cases hs with
  | there hchild hpackage => exact hr.step (.descend (List.mem_of_find?_eq_some hchild) hpackage)
  | opened _ hadd => exact hr.step (.enter hname hne hadd)

theorem keeps_enter (package : String) {name : String} (hname : Path.Plain name) (hne : name ≠ "") :
    Keeps (Reaches strict r₀) (enter package name) :=
  Leads.each fun _ hr => (leads_enter package name).mono (fun _ _ hs => hr.enters hname hne hs)
    fun _ hs => hs.1 ▸ hr

/-- The parts of a package that are gone into are names. -/
theorem plain_of_mem_names {package name : String}
    (h : name ∈ (Path.parts package).filter (· ≠ "")) : Path.Plain name ∧ name ≠ "" := by
  obtain ⟨hpart, hne⟩ := List.mem_filter.mp h
  exact ⟨Path.plain_of_mem_parts hpart, of_decide_eq_true hne⟩

/-- What is kept where one part of a package is gone into is kept on the way to the package, which then
gets the options. -/
theorem leads_define_of {P Q I : Registry → Prop} {package : String} {options : Options}
    (henter : ∀ name, Path.Plain name → name ≠ "" → ∀ r s, P r → r.Enters name s → P s)
    (hrefused : ∀ r, P r → I r) (hoptions : ∀ r, P r → Q (r.withOptions options)) :
    Leads P (define package options) (fun _ => Q) I := by
  rw [define]
  refine Leads.bind (Leads.forM fun name hname => Leads.each fun r hr => ?_)
    fun _ => Leads.modify hoptions
  obtain ⟨hplain, hne⟩ := plain_of_mem_names hname
  refine (leads_enter package name).mono (fun _ s hs => henter name hplain hne r s hr hs)
    fun s hs => ?_
  rw [hs.1]
  exact hrefused r hr

theorem keeps_define (package : String) (options : Options) :
    Keeps (Reaches strict r₀) (define package options) :=
  leads_define_of (fun _ hname hne _ _ hr hs => hr.enters hname hne hs) (fun _ hr => hr)
    fun _ hr => hr.step (.options options)

/-! ### Files -/

theorem keeps_create {definitions : List Definition}
    (h : strict → ∀ d ∈ definitions, d.Textual) :
    Keeps (Reaches strict r₀) (create definitions) := by
  intro r hr
  rw [run_create]
  have hreaches : Reaches strict r₀ ({ r with snapshot := none }.withDefinitions definitions) :=
    (hr.step .thaw).step (.create definitions rfl h)
  rcases (ExceptT.run (GraphEdit.createAll r.dialect r.current definitions)).run r.graph with
    ⟨e | a, g⟩
  · exact hreaches
  · exact hreaches

section

variable {P Q I : Registry → Prop} {file : FileDecl}

/-- A file begins with its dialect and the root. Its package is gone into, if it has one, and gets the
options. Then the definitions are created, and the root is gone back to. -/
theorem leads_addFile_of {B M : Registry → Prop}
    (hbegin : ∀ r, P r → B { r with dialect := file.dialect, current := Graph.root })
    (hdefine : ∀ package, file.package = some package →
      Leads B (define package file.options) (fun _ => M) I)
    (hoptions : file.package = none → ∀ r, B r → M (r.withOptions file.options))
    (hcreate : Leads M (create file.definitions) (fun _ r => Q { r with current := Graph.root }) I) :
    Leads P (addFile file) (fun _ => Q) I := by
  have hrest : Leads M (create file.definitions >>= fun _ => reset) (fun _ => Q) I :=
    Leads.bind hcreate fun _ => Leads.modify fun r hr => hr
  rw [addFile]
  refine Leads.bind (Q := fun _ r => B { r with current := Graph.root }) (Leads.modify hbegin)
    fun _ => ?_
  refine Leads.bind (Q := fun _ => B) (Leads.modify fun r hr => hr) fun _ => ?_
  split
  · rename_i package hpackage
    exact Leads.bind (hdefine package hpackage) fun _ => hrest
  · rename_i hpackage
    exact Leads.bind (Leads.modify (hoptions hpackage)) fun _ => hrest

/-- A file whose name has been noted is passed over. Any other is added once its name is noted. -/
theorem leads_importFile_of {name : Option String} {Q : Unit → Registry → Prop}
    (hnone : name = none → Leads P (addFile file) Q I)
    (hnoted : ∀ n, name = some n → ∀ r, P r → n ∈ r.files → Q () r)
    (hnew : ∀ n, name = some n → ∀ r, P r → n ∉ r.files →
      Leads (· = { r with files := Keyed.insert id n r.files }) (addFile file) Q I) :
    Leads P (importFile file name) Q I := by
  cases name with
  | none => exact hnone rfl
  | some n =>
    rw [importFile]
    refine Leads.each fun r hr => Leads.bindGet ?_
    split
    · rename_i hmem
      refine Leads.pure fun s hs => ?_
      rw [hs]
      exact hnoted n rfl r hr (List.contains_iff_mem.mp hmem)
    · rename_i hmem
      refine Leads.bind (Q := fun _ s => s = { r with files := Keyed.insert id n r.files })
        (Leads.modify fun s hs => by rw [hs]) fun _ => ?_
      exact hnew n rfl r hr fun hfound => hmem (List.contains_iff_mem.mpr hfound)

end

theorem keeps_addFile {file : FileDecl} (h : strict → file.Textual) :
    Keeps (Reaches strict r₀) (addFile file) :=
  leads_addFile_of (fun _ hr => (hr.step (.dialect file.dialect)).step .reset)
    (fun package _ => keeps_define package file.options)
    (fun _ _ hr => hr.step (.options file.options))
    ((keeps_create fun hs => (h hs).definitions).mono (fun _ _ hr => hr.step .reset)
      fun _ hr => hr)

/-- Where loading an import leads, following all imports leads. An import is loaded only if it has
not been noted. -/
theorem leads_imports {available : List (String × String)} {fuel : Nat} {name : String}
    {imports : List String} {P I : Registry → Prop} (hP : ∀ r, P r → I r)
    (h : ∀ path ∈ imports, ∀ text, available.lookup path = some text →
      Leads (fun r => P r ∧ path ∉ r.files) (loadWithin available fuel text path) (fun _ => P) I) :
    Leads P (imports.forM fun path => do
      if path = descriptorFile ∨ (← get).files.contains path then return
      match available.lookup path with
      | none => throw (.importMissing path name)
      | some text => loadWithin available fuel text path) (fun _ => P) I := by
  refine Leads.forM fun path hpath => Leads.each fun r hr => Leads.bindGet ?_
  split
  · exact Leads.pure fun s hs => hs ▸ hr
  · rename_i hnew
    split
    · exact Leads.throw fun s hs => hs ▸ hP r hr
    · refine (h path hpath _ ‹_›).weaken fun s hs => ?_
      rw [hs]
      exact ⟨hr, fun hmem => hnew (.inr (List.contains_iff_mem.mpr hmem))⟩

/-- A file is passed over if its name has been noted, and refused if its text cannot be read. Else its
name is noted, its imports are loaded one after the other, with one file less to go, and it is added. -/
theorem leads_loadWithin_succ {available : List (String × String)} {fuel : Nat}
    {source name : String} {P Q M I : Registry → Prop}
    (hnoted : ∀ r, P r → name ∈ r.files → Q r) (hrefused : ∀ r, P r → I r)
    (hnote : ∀ file, Schema.parse source = .ok file → ∀ r, P r → name ∉ r.files →
      M { r with files := Keyed.insert id name r.files })
    (hmissing : ∀ r, M r → I r)
    (himport : ∀ file, Schema.parse source = .ok file → ∀ path ∈ file.imports, ∀ text,
      available.lookup path = some text →
        Leads (fun r => M r ∧ path ∉ r.files) (loadWithin available fuel text path) (fun _ => M) I)
    (hadd : ∀ file, Schema.parse source = .ok file → Leads M (addFile file) (fun _ => Q) I) :
    Leads P (loadWithin available (fuel + 1) source name) (fun _ => Q) I := by
  rw [loadWithin]
  refine Leads.each fun r hr => Leads.bindGet ?_
  split
  · rename_i hmem
    refine Leads.pure fun s hs => ?_
    rw [hs]
    exact hnoted r hr (List.contains_iff_mem.mp hmem)
  · rename_i hmem
    split
    · refine Leads.throw fun s hs => ?_
      rw [hs]
      exact hrefused r hr
    · rename_i file hparse
      refine Leads.bind (Q := fun _ => M) (Leads.modify fun s hs => ?_) fun _ => ?_
      · rw [hs]
        exact hnote file hparse r hr fun hfound => hmem (List.contains_iff_mem.mpr hfound)
      · exact Leads.bind (leads_imports hmissing (himport file hparse))
          fun _ => (hadd file hparse).adapt

section Loading

variable {I : Registry → Prop}

theorem keeps_importFile_of {file : FileDecl}
    (hnote : ∀ r name, I r → I { r with files := Keyed.insert id name r.files })
    (hadd : Keeps I (addFile file)) (name : Option String) : Keeps I (importFile file name) :=
  leads_importFile_of (fun _ => hadd) (fun _ _ _ hr _ => hr) fun n _ r hr _ =>
    hadd.weaken fun _ hs => hs ▸ hnote r n hr

variable (hnote : ∀ r name, I r → I { r with files := Keyed.insert id name r.files })
  (hadd : ∀ source file, Schema.parse source = .ok file → Keeps I (addFile file))

include hnote hadd

theorem keeps_load_of (source : String) (name : Option String) : Keeps I (load source name) := by
  rw [load]
  split
  · exact Leads.throw fun r hr => hr
  · rename_i file hparse
    exact (keeps_importFile_of hnote (hadd source file hparse) name).adapt

/-- What is kept where a file is noted and where it is added is kept where all files that are
imported are loaded. -/
theorem keeps_loadWithin_of (available : List (String × String)) (fuel : Nat)
    (source name : String) : Keeps I (loadWithin available fuel source name) := by
  induction fuel generalizing source name with
  | zero =>
    rw [loadWithin]
    exact Leads.throw fun r hr => hr
  | succ fuel ih =>
    exact leads_loadWithin_succ (fun _ hr _ => hr) (fun _ hr => hr)
      (fun _ _ r hr _ => hnote r name hr) (fun _ hr => hr)
      (fun _ _ path _ text _ => (ih text path).weaken fun _ hr => hr.1) (hadd source)

end Loading

theorem keeps_importFile {file : FileDecl} (h : strict → file.Textual) (name : Option String) :
    Keeps (Reaches strict r₀) (importFile file name) :=
  keeps_importFile_of (fun _ name hr => hr.step (.note name)) (keeps_addFile h) name

theorem keeps_load (source : String) (name : Option String) :
    Keeps (Reaches strict r₀) (load source name) :=
  keeps_load_of (fun _ name hr => hr.step (.note name))
    (fun _ _ hparse => keeps_addFile fun _ => Schema.textual_of_parse hparse) source name

theorem keeps_loadWithin (available : List (String × String)) (fuel : Nat) (source name : String) :
    Keeps (Reaches strict r₀) (loadWithin available fuel source name) :=
  keeps_loadWithin_of (fun _ name hr => hr.step (.note name))
    (fun _ _ hparse => keeps_addFile fun _ => Schema.textual_of_parse hparse) available fuel source
    name

/-! ### Snapshots -/

theorem keeps_resolveAll (stamp : Nat) : Keeps (Reaches strict r₀) (resolveAll stamp) := by
  refine Leads.each fun r hr => ?_
  rw [resolveAll]
  refine Leads.bindGet ?_
  split
  · exact Leads.pure fun s hs => hs ▸ hr
  · rename_i hresolved
    split
    · exact Leads.throw fun s hs => hs ▸ hr
    · rename_i g hlink
      refine Leads.set fun s hs => hr.step (.freeze stamp ?_ hlink)
      rw [isResolved, Option.not_isSome_iff_eq_none] at hresolved
      exact hresolved

end Registry

end Protobuf

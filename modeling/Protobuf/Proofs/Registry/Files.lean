import Mathlib
import Protobuf.Proofs.Keyed
import Protobuf.Proofs.Registry.Call
import Protobuf.Proofs.Registry.Faithful
import Protobuf.Proofs.Registry.Lookup

/-!
# Files that have been noted

A registry notes the names of the files that are given to it, so as to take each file once. A name
is noted before the imports of its file are followed and before anything of it is added, for
otherwise files that import each other would be followed for ever. So if the file is refused later
on, its name stays, and the file is passed over when it is given again.

All names but those are of files whose definitions have been added as a whole. The exceptions are
known: where a call is refused, they are on the way from the file that was given down to the one
that was refused, each of which imports the next.

## Main definitions

* `Graph.HasFile` — everything that a file defines is in a graph.
* `Registry.Accounted` — all files that have been noted have been added, but for some.
* `Registry.Call.Reads`, `Registry.Call.Own` — the files that a call reads, and the one it is given.

## Main results

* `Registry.leads_addFile_hasFile` — a file that is not refused is added as a whole
* `Registry.accounted_loadWithin` — so are all files that are imported
* `Registry.Built.files_accounted` — what a call makes of the files that are noted
-/

namespace Protobuf

/-- The names on the way from the root to the package of a file. -/
def FileDecl.packageParts (file : FileDecl) : List String :=
  file.package.elim [] fun package => (Path.parts package).filter (· ≠ "")

theorem FileDecl.packageParts_of_some {file : FileDecl} {package : String}
    (h : file.package = some package) :
    file.packageParts = (Path.parts package).filter (· ≠ "") := by
  rw [packageParts, h]
  rfl

theorem FileDecl.packageParts_of_none {file : FileDecl} (h : file.package = none) :
    file.packageParts = [] := by
  rw [packageParts, h]
  rfl

namespace Graph

variable {g g' : Graph}

/-- Everything that the file defines is in the graph, below the package that the file names, each
definition with everything below it. -/
def HasFile (g : Graph) (file : FileDecl) : Prop :=
  ∃ p nodes, g.walk? root file.packageParts = some p ∧ (g.kind p).isPackage ∧
    nodes.Sublist (g.children p) ∧ List.Forall₂ (g.Whole 0) nodes
      (file.definitions.flatMap (Definition.outlines g.settings file.dialect))

/-- A file that is in a graph is in every later one. -/
theorem HasFile.later {file : FileDecl} (h : g.HasFile file) (hlater : g.Becomes g') (hg : g.Tree)
    (hg' : g'.Tree) : g'.HasFile file := by
  obtain ⟨p, nodes, hwalk, hpackage, hnodes, hwhole⟩ := h
  obtain ⟨hwalk', hp⟩ := hlater.walk? hg hg' hg.root.1 hwalk
  refine ⟨p, nodes, hwalk', (hlater.isPackage p hp).trans hpackage,
    hnodes.trans (hlater.listed p hp).sublist, ?_⟩
  rw [hlater.settings]
  exact (hlater.preserves 0).forall₂ hwhole

end Graph

namespace Registry

variable {r s t : Registry}

/-! ### One file -/

/-- The parts of a package have been gone into, one after the other. -/
structure Walked (r : Registry) (names : List String) (s : Registry) : Prop where
  reached : s.Reached
  files : s.files = r.files
  dialect : s.dialect = r.dialect
  walk : s.graph.walk? Graph.root names = some s.current

theorem Walked.enters {names : List String} {name : String} (h : Walked r names s)
    (hname : Path.Plain name) (hne : name ≠ "") (ht : s.Enters name t) :
    Walked r (names ++ [name]) t := by
  have hstanding := h.reached.standing
  cases ht with
  | there hchild hpackage =>
    have hstep : Step False s _ := .descend (List.mem_of_find?_eq_some hchild) hpackage
    refine ⟨h.reached.step hstep, h.files, h.dialect, ?_⟩
    rw [Graph.walk?_concat, h.walk]
    exact hchild
  | @opened id g hchild hadd =>
    have hstep : Step False s _ := .enter hname hne hadd
    obtain ⟨hstanding', hbecomes⟩ := hstanding.step hstep
    refine ⟨h.reached.step hstep, h.files, h.dialect, ?_⟩
    obtain ⟨rfl, hplanted, -⟩ := Graph.grown_of_add hstanding.current.1 hadd
    have hwalk : g.walk? Graph.root names = some s.current :=
      (hbecomes.walk? hstanding.tree hstanding'.tree hstanding.tree.root.1 h.walk).1
    have hparent : g.parent? s.graph.size = some s.current := by
      rw [hplanted.parents, if_pos rfl]
    have hscope : (g.kind s.current).hasScope := by
      rw [(hplanted.like _ (Nat.ne_of_lt hstanding.current.1)).hasScope]
      exact hstanding.current.2
    have hfound := hstanding'.tree.child?_eq_some hparent hscope
    have hname' : g.name s.graph.size = name := by rw [hplanted.names, if_pos rfl]
    show g.walk? Graph.root (names ++ [name]) = some s.graph.size
    rw [Graph.walk?_concat, hwalk, ← hname']
    exact hfound

theorem leads_walk (package : String) {names : List String}
    (hnames : ∀ name ∈ names, Path.Plain name ∧ name ≠ "") (before : List String) :
    Leads (Walked r before) (names.forM (enter package)) (fun _ => Walked r (before ++ names))
      fun s => s.files = r.files := by
  induction names generalizing before with
  | nil =>
    rw [List.append_nil]
    exact Leads.pure fun s hs => hs
  | cons name more ih =>
    obtain ⟨hname, hmore⟩ := List.forall_mem_cons.mp hnames
    show Leads _ (enter package name >>= fun _ => more.forM (enter package)) _ _
    rw [List.append_cons]
    refine Leads.bind (Leads.each fun s hs => ?_) fun _ => ih hmore (before ++ [name])
    refine (leads_enter package name).mono (fun _ t ht => hs.enters hname.1 hname.2 ht)
      fun t ht => ?_
    rw [ht.1]
    exact hs.files

theorem Walked.withOptions {names : List String} (h : Walked r names s) (options : Options) :
    Walked r names (s.withOptions options) := by
  have hstanding := h.reached.standing
  have hstep : Step False s (s.withOptions options) := .options options
  obtain ⟨hstanding', hbecomes⟩ := hstanding.step hstep
  exact ⟨h.reached.step hstep, h.files, h.dialect,
    (hbecomes.walk? hstanding.tree hstanding'.tree hstanding.tree.root.1 h.walk).1⟩

theorem leads_define_walked (package : String) (options : Options) :
    Leads (Walked r []) (define package options)
      (fun _ => Walked r ((Path.parts package).filter (· ≠ ""))) fun s => s.files = r.files := by
  rw [define]
  exact Leads.bind (leads_walk package (fun _ hname => plain_of_mem_names hname) [])
    fun _ => Leads.modify fun s hs => hs.withOptions options

/-- Definitions that are not refused are there as a whole, below the package that has been gone
into. -/
theorem leads_create_hasFile {file : FileDecl} (hdialect : r.dialect = file.dialect) :
    Leads (Walked r file.packageParts) (create file.definitions)
      (fun _ s => s.files = r.files ∧ s.graph.HasFile file) fun s => s.files = r.files := by
  refine Leads.each fun s hs => ?_
  have hstanding := hs.reached.standing
  have hfiles : Leads (· = s) (create file.definitions) (fun _ t => t.files = r.files)
      fun t => t.files = r.files := by
    rintro s rfl
    rw [run_create]
    split <;> rename_i hrun <;> rw [← (Prod.mk.inj hrun).2] <;> exact hs.files
  have hreached : Leads (· = s) (create file.definitions) (fun _ => Reached) Reached :=
    hs.reached.leads fun _ => keeps_create False.elim
  refine ((hfiles.and (hreached.and (hstanding.leads_create file.definitions))).mono
    (fun _ t ht => ⟨ht.1, ?_⟩) fun t ht => ht.1).weaken fun t ht => ⟨ht, ht, ht⟩
  obtain ⟨-, hreached', new, hnew, hwhole⟩ := ht
  have hbecomes := hnew.becomes hstanding.package
  have hwalk :=
    (hbecomes.walk? hstanding.tree hreached'.standing.tree hstanding.tree.root.1 hs.walk).1
  refine ⟨s.current, new, hwalk, (hnew.isPackage hstanding.current.1).trans hstanding.package,
    ?_, ?_⟩
  · rw [hnew.appended]
    exact List.sublist_append_right _ _
  · rw [hnew.settings, ← hdialect, ← hs.dialect]
    exact Graph.forall₂_of_le (Nat.zero_le _) hwhole

/-- A file that is not refused is added as a whole. No file is noted on the way. -/
theorem leads_addFile_hasFile (hr : r.Reached) (file : FileDecl) :
    Leads (· = r) (addFile file) (fun _ s => s.files = r.files ∧ s.graph.HasFile file)
      fun s => s.files = r.files := by
  let start : Registry := { r with dialect := file.dialect, current := Graph.root }
  have hstart : Walked start [] start := ⟨hr.begin file.dialect, rfl, rfl, rfl⟩
  refine leads_addFile_of (B := (· = start)) (M := Walked start file.packageParts)
    (fun s hs => by rw [hs]) (fun package hpackage => ?_) (fun hpackage s hs => ?_)
    ((leads_create_hasFile (r := start) rfl).mono (fun _ s hs => hs) fun s hs => hs)
  · rw [FileDecl.packageParts_of_some hpackage]
    refine (leads_define_walked (r := start) package file.options).weaken fun s hs => ?_
    rw [hs]
    exact hstart
  · rw [FileDecl.packageParts_of_none hpackage, hs]
    exact hstart.withOptions file.options

/-! ### Files that import others -/

theorem mem_note {name other : String} {files : List String} :
    other ∈ Keyed.insert id name files ↔ other = name ∨ other ∈ files := by
  constructor
  · exact Keyed.mem_insert
  · intro h
    have hfound : (Keyed.find? id other (Keyed.insert id name files)).isSome := by
      rw [Keyed.find?_insert]
      split
      · rfl
      · rename_i hne
        exact List.find?_isSome.mpr ⟨other, h.resolve_left (Ne.symm hne), decide_eq_true rfl⟩
    obtain ⟨found, hfound⟩ := Option.isSome_iff_exists.mp hfound
    have hkey : found = other := Keyed.key_of_find? hfound
    rw [← hkey]
    exact Keyed.mem_of_find? hfound

/-- All files that have been noted since `r` have been read and are in the graph, but for those in
`pending`. -/
structure Accounted (reads : String → FileDecl → Prop) (r : Registry) (pending : List String)
    (s : Registry) : Prop where
  reached : s.Reached
  later : r.files ⊆ s.files
  noted : ∀ name ∈ pending, name ∉ r.files ∧ name ∈ s.files
  files : ∀ name ∈ s.files,
    name ∈ r.files ∨ name ∈ pending ∨ ∃ file, reads name file ∧ s.graph.HasFile file

variable {reads : String → FileDecl → Prop} {pending pending' : List String}

theorem accounted_of_files (hs : s.Reached) (hfiles : s.files = r.files) :
    Accounted reads r [] s :=
  ⟨hs, fun _ hname => hfiles ▸ hname, fun _ hname => (List.not_mem_nil hname).elim,
    fun _ hname => .inl (hfiles ▸ hname)⟩

theorem Accounted.congr (h : Accounted reads r pending s)
    (hsame : ∀ name, name ∈ pending ↔ name ∈ pending') : Accounted reads r pending' s :=
  ⟨h.reached, h.later, fun name hname => h.noted name ((hsame name).mpr hname),
    fun name hname => (h.files name hname).imp_right (.imp_left (hsame name).mp)⟩

/-- A file that is noted is pending. -/
theorem Accounted.note (h : Accounted reads r pending s) {name : String} (hname : name ∉ s.files) :
    Accounted reads r (name :: pending) { s with files := Keyed.insert id name s.files } := by
  have hkept : ∀ other ∈ s.files, other ∈ Keyed.insert id name s.files :=
    fun _ hother => mem_note.mpr (.inr hother)
  refine ⟨h.reached.note name, fun other hother => hkept other (h.later hother),
    List.forall_mem_cons.mpr ⟨⟨fun hold => hname (h.later hold), mem_note.mpr (.inl rfl)⟩,
      fun other hother => (h.noted other hother).imp_right (hkept other)⟩, fun other hother => ?_⟩
  rcases mem_note.mp hother with rfl | hother
  · exact .inr (.inl List.mem_cons_self)
  · exact (h.files other hother).imp_right (.imp_left (List.mem_cons_of_mem name))

/-- Files that are accounted for stay so while no more files are noted. -/
theorem Accounted.reaches (h : Accounted reads r pending s) (ht : Reaches False s t)
    (hfiles : t.files = s.files) : Accounted reads r pending t := by
  obtain ⟨settings, hbefore⟩ := h.reached
  have hreached : t.Reached := ⟨settings, Relation.ReflTransGen.trans hbefore ht⟩
  obtain ⟨hstanding, hbecomes⟩ := h.reached.standing.reaches ht
  refine ⟨hreached, hfiles ▸ h.later, hfiles ▸ h.noted, fun name hname => ?_⟩
  refine (h.files name (hfiles ▸ hname)).imp_right (.imp_right fun ⟨file, hread, hhas⟩ => ?_)
  exact ⟨file, hread, hhas.later hbecomes h.reached.standing.tree hstanding.tree⟩

/-- A pending file that is in the graph is no longer pending. -/
theorem Accounted.settle {name : String} {file : FileDecl}
    (h : Accounted reads r (name :: pending) s) (hread : reads name file)
    (hhas : s.graph.HasFile file) : Accounted reads r pending s := by
  refine ⟨h.reached, h.later, (List.forall_mem_cons.mp h.noted).2, fun other hother => ?_⟩
  rcases h.files other hother with hold | hpending | hother
  · exact .inl hold
  · rcases List.mem_cons.mp hpending with rfl | hpending
    · exact .inr (.inr ⟨file, hread, hhas⟩)
    · exact .inr (.inl hpending)
  · exact .inr (.inr hother)

theorem accounted_addFile {name : String} {file : FileDecl} (hread : reads name file) :
    Leads (Accounted reads r (name :: pending)) (addFile file) (fun _ => Accounted reads r pending)
      (Accounted reads r (name :: pending)) := by
  refine Leads.each fun s hs => ?_
  have hreaches : Leads (· = s) (addFile file) (fun _ => Reaches False s) (Reaches False s) :=
    (keeps_addFile False.elim).weaken fun t ht => by rw [ht]; exact .refl s
  refine ((hreaches.and (leads_addFile_hasFile hs.reached file)).mono (fun _ t ht => ?_)
    fun t ht => hs.reaches ht.1 ht.2).weaken fun t ht => ⟨ht, ht⟩
  exact (hs.reaches ht.1 ht.2.1).settle hread ht.2.2

/-- The names lead down from the file that was given, each file importing the next one. -/
def Importers (reads : String → FileDecl → Prop) (given : Option String) (chain : List String) :
    Prop :=
  (∀ first ∈ chain.head?, given = some first) ∧
    chain.IsChain fun a b => ∃ file, reads a file ∧ b ∈ file.imports

theorem importers_nil (given : Option String) : Importers reads given [] :=
  ⟨fun _ hfirst => (by cases hfirst), .nil⟩

theorem importers_singleton (name : String) : Importers reads (some name) [name] :=
  ⟨fun _ hfirst => hfirst, .singleton name⟩

theorem Importers.cons {name path : String} {file : FileDecl} {chain : List String}
    (h : Importers reads (some path) chain) (hread : reads name file)
    (himport : path ∈ file.imports) : Importers reads (some name) (name :: chain) := by
  refine ⟨fun _ hfirst => hfirst, List.isChain_cons.mpr ⟨fun next hnext => ?_, h.2⟩⟩
  rw [← Option.some.inj (h.1 next hnext)]
  exact ⟨file, hread, himport⟩

/-- Where a file is refused, all files are accounted for but those that led to it. -/
def RefusedBelow (reads : String → FileDecl → Prop) (r : Registry) (pending : List String)
    (given : Option String) (s : Registry) : Prop :=
  ∃ chain, Importers reads given chain ∧ Accounted reads r (chain ++ pending) s

theorem Accounted.refused (h : Accounted reads r pending s) (given : Option String) :
    RefusedBelow reads r pending given s :=
  ⟨[], importers_nil given, h⟩

theorem Accounted.refused_self {name : String} (h : Accounted reads r (name :: pending) s) :
    RefusedBelow reads r pending (some name) s :=
  ⟨[name], importers_singleton name, h⟩

theorem accounted_importFile (hr : r.Reached) {file : FileDecl} {name : Option String}
    (hread : ∀ n, name = some n → reads n file) :
    Leads (· = r) (importFile file name) (fun _ => Accounted reads r [])
      (RefusedBelow reads r [] name) := by
  have hstart : Accounted reads r [] r := accounted_of_files hr rfl
  refine leads_importFile_of (fun hnone => ?_) (fun _ _ s hs _ => ?_) fun n hn s hs hnew => ?_
  · have hreached : Leads (· = r) (addFile file) (fun _ => Reached) Reached :=
      hr.leads fun _ => keeps_addFile False.elim
    refine ((hreached.and (leads_addFile_hasFile hr file)).mono (fun _ s hs => ?_)
      fun s hs => ?_).weaken fun s hs => ⟨hs, hs⟩
    · exact accounted_of_files hs.1 hs.2.1
    · exact (accounted_of_files hs.1 hs.2).refused name
  · rw [hs]
    exact hstart
  · refine ((accounted_addFile (hread n hn)).mono (fun _ t ht => ht)
      fun t ht => hn ▸ ht.refused_self).weaken fun t ht => ?_
    rw [hs] at hnew ht
    rw [ht]
    exact hstart.note hnew

/-- From when its name is noted until it has been added, a file is pending. So are those that led to
it, from the file `given` on, and no others. -/
theorem accounted_loadWithin {available : List (String × String)} {given : String}
    (havailable : ∀ path ≠ given, ∀ text file, available.lookup path = some text →
      Schema.parse text = .ok file → reads path file) (fuel : Nat) (source name : String)
    (hsource : ∀ file, Schema.parse source = .ok file → reads name file) (pending : List String)
    (hgiven : given ∈ name :: pending) :
    Leads (Accounted reads r pending) (loadWithin available fuel source name)
      (fun _ => Accounted reads r pending) (RefusedBelow reads r pending (some name)) := by
  induction fuel generalizing source name pending with
  | zero =>
    rw [loadWithin]
    exact Leads.throw fun s hs => hs.refused _
  | succ fuel ih =>
    refine leads_loadWithin_succ (M := Accounted reads r (name :: pending)) (fun s hs _ => hs)
      (fun s hs => hs.refused _) (fun _ _ s hs hnew => hs.note hnew) (fun s hs => hs.refused_self)
      (fun file hparse path hpath text htext => Leads.each fun s hs => ?_) fun file hparse =>
        (accounted_addFile (hsource file hparse)).mono (fun _ s hs => hs) fun s hs => hs.refused_self
    -- the first file has been noted, so it is none of the imports that are loaded
    have hpath' : path ≠ given := by
      rintro rfl
      exact hs.2 (hs.1.noted path hgiven).2
    refine ((ih text path (fun f hf => havailable path hpath' text f htext hf) (name :: pending)
      (List.mem_cons_of_mem path hgiven)).mono (fun _ t ht => ht) fun t ht => ?_).weaken
        fun t ht => by rw [ht]; exact hs.1
    obtain ⟨chain, hchain, ht⟩ := ht
    exact ⟨name :: chain, hchain.cons (hsource file hparse) hpath, ht.congr fun other => by
      simp only [List.mem_append, List.mem_cons]; tauto⟩

/-- A file is in the graph after it has been loaded, unless its name had been noted. -/
theorem leads_loadWithin_hasFile (hr : r.Reached) (available : List (String × String))
    (fuel : Nat) (source name : String) :
    Leads (· = r) (loadWithin available fuel source name)
      (fun _ s => name ∈ r.files ∨ ∃ file, Schema.parse source = .ok file ∧ s.graph.HasFile file)
      fun _ => True := by
  cases fuel with
  | zero =>
    rw [loadWithin]
    exact Leads.throw fun s hs => trivial
  | succ fuel =>
    refine leads_loadWithin_succ (M := Reached) (fun s hs hmem => ?_) (fun _ _ => trivial)
      (fun _ _ s hs _ => ?_) (fun _ _ => trivial) (fun _ _ path _ text _ => ?_)
      fun file hparse => Leads.each fun s hs => ?_
    · rw [hs] at hmem
      exact .inl hmem
    · rw [hs]
      exact hr.note name
    · exact ((keeps_reached fun _ => keeps_loadWithin available fuel text path).mono
        (fun _ s hs => hs) fun _ _ => trivial).weaken fun s hs => hs.1
    · exact (leads_addFile_hasFile hs file).mono (fun _ t ht => .inr ⟨file, hparse, ht.2⟩)
        fun _ _ => trivial

/-- Where an import is not available nothing of the file is added, but its name has been noted. -/
theorem leads_loadWithin_of_missing {available : List (String × String)} {source name : String}
    {file : FileDecl} {path : String} {more : List String} (hparse : Schema.parse source = .ok file)
    (himports : file.imports = path :: more) (hname : name ∉ r.files)
    (hpath : path ∉ Keyed.insert id name r.files) (hdescriptor : path ≠ descriptorFile)
    (hmissing : available.lookup path = none) (fuel : Nat) :
    Leads (· = r) (loadWithin available (fuel + 1) source name) (fun _ _ => False)
      (· = { r with files := Keyed.insert id name r.files }) := by
  rw [loadWithin]
  refine Leads.bindGet ?_
  rw [if_neg (mt List.contains_iff_mem.mp hname), hparse]
  refine Leads.bind (Q := fun _ s => s = { r with files := Keyed.insert id name r.files })
    (Leads.modify fun s hs => by rw [hs]) fun _ => ?_
  rw [himports]
  refine Leads.bind (Q := fun _ _ => False) (Leads.bind (Q := fun _ _ => False)
    (Leads.bindGet ?_) fun _ _ hs => hs.elim) fun _ _ hs => hs.elim
  rw [if_neg (not_or.mpr ⟨hdescriptor, mt List.contains_iff_mem.mp hpath⟩), hmissing]
  exact Leads.throw fun s hs => hs

/-! ### Calls -/

/-- The name of the file that a call is given. -/
def Call.name? : Call → Option String
  | .importFile _ name => name
  | .load _ name => name
  | .loadWith _ _ name => some name
  | _ => none

/-- The file that a call is given, if its text can be read. -/
def Call.source? : Call → Option (Except Schema.ParseError FileDecl)
  | .importFile file _ => some (.ok file)
  | .load source _ => some (Schema.parse source)
  | .loadWith _ source _ => some (Schema.parse source)
  | _ => none

/-- The call reads the file under this name: it is given it, or has it at hand for imports. -/
def Call.Reads (call : Call) (name : String) (file : FileDecl) : Prop :=
  (call.name? = some name ∧ call.source? = some (.ok file)) ∨
    ∃ available source given text, call = .loadWith available source given ∧ name ≠ given ∧
      available.lookup name = some text ∧ Schema.parse text = .ok file

theorem keeps_files_define (files : List String) (package : String) (options : Options) :
    Keeps (fun s : Registry => s.files = files) (define package options) := by
  refine leads_define_of (fun _ _ _ s t hs ht => ?_) (fun _ hs => hs) fun _ hs => hs
  cases ht with
  | there => exact hs
  | opened => exact hs

theorem keeps_files_create (files : List String) (definitions : List Definition) :
    Keeps (fun s : Registry => s.files = files) (create definitions) := by
  intro s hs
  rw [run_create]
  split <;> rename_i hrun <;> rw [← (Prod.mk.inj hrun).2] <;> exact hs

/-- Calls that are given no file note none. -/
theorem Call.leads_files {call : Call} (h : call.source? = none) :
    Leads (· = r) call.edit (fun _ s => s.files = r.files) fun s => s.files = r.files := by
  cases call with
  | define package options =>
    exact ((keeps_files_define r.files package options).weaken fun s hs => by rw [hs]).adapt
  | create definitions =>
    exact ((keeps_files_create r.files definitions).weaken fun s hs => by rw [hs]).adapt
  | reset => exact Leads.modify fun s hs => by rw [hs]
  | resolveAll stamp =>
    show Leads _ (Registry.resolveAll stamp) _ _
    rw [Registry.resolveAll]
    refine Leads.bindGet ?_
    split
    · exact Leads.pure fun s hs => by rw [hs]
    · split
      · exact Leads.throw fun s hs => by rw [hs]
      · exact Leads.set fun s hs => rfl
  | importFile file name => cases h
  | load source name => cases h
  | loadWith available source name => cases h

theorem Call.accounted (hr : r.Reached) (call : Call) :
    Leads (· = r) call.edit (fun _ => Accounted call.Reads r [])
      (RefusedBelow call.Reads r [] call.name?) := by
  cases call with
  | importFile file name =>
    exact (accounted_importFile hr fun n hn => .inl ⟨hn, rfl⟩).adapt
  | load source name =>
    show Leads _ (Registry.load source name) _ _
    rw [Registry.load]
    split
    · exact Leads.throw fun s hs => by rw [hs]; exact (accounted_of_files hr rfl).refused _
    · rename_i file hparse
      exact (accounted_importFile hr fun n hn => .inl ⟨hn, congrArg some hparse⟩).adapt
  | loadWith available source name =>
    refine (accounted_loadWithin (fun path hpath text file htext hparse => ?_) _
      source name (fun file hparse => ?_) [] List.mem_cons_self).weaken
        fun s hs => by rw [hs]; exact accounted_of_files hr rfl
    · exact .inr ⟨available, source, name, text, rfl, hpath, htext, hparse⟩
    · exact .inl ⟨rfl, congrArg some hparse⟩
  | _ =>
    exact (((Call.leads_files rfl).and (hr.leads fun _ => Call.keeps _)).mono
      (fun _ s hs => accounted_of_files hs.2 hs.1)
      fun s hs => (accounted_of_files hs.2 hs.1).refused _).weaken fun s hs => ⟨hs, hs⟩

/-- A file has been added after it is imported, or had been noted before. -/
theorem leads_importFile_hasFile (hr : r.Reached) (file : FileDecl) (name : Option String) :
    Leads (· = r) (importFile file name)
      (fun _ s => (∃ n, name = some n ∧ n ∈ r.files) ∨ s.graph.HasFile file) fun _ => True := by
  have hadd : ∀ {s : Registry}, s.Reached → Leads (· = s) (addFile file)
      (fun _ t => (∃ n, name = some n ∧ n ∈ r.files) ∨ t.graph.HasFile file) fun _ => True :=
    fun hs => (leads_addFile_hasFile hs file).mono (fun _ t ht => .inr ht.2) fun _ _ => trivial
  refine leads_importFile_of (fun _ => hadd hr) (fun n hn s hs hmem => ?_) fun n _ s hs _ => ?_
  · rw [hs] at hmem
    exact .inl ⟨n, hn, hmem⟩
  · rw [hs]
    exact hadd (hr.note n)

/-- Whatever a call has noted, the file that it is given has been read and added, or had been noted
before, if the call is not refused. -/
theorem Call.leads_hasFile (hr : r.Reached) {call : Call}
    {source : Except Schema.ParseError FileDecl} (hsource : call.source? = some source) :
    Leads (· = r) call.edit (fun _ s => (∃ name, call.name? = some name ∧ name ∈ r.files) ∨
      ∃ file, source = .ok file ∧ s.graph.HasFile file) fun _ => True := by
  cases call with
  | importFile file name =>
    cases hsource
    exact ((leads_importFile_hasFile hr file name).mono
      (fun _ s hs => hs.imp_right fun h => ⟨file, rfl, h⟩) fun s hs => trivial).adapt
  | load text name =>
    cases hsource
    show Leads _ (Registry.load text name) _ _
    rw [Registry.load]
    split
    · exact Leads.throw fun s hs => trivial
    · rename_i file hparse
      exact ((leads_importFile_hasFile hr file name).mono
        (fun _ s hs => hs.imp_right fun h => ⟨file, hparse, h⟩) fun s hs => trivial).adapt
  | loadWith available text name =>
    cases hsource
    exact (leads_loadWithin_hasFile hr available _ text name).mono
      (fun _ s hs => hs.imp_left fun h => ⟨name, rfl, h⟩) fun s hs => trivial
  | _ => cases hsource

/-- A file whose name has been noted is passed over, if not refused because it cannot be read. -/
theorem Call.run_of_noted {call : Call} {name : String} (hname : call.name? = some name)
    (hnoted : name ∈ r.files) {source : Except Schema.ParseError FileDecl}
    (hsource : call.source? = some source) :
    (ExceptT.run call.edit).run r = (.ok (), r) ∨
      ∃ e, source = .error e ∧ (ExceptT.run call.edit).run r = (.error (.parse e), r) := by
  have hcontains : r.files.contains name = true := List.contains_iff_mem.mpr hnoted
  have himport : ∀ file, Leads (· = r) (asSchemaEdit (Registry.importFile file (some name)))
      (fun _ s => s = r) fun _ => False := by
    intro file
    rw [Registry.importFile]
    refine Leads.adapt (Leads.bindGet ?_)
    rw [if_pos hcontains]
    exact Leads.pure fun s hs => hs
  cases call with
  | importFile file _ =>
    cases hname
    exact .inl (himport file).run_eq
  | load text _ =>
    cases hname
    cases hsource
    rw [Call.edit, Registry.load]
    cases Schema.parse text with
    | error e => exact .inr ⟨e, rfl, rfl⟩
    | ok file => exact .inl (himport file).run_eq
  | loadWith available text _ =>
    cases hname
    refine .inl (Leads.run_eq ?_)
    rw [Call.edit, Registry.loadWith, Registry.loadWithin]
    refine Leads.bindGet ?_
    rw [if_pos hcontains]
    exact Leads.pure fun s hs => hs
  | _ => cases hname

/-- The call on the way to a registry by which a file has been noted. -/
structure Noting (r : Registry) (name : String) where
  before : Registry
  call : Call
  built : before.Built
  new : name ∉ before.files
  noted : name ∈ (before.after call.edit).files
  later : Reaches False (before.after call.edit) r

/-- The call was refused at the file or below it: the file is one of those, all of them noted by the
call, that lead from the one that the call was given down to the one that was refused. -/
def Noting.Refused {name : String} (c : r.Noting name) : Prop :=
  (∃ e, ((ExceptT.run c.call.edit).run c.before).1 = .error e) ∧
    ∃ chain, name ∈ chain ∧ Importers c.call.Reads c.call.name? chain ∧
      ∀ other ∈ chain, other ∉ c.before.files ∧ other ∈ (c.before.after c.call.edit).files

theorem exists_noting (h : r.Built) {name : String} (hname : name ∈ r.files) :
    ∃ c : r.Noting name, c.Refused ∨ ∃ file, c.call.Reads name file ∧ r.graph.HasFile file := by
  refine Built.byCalls (P := fun r => name ∈ r.files → ∃ c : r.Noting name,
    c.Refused ∨ ∃ file, c.call.Reads name file ∧ r.graph.HasFile file) h ?_ ?_ hname
  · intro settings hname
    cases hname
  · intro r h ih call hname
    by_cases hold : name ∈ r.files
    · obtain ⟨c, hc⟩ := ih hold
      have hreaches : Reaches False r (r.after call.edit) := (call.keeps).left (.refl r)
      obtain ⟨hstanding, hbecomes⟩ := h.reached.standing.reaches hreaches
      refine ⟨{ c with later := Relation.ReflTransGen.trans c.later hreaches },
        hc.imp_right fun ⟨file, hread, hhas⟩ => ⟨file, hread, ?_⟩⟩
      exact hhas.later hbecomes h.reached.standing.tree hstanding.tree
    · let c : (r.after call.edit).Noting name := ⟨r, call, h, hold, hname, .refl _⟩
      refine ⟨c, ?_⟩
      rcases (call.accounted h.reached).outcome rfl with
        ⟨a, -, hfiles⟩ | ⟨e, he, chain, hchain, hfiles⟩
      · rcases hfiles.files name hname with hmem | hmem | hfile
        · exact absurd hmem hold
        · cases hmem
        · exact .inr hfile
      · rw [List.append_nil] at hfiles
        rcases hfiles.files name hname with hmem | hmem | hfile
        · exact absurd hmem hold
        · exact .inl ⟨⟨e, he⟩, chain, hmem, hchain, hfiles.noted⟩
        · exact .inr hfile

/-- What is known of the files that have been noted. Such a file is in the graph as a whole, unless
the call that noted it was refused at it or below it. A file is never passed over unless its name
has been noted, and always if it has, whatever has become of the file that it was noted for. -/
theorem Built.files_accounted (h : r.Built) :
    (∀ name ∈ r.files, ∃ c : r.Noting name,
      c.Refused ∨ ∃ file, c.call.Reads name file ∧ r.graph.HasFile file) ∧
    ∀ (call : Call) (source : Except Schema.ParseError FileDecl), call.source? = some source →
      (((ExceptT.run call.edit).run r).1 = .ok () →
        (∃ name, call.name? = some name ∧ name ∈ r.files) ∨
          ∃ file, source = .ok file ∧ (r.after call.edit).graph.HasFile file) ∧
      ∀ name, call.name? = some name → name ∈ r.files →
        (ExceptT.run call.edit).run r = (.ok (), r) ∨
          ∃ e, source = .error e ∧ (ExceptT.run call.edit).run r = (.error (.parse e), r) := by
  refine ⟨fun name hname => exists_noting h hname, fun call source hsource => ⟨fun hok => ?_,
    fun name hname hnoted => Call.run_of_noted hname hnoted hsource⟩⟩
  rcases (Call.leads_hasFile h.reached hsource).outcome rfl with ⟨a, -, hs⟩ | ⟨e, he, -⟩
  · exact hs
  · rw [hok] at he
    cases he

/-- A file that imports another one. -/
def importing : String :=
  "import \"nope.proto\"; message M {}"

/-- The registry after such a file was refused because the other one was not available. -/
def orphaned : Registry :=
  (empty {}).after (loadWith [] importing "x.proto")

theorem refused_orphaned :
    (∃ e, ((ExceptT.run (loadWith [] importing "x.proto")).run (empty {})).1 = .error e) ∧
      orphaned = { empty {} with files := ["x.proto"] } := by
  have himports : (Schema.parse importing).toOption.map FileDecl.imports = some ["nope.proto"] := by
    cbv
  cases hparse : Schema.parse importing with
  | error e =>
    rw [hparse] at himports
    cases himports
  | ok file =>
    rw [hparse] at himports
    have hfiles : (empty {}).files = [] := rfl
    have hleads : Leads (· = empty {}) (loadWith [] importing "x.proto") (fun _ _ => False)
        (· = { empty {} with files := ["x.proto"] }) :=
      leads_loadWithin_of_missing hparse (Option.some.inj himports) (by rw [hfiles]; simp)
        (by rw [hfiles]; decide) (by decide) rfl 0
    rcases hleads.outcome rfl with ⟨-, -, hfalse⟩ | ⟨e, he, hafter⟩
    · exact hfalse.elim
    · exact ⟨⟨e, he⟩, hafter⟩

/-- The name is passed over when a file that needs no other one is given under it. Under another
name the file is read and added. -/
theorem files_accounted_orphaned :
    (ExceptT.run (Call.load "message M {}" (some "x.proto")).edit).run orphaned =
        (.ok (), orphaned) ∧
      ∃ file, Schema.parse "message M {}" = .ok file ∧
        (orphaned.after (Call.load "message M {}" (some "y.proto")).edit).graph.HasFile file := by
  have hbuilt : orphaned.Built := .loadWith (.empty {}) [] importing "x.proto"
  obtain ⟨-, hcalls⟩ := hbuilt.files_accounted
  refine ⟨?_, ?_⟩
  · have hparse : (Schema.parse "message M {}").isOk = true := by cbv
    have hnoted : "x.proto" ∈ orphaned.files := by
      rw [refused_orphaned.2]
      exact List.mem_cons_self
    rcases (hcalls (.load "message M {}" (some "x.proto")) _ rfl).2 "x.proto" rfl hnoted with
      hover | ⟨e, he, -⟩
    · exact hover
    · rw [he] at hparse
      cases hparse
  · refine ((hcalls (.load "message M {}" (some "y.proto")) _ rfl).1 ?_).resolve_left ?_
    · rw [refused_orphaned.2]
      cbv
    · rintro ⟨name, hname, hmem⟩
      cases hname
      rw [refused_orphaned.2] at hmem
      exact absurd (List.mem_singleton.mp hmem) (by decide)

/-- After a file was refused its name stays, so it is passed over when all that it needs is there,
and nothing of it is ever added. -/
theorem loadWith_passedOver :
    let again := loadWith [("nope.proto", "message N {}")] importing "x.proto"
    (∃ e, ((ExceptT.run (loadWith [] importing "x.proto")).run (empty {})).1 = .error e) ∧
      orphaned.files = ["x.proto"] ∧ ((ExceptT.run again).run orphaned).1.toOption = some () ∧
      (orphaned.after again).files = ["x.proto"] ∧
      (orphaned.after again).graph.lookup? "M" = none := by
  refine ⟨refused_orphaned.1, ?_⟩
  rw [refused_orphaned.2]
  refine ⟨rfl, ?_, ?_, ?_⟩
  · cbv
  · cbv
  · cbv

end Registry

end Protobuf

import Mathlib
import Protobuf.Proofs.Registry.Files

/-!
# Files that import others

A file is loaded by noting its name, following its imports and adding it. The program follows
imports to a depth that is bounded by the number of files that are available. Here the bound is
shown not to matter: what loading does is given by rules that know of no bound, so each run of the
program is a finite tree of calls, however the files import each other.

The trace of a run says which files are noted and added, in this order. From the rules it is read
off that the files that are needed are noted, and no others, that each is added once, and that it
is added after those that it imports. A file that leads back to itself makes an exception: it has
been noted, but it is added later.

## Main definitions

* `Registry.Loads` — the rules of loading.
* `Registry.Needed` — the files that imports lead to.
* `Registry.Complete` — what a run has done that was not refused.

## Main results

* `Registry.exists_loads` — there is always a run by the rules
* `Registry.Loads.complete` — what such a run has done
* `Registry.loadWith_complete` — what loading a file does
-/

namespace Protobuf

namespace Registry

variable {r s t : Registry} {available : List (String × String)} {texts : String → Option String}

/-! ### The rules -/

/-- A thing that is done to a registry while files are loaded. -/
inductive Loading
  | noted (path : String)
  | added (path : String) (file : FileDecl)

/-- The action itself. -/
def Loading.edit : Loading → RegistryEdit SchemaError Unit
  | .noted path => modify fun r => { r with files := Keyed.insert id path r.files }
  | .added _ file => asSchemaEdit (addFile file)

/-- The files that are noted, in order. -/
def notedPaths (trace : List Loading) : List String :=
  trace.filterMap fun
    | .noted path => some path
    | .added _ _ => none

/-- The files that are added, in order. -/
def addedPaths (trace : List Loading) : List String :=
  trace.filterMap fun
    | .noted _ => none
    | .added path _ => some path

@[simp] theorem notedPaths_append (trace trace' : List Loading) :
    notedPaths (trace ++ trace') = notedPaths trace ++ notedPaths trace' :=
  List.filterMap_append

@[simp] theorem addedPaths_append (trace trace' : List Loading) :
    addedPaths (trace ++ trace') = addedPaths trace ++ addedPaths trace' :=
  List.filterMap_append

@[simp] theorem notedPaths_nil : notedPaths [] = [] :=
  rfl

@[simp] theorem addedPaths_nil : addedPaths [] = [] :=
  rfl

@[simp] theorem notedPaths_noted (path : String) (trace : List Loading) :
    notedPaths (.noted path :: trace) = path :: notedPaths trace :=
  rfl

@[simp] theorem addedPaths_noted (path : String) (trace : List Loading) :
    addedPaths (.noted path :: trace) = addedPaths trace :=
  rfl

@[simp] theorem notedPaths_added (path : String) (file : FileDecl) (trace : List Loading) :
    notedPaths (.added path file :: trace) = notedPaths trace :=
  rfl

@[simp] theorem addedPaths_added (path : String) (file : FileDecl) (trace : List Loading) :
    addedPaths (.added path file :: trace) = path :: addedPaths trace :=
  rfl

theorem notedPaths_whole (path : String) (file : FileDecl) (trace : List Loading) :
    notedPaths (.noted path :: trace ++ [.added path file]) = path :: notedPaths trace := by
  simp

theorem addedPaths_whole (path : String) (file : FileDecl) (trace : List Loading) :
    addedPaths (.noted path :: trace ++ [.added path file]) = addedPaths trace ++ [path] := by
  simp

theorem exists_added {path : String} {trace : List Loading} (h : path ∈ addedPaths trace) :
    ∃ before file after, trace = before ++ .added path file :: after := by
  obtain ⟨step, hstep, hpath⟩ := List.mem_filterMap.mp h
  cases step with
  | noted _ => cases hpath
  | added _ file =>
    cases hpath
    obtain ⟨before, after, hsplit⟩ := List.append_of_mem hstep
    exact ⟨before, file, after, hsplit⟩

/-- The texts of the files. The one that is loaded first is given with its text. -/
def textOf (available : List (String × String)) (source name path : String) : Option String :=
  if path = name then some source else available.lookup path

/-- What there is to load: one file, or the files that are imported by one. -/
inductive LoadTask
  | file (path : String)
  | imports (importer : String) (paths : List String)

/-- The registry once the name of a file has been noted. -/
def note (r : Registry) (path : String) : Registry :=
  { r with files := Keyed.insert id path r.files }

/-- How files are loaded, step by step: what is done, and how it ends. -/
inductive Loads (texts : String → Option String) : LoadTask → Registry → List Loading →
    Except SchemaError Unit × Registry → Prop
  | known {r path} (h : path ∈ r.files) : Loads texts (.file path) r [] (.ok (), r)
  | unreadable {r path text e} (h : path ∉ r.files) (htext : texts path = some text)
      (hparse : Schema.parse text = .error e) :
      Loads texts (.file path) r [] (.error (.parse e), r)
  | blocked {r s path text file e trace} (h : path ∉ r.files) (htext : texts path = some text)
      (hparse : Schema.parse text = .ok file)
      (himports : Loads texts (.imports path file.imports) (r.note path) trace (.error e, s)) :
      Loads texts (.file path) r (.noted path :: trace) (.error e, s)
  | added {r s path text file trace} (h : path ∉ r.files) (htext : texts path = some text)
      (hparse : Schema.parse text = .ok file)
      (himports : Loads texts (.imports path file.imports) (r.note path) trace (.ok (), s)) :
      Loads texts (.file path) r (.noted path :: trace ++ [.added path file])
        ((ExceptT.run (asSchemaEdit (addFile file))).run s)
  | done {r importer} : Loads texts (.imports importer []) r [] (.ok (), r)
  | skipped {r importer path more trace out} (h : path = descriptorFile ∨ path ∈ r.files)
      (hmore : Loads texts (.imports importer more) r trace out) :
      Loads texts (.imports importer (path :: more)) r trace out
  | missing {r importer path more} (hnew : path ≠ descriptorFile ∧ path ∉ r.files)
      (htext : texts path = none) :
      Loads texts (.imports importer (path :: more)) r [] (.error (.importMissing path importer), r)
  | stopped {r s importer path more e trace} (hnew : path ≠ descriptorFile ∧ path ∉ r.files)
      (hfirst : Loads texts (.file path) r trace (.error e, s)) :
      Loads texts (.imports importer (path :: more)) r trace (.error e, s)
  | next {r s importer path more trace trace' out}
      (hnew : path ≠ descriptorFile ∧ path ∉ r.files)
      (hfirst : Loads texts (.file path) r trace (.ok (), s))
      (hmore : Loads texts (.imports importer more) s trace' out) :
      Loads texts (.imports importer (path :: more)) r (trace ++ trace') out

/-! ### The names of files -/

theorem keeps_files_addFile (files : List String) (file : FileDecl) :
    Keeps (fun s : Registry => s.files = files) (addFile file) :=
  leads_addFile_of (fun _ hs => hs) (fun package _ => keeps_files_define files package file.options)
    (fun _ _ hs => hs) (keeps_files_create files file.definitions)

theorem mem_files_note {path other : String} :
    other ∈ (r.note path).files ↔ other = path ∨ other ∈ r.files :=
  mem_note

section Runs

variable {task : LoadTask} {trace : List Loading} {out : Except SchemaError Unit × Registry}

/-- The files that are noted in a run are added to those of the registry. -/
theorem Loads.mem_files (h : Loads texts task r trace out) (path : String) :
    path ∈ out.2.files ↔ path ∈ r.files ∨ path ∈ notedPaths trace := by
  induction h with
  | known | unreadable | done | missing => simp
  | blocked _ _ _ _ ih =>
    rw [ih, mem_files_note, notedPaths_noted, List.mem_cons, or_left_comm, or_assoc]
  | @added r s first text file trace _ _ _ _ ih =>
    have hfiles : ((ExceptT.run (asSchemaEdit (addFile file))).run s).2.files = s.files :=
      ((keeps_files_addFile s.files file).adapt).left rfl
    rw [hfiles, ih, mem_files_note, notedPaths_whole, List.mem_cons, or_left_comm, or_assoc]
  | skipped _ _ ih => exact ih
  | stopped _ _ ih => exact ih
  | next _ _ _ ih ih' => rw [ih', ih, notedPaths_append, List.mem_append, or_assoc]

/-- No file is noted that has been noted before. -/
theorem Loads.noted_nodup (h : Loads texts task r trace out) :
    (notedPaths trace).Nodup ∧ ∀ path ∈ notedPaths trace, path ∉ r.files := by
  have hnote : ∀ {r : Registry} {first : String} {trace : List Loading}, first ∉ r.files →
      ((notedPaths trace).Nodup ∧ ∀ path ∈ notedPaths trace, path ∉ (r.note first).files) →
      (first :: notedPaths trace).Nodup ∧ ∀ path ∈ first :: notedPaths trace, path ∉ r.files := by
    intro r first trace hnew ⟨hnodup, hmore⟩
    refine ⟨List.nodup_cons.mpr ⟨fun hmem => hmore first hmem (mem_files_note.mpr (.inl rfl)),
      hnodup⟩, List.forall_mem_cons.mpr ⟨hnew, fun path hpath hold => ?_⟩⟩
    exact hmore path hpath (mem_files_note.mpr (.inr hold))
  induction h with
  | known | unreadable | done | missing => simp
  | blocked hnew _ _ _ ih => exact hnote hnew ih
  | added hnew _ _ _ ih =>
    rw [notedPaths_whole]
    exact hnote hnew ih
  | skipped _ _ ih => exact ih
  | stopped _ _ ih => exact ih
  | next _ hfirst _ ih ih' =>
    rw [notedPaths_append]
    refine ⟨List.nodup_append.mpr ⟨ih.1, ih'.1, fun path hpath other hother heq => ?_⟩,
      fun path hpath => ?_⟩
    · exact ih'.2 other hother ((hfirst.mem_files other).mpr (.inr (heq ▸ hpath)))
    · rcases List.mem_append.mp hpath with hpath | hpath
      · exact ih.2 path hpath
      · exact fun hold => ih'.2 path hpath ((hfirst.mem_files path).mpr (.inl hold))

/-- Each file that is noted is added once, unless the run is refused. -/
theorem Loads.added_perm (h : Loads texts task r trace out) (hok : out.1 = .ok ()) :
    (addedPaths trace).Perm (notedPaths trace) := by
  induction h with
  | known | done => simp
  | unreadable | blocked | missing | stopped => cases hok
  | added _ _ _ _ ih =>
    rw [addedPaths_whole, notedPaths_whole]
    exact List.perm_append_singleton _ _ |>.trans ((ih rfl).cons _)
  | skipped _ _ ih => exact ih hok
  | next _ _ _ ih ih' =>
    rw [addedPaths_append, notedPaths_append]
    exact (ih rfl).append (ih' hok)

/-- What is done in a run that is not refused is what its trace says. -/
theorem Loads.replay (h : Loads texts task r trace out) (hok : out.1 = .ok ()) :
    (ExceptT.run (trace.forM Loading.edit)).run r = out := by
  have happend : ∀ {r s : Registry} {trace trace' : List Loading},
      (ExceptT.run (trace.forM Loading.edit)).run r = (.ok (), s) →
      (ExceptT.run ((trace ++ trace').forM Loading.edit)).run r =
        (ExceptT.run (trace'.forM Loading.edit)).run s := by
    intro r s trace trace' hrun
    have hsplit : (trace ++ trace').forM Loading.edit =
        trace.forM Loading.edit >>= fun _ => trace'.forM Loading.edit := List.forM_append
    rw [hsplit, run_bind_eq, hrun]
  induction h with
  | known | done => rfl
  | unreadable | blocked | missing | stopped => cases hok
  | @added r s path text file trace _ _ _ _ ih =>
    show (ExceptT.run ((trace ++ [Loading.added path file]).forM Loading.edit)).run
      (r.note path) = _
    rw [happend (ih rfl)]
    show (ExceptT.run (asSchemaEdit (addFile file) >>= fun _ => pure ())).run s = _
    rw [run_bind_eq]
    split
    · rename_i hrun
      rw [hrun]
      rfl
    · rename_i hrun
      rw [hrun]
  | skipped _ _ ih => exact ih hok
  | next _ _ _ ih ih' => rw [happend (ih rfl), ih' hok]

/-- The file under this path, if its text can be read. -/
def Reads (texts : String → Option String) (path : String) (file : FileDecl) : Prop :=
  ∃ text, texts path = some text ∧ Schema.parse text = .ok file

/-- The file under a path imports another one that is followed. -/
def Imports (texts : String → Option String) (path imported : String) : Prop :=
  ∃ file, Reads texts path file ∧ imported ∈ file.imports ∧ imported ≠ descriptorFile

/-- Imports lead from one file to another one. Files that are known are not looked into. -/
def Needed (texts : String → Option String) (known : List String) : String → String → Prop :=
  Relation.ReflTransGen fun path imported => path ∉ known ∧ Imports texts path imported

theorem Needed.mono {known known' : List String} {root path : String}
    (h : Needed texts known' root path) (hsub : known ⊆ known') : Needed texts known root path :=
  Relation.ReflTransGen.mono (fun _ _ hstep => ⟨fun hmem => hstep.1 (hsub hmem), hstep.2⟩) _ _ h

/-- A file that a task begins with. -/
def LoadTask.Begins : LoadTask → String → Prop
  | .file path, root => root = path
  | .imports _ paths, root => root ∈ paths ∧ root ≠ descriptorFile

/-- Only files that are needed are noted. -/
theorem Loads.needed (h : Loads texts task r trace out) :
    ∀ path ∈ notedPaths trace, ∃ root, task.Begins root ∧ Needed texts r.files root path := by
  have hfile : ∀ {r : Registry} {first text : String} {file : FileDecl} {trace : List Loading},
      first ∉ r.files → texts first = some text → Schema.parse text = .ok file →
      (∀ path ∈ notedPaths trace, ∃ root, (LoadTask.imports first file.imports).Begins root ∧
        Needed texts (r.note first).files root path) →
      ∀ path ∈ first :: notedPaths trace, Needed texts r.files first path := by
    intro r first text file trace hnew htext hparse hmore path hpath
    rcases List.mem_cons.mp hpath with rfl | hpath
    · exact .refl
    · obtain ⟨root, ⟨hroot, hdescriptor⟩, hneeded⟩ := hmore path hpath
      exact .head ⟨hnew, file, ⟨text, htext, hparse⟩, hroot, hdescriptor⟩
        (hneeded.mono fun other hother => mem_files_note.mpr (.inr hother))
  induction h with
  | known | unreadable | done | missing => simp
  | blocked hnew htext hparse _ ih =>
    exact fun path hpath => ⟨_, rfl, hfile hnew htext hparse ih path hpath⟩
  | added hnew htext hparse _ ih =>
    rw [notedPaths_whole]
    exact fun path hpath => ⟨_, rfl, hfile hnew htext hparse ih path hpath⟩
  | skipped _ _ ih =>
    intro path hpath
    obtain ⟨root, hroot, hneeded⟩ := ih path hpath
    exact ⟨root, hroot.imp_left (List.mem_cons_of_mem _), hneeded⟩
  | stopped hnew _ ih =>
    intro path hpath
    obtain ⟨_, rfl, hneeded⟩ := ih path hpath
    exact ⟨_, ⟨List.mem_cons_self, hnew.1⟩, hneeded⟩
  | next hnew hfirst _ ih ih' =>
    intro path hpath
    rw [notedPaths_append] at hpath
    rcases List.mem_append.mp hpath with hpath | hpath
    · obtain ⟨_, rfl, hneeded⟩ := ih path hpath
      exact ⟨_, ⟨List.mem_cons_self, hnew.1⟩, hneeded⟩
    · obtain ⟨root, hroot, hneeded⟩ := ih' path hpath
      exact ⟨root, hroot.imp_left (List.mem_cons_of_mem _),
        hneeded.mono fun other hother => (hfirst.mem_files other).mpr (.inl hother)⟩

/-- What a task begins with is known when the run is over, unless it is refused. -/
theorem Loads.begins_known (h : Loads texts task r trace out) (hok : out.1 = .ok ()) {root : String}
    (hroot : task.Begins root) : root ∈ out.2.files := by
  induction h with
  | known hmem => exact hroot ▸ hmem
  | unreadable | blocked | missing | stopped => cases hok
  | done => exact absurd hroot.1 List.not_mem_nil
  | added hnew htext hparse himports =>
    cases hroot
    refine ((Loads.added hnew htext hparse himports).mem_files _).mpr (.inr ?_)
    rw [notedPaths_whole]
    exact List.mem_cons_self
  | skipped hknown hmore ih =>
    rcases List.mem_cons.mp hroot.1 with rfl | hmem
    · exact (hmore.mem_files _).mpr (.inl (hknown.resolve_left hroot.2))
    · exact ih hok ⟨hmem, hroot.2⟩
  | next _ _ hmore ih ih' =>
    rcases List.mem_cons.mp hroot.1 with rfl | hmem
    · exact (hmore.mem_files _).mpr (.inl (ih rfl rfl))
    · exact ih' hok ⟨hmem, hroot.2⟩

/-- Files are added after those that they import. If one that is imported has not been added before,
it has been noted, and it leads back to the file itself. -/
def Ordered (texts : String → Option String) (known : List String) (trace : List Loading) : Prop :=
  ∀ before path file after, trace = before ++ .added path file :: after →
    Reads texts path file ∧ ∀ imported ∈ file.imports, imported ≠ descriptorFile →
      imported ∈ known ∨ imported ∈ addedPaths before ∨
        imported ∈ notedPaths before ∧ imported ∉ addedPaths before ∧
          Relation.ReflTransGen (Imports texts) imported path

theorem ordered_nil (known : List String) : Ordered texts known [] := by
  intro before path file after hsplit
  exact absurd hsplit.symm (by simp)

theorem Ordered.append {known known' : List String} {trace' : List Loading}
    (h : Ordered texts known trace) (h' : Ordered texts known' trace')
    (hknown : ∀ path ∈ known', path ∈ known ∨ path ∈ addedPaths trace) :
    Ordered texts known (trace ++ trace') := by
  have hlater : ∀ before path file after, trace' = before ++ .added path file :: after →
      Reads texts path file ∧ ∀ imported ∈ file.imports, imported ≠ descriptorFile →
        imported ∈ known ∨ imported ∈ addedPaths (trace ++ before) ∨
          imported ∈ notedPaths (trace ++ before) ∧ imported ∉ addedPaths (trace ++ before) ∧
            Relation.ReflTransGen (Imports texts) imported path := by
    intro before path file after hsplit
    obtain ⟨hreads, horder⟩ := h' before path file after hsplit
    refine ⟨hreads, fun imported himported hdescriptor => ?_⟩
    rw [addedPaths_append, notedPaths_append, List.mem_append, List.mem_append]
    rcases horder imported himported hdescriptor with hmem | hmem | ⟨hmem, hnot, hback⟩
    · exact (hknown imported hmem).imp_right fun hadded => .inl (.inl hadded)
    · exact .inr (.inl (.inr hmem))
    · by_cases hadded : imported ∈ addedPaths trace
      · exact .inr (.inl (.inl hadded))
      · exact .inr (.inr ⟨.inr hmem, not_or.mpr ⟨hadded, hnot⟩, hback⟩)
  intro before path file after hsplit
  rcases List.append_eq_append_iff.mp hsplit with ⟨more, rfl, hmore⟩ | ⟨more, htrace, hrest⟩
  · exact hlater more path file after hmore
  · rcases List.cons_eq_append_iff.mp hrest with ⟨rfl, hrest⟩ | ⟨more, rfl, -⟩
    · rw [List.append_nil] at htrace
      have hfirst := hlater [] path file after hrest.symm
      rwa [List.append_nil, htrace] at hfirst
    · exact h before path file more htrace

/-- While the imports of a file are followed, it is noted but not added. They may import it. -/
theorem Ordered.noted {known : List String} {path : String}
    (h : Ordered texts (Keyed.insert id path known) trace) (hnew : path ∉ addedPaths trace)
    (hbelow : ∀ other ∈ addedPaths trace, Relation.ReflTransGen (Imports texts) path other) :
    Ordered texts known (.noted path :: trace) := by
  intro before other file after hsplit
  rcases List.cons_eq_append_iff.mp hsplit with ⟨-, hrest⟩ | ⟨before, rfl, htrace⟩
  · cases hrest
  rw [addedPaths_noted, notedPaths_noted]
  obtain ⟨hreads, horder⟩ := h before other file after htrace
  have hadded : addedPaths trace = addedPaths before ++ other :: addedPaths after := by
    rw [htrace, addedPaths_append, addedPaths_added]
  refine ⟨hreads, fun imported himported hdescriptor => ?_⟩
  rcases horder imported himported hdescriptor with hmem | hmem | ⟨hmem, hback⟩
  · rcases mem_note.mp hmem with rfl | hmem
    · refine .inr (.inr ⟨List.mem_cons_self, fun hbefore => hnew ?_, hbelow other ?_⟩)
      · rw [hadded]
        exact List.mem_append_left _ hbefore
      · rw [hadded]
        exact List.mem_append_right _ List.mem_cons_self
    · exact .inl hmem
  · exact .inr (.inl hmem)
  · exact .inr (.inr ⟨List.mem_cons_of_mem _ hmem, hback⟩)

/-- A file that is added when all that it imports is known, itself apart. -/
theorem Ordered.concat {known : List String} {path : String} {file : FileDecl}
    (h : Ordered texts known trace) (hreads : Reads texts path file)
    (hnoted : path ∈ notedPaths trace) (hnew : path ∉ addedPaths trace)
    (himports : ∀ imported ∈ file.imports, imported ≠ descriptorFile →
      imported ∈ known ∨ imported = path ∨ imported ∈ addedPaths trace) :
    Ordered texts known (trace ++ [.added path file]) := by
  intro before other otherFile after hsplit
  rcases after.eq_nil_or_concat with rfl | ⟨after, last, rfl⟩
  · obtain ⟨rfl, hlast⟩ := List.append_inj' hsplit rfl
    cases hlast
    refine ⟨hreads, fun imported himported hdescriptor => ?_⟩
    rcases himports imported himported hdescriptor with hmem | rfl | hmem
    · exact .inl hmem
    · exact .inr (.inr ⟨hnoted, hnew, .refl⟩)
    · exact .inr (.inl hmem)
  · rw [List.concat_eq_append, ← List.cons_append, ← List.append_assoc] at hsplit
    exact h before other otherFile after (List.append_inj' hsplit rfl).1

theorem Loads.ordered (h : Loads texts task r trace out) (hok : out.1 = .ok ()) :
    Ordered texts r.files trace := by
  induction h with
  | known | done => exact ordered_nil _
  | unreadable | blocked | missing | stopped => cases hok
  | @added r s path text file trace hnew htext hparse himports ih =>
    have hreads : Reads texts path file := ⟨text, htext, hparse⟩
    have hadded : ∀ other, other ∈ addedPaths trace ↔ other ∈ notedPaths trace :=
      fun other => (himports.added_perm rfl).mem_iff
    have hself : path ∉ addedPaths trace := fun hmem =>
      himports.noted_nodup.2 path ((hadded path).mp hmem) (mem_files_note.mpr (.inl rfl))
    -- by now each import has been noted, so it has been added as well or waits itself
    refine Ordered.concat ((ih rfl).noted hself fun other hother => ?_) hreads
      List.mem_cons_self hself fun imported himported hdescriptor => ?_
    · obtain ⟨root, ⟨hroot, hdescriptor⟩, hneeded⟩ :=
        himports.needed other ((hadded other).mp hother)
      exact .head ⟨file, hreads, hroot, hdescriptor⟩
        (Relation.ReflTransGen.mono (fun _ _ hstep => hstep.2) _ _ hneeded)
    · rcases (himports.mem_files imported).mp
        (himports.begins_known rfl ⟨himported, hdescriptor⟩) with hmem | hmem
      · rcases mem_files_note.mp hmem with rfl | hmem
        · exact .inr (.inl rfl)
        · exact .inl hmem
      · exact .inr (.inr ((hadded imported).mpr hmem))
  | skipped _ _ ih => exact ih hok
  | next _ hfirst _ ih ih' =>
    refine (ih rfl).append (ih' hok) fun path hpath => ?_
    exact ((hfirst.mem_files path).mp hpath).imp_right (hfirst.added_perm rfl).mem_iff.mpr

end Runs

/-- What a run has done that was not refused: it has noted the files that are needed, and has added
each of them, in order. -/
structure Complete (texts : String → Option String) (root : String) (r : Registry)
    (trace : List Loading) (s : Registry) : Prop where
  replay : (ExceptT.run (trace.forM Loading.edit)).run r = (.ok (), s)
  files : ∀ path, path ∈ s.files ↔ path ∈ r.files ∨ Needed texts r.files root path
  noted : ∀ path, path ∈ notedPaths trace ↔ path ∈ s.files ∧ path ∉ r.files
  once : (notedPaths trace).Nodup ∧ (addedPaths trace).Perm (notedPaths trace)
  ordered : Ordered texts r.files trace

theorem Loads.complete {root : String} {trace : List Loading}
    (h : Loads texts (.file root) r trace (.ok (), s)) : Complete texts root r trace s := by
  have hordered := h.ordered rfl
  have hperm := h.added_perm rfl
  refine ⟨h.replay rfl, fun path => ⟨fun hpath => ?_, ?_⟩, fun path => ⟨fun hpath => ?_,
    fun ⟨hpath, hnew⟩ => ((h.mem_files path).mp hpath).resolve_left hnew⟩,
    ⟨h.noted_nodup.1, hperm⟩, hordered⟩
  · rcases (h.mem_files path).mp hpath with hmem | hmem
    · exact .inl hmem
    · obtain ⟨_, rfl, hneeded⟩ := h.needed path hmem
      exact .inr hneeded
  · rintro (hold | hneeded)
    · exact (h.mem_files path).mpr (.inl hold)
    · induction hneeded with
      | refl => exact h.begins_known rfl rfl
      | @tail path imported _ hstep ih =>
        obtain ⟨hnew, file, ⟨text, htext, hparse⟩, himported, hdescriptor⟩ := hstep
        have hnoted := ((h.mem_files path).mp ih).resolve_left hnew
        obtain ⟨before, other, after, hsplit⟩ := exists_added (hperm.mem_iff.mpr hnoted)
        obtain ⟨⟨text', htext', hparse'⟩, horder⟩ := hordered before path other after hsplit
        rw [htext] at htext'
        cases htext'
        rw [hparse] at hparse'
        cases hparse'
        have hbefore : ∀ p ∈ notedPaths before, p ∈ notedPaths trace := fun p hp => by
          rw [hsplit, notedPaths_append]
          exact List.mem_append_left _ hp
        have hbefore' : ∀ p ∈ addedPaths before, p ∈ notedPaths trace := fun p hp => by
          rw [← hperm.mem_iff, hsplit, addedPaths_append]
          exact List.mem_append_left _ hp
        refine (h.mem_files imported).mpr ?_
        rcases horder imported himported hdescriptor with hmem | hmem | ⟨hmem, -⟩
        · exact .inl hmem
        · exact .inr (hbefore' imported hmem)
        · exact .inr (hbefore imported hmem)
  · exact ⟨(h.mem_files path).mpr (.inr hpath), h.noted_nodup.2 path hpath⟩

/-! ### The program -/

/-- How many of the available files have not been noted. -/
def unnoted (available : List (String × String)) (files : List String) : Nat :=
  ((available.map Prod.fst).toFinset \ files.toFinset).card

theorem unnoted_le_length (files : List String) : unnoted available files ≤ available.length := by
  refine (Finset.card_le_card Finset.sdiff_subset).trans ?_
  exact (List.toFinset_card_le _).trans (List.length_map _).le

theorem unnoted_mono {files files' : List String} (h : files ⊆ files') :
    unnoted available files' ≤ unnoted available files :=
  Finset.card_le_card (Finset.sdiff_subset_sdiff subset_rfl fun _ hpath =>
    List.mem_toFinset.mpr (h (List.mem_toFinset.mp hpath)))

/-- Each file that is noted is one less that is not. -/
theorem unnoted_note_lt {path text : String} (htext : available.lookup path = some text)
    (hnew : path ∉ r.files) :
    unnoted available (r.note path).files < unnoted available r.files := by
  refine Finset.card_lt_card (Finset.ssubset_iff_of_subset ?_ |>.mpr ⟨path, ?_, ?_⟩)
  · exact Finset.sdiff_subset_sdiff subset_rfl fun other hother => List.mem_toFinset.mpr
      (mem_files_note.mpr (.inr (List.mem_toFinset.mp hother)))
  · refine Finset.mem_sdiff.mpr ⟨List.mem_toFinset.mpr ?_, mt List.mem_toFinset.mp hnew⟩
    obtain ⟨before, after, hsplit, -⟩ := List.lookup_eq_some_iff.mp htext
    rw [hsplit]
    simp
  · exact fun hmem => (Finset.mem_sdiff.mp hmem).2
      (List.mem_toFinset.mpr (mem_files_note.mpr (.inl rfl)))

/-- What the program does at an import. -/
def follow (available : List (String × String)) (fuel : Nat) (importer path : String) :
    RegistryEdit SchemaError Unit := do
  if path = descriptorFile ∨ (← get).files.contains path then return
  match available.lookup path with
  | none => throw (.importMissing path importer)
  | some text => loadWithin available fuel text path

theorem run_loadWithin {fuel : Nat} {source name : String} {file : FileDecl} (hnew : name ∉ r.files)
    (hparse : Schema.parse source = .ok file) :
    (ExceptT.run (loadWithin available (fuel + 1) source name)).run r =
      (ExceptT.run (file.imports.forM (follow available fuel name) >>= fun _ =>
        asSchemaEdit (addFile file))).run (r.note name) := by
  rw [loadWithin, run_get_bind, if_neg (mt List.contains_iff_mem.mp hnew), hparse]
  rfl

/-- Where there is a run for each file that is followed, there is one for all imports. -/
theorem exists_loads_imports {root : String} (importer : String) {fuel : Nat}
    (htexts : ∀ path ≠ root, texts path = available.lookup path)
    (hfile : ∀ {s : Registry} {path text : String}, texts path = some text → root ∈ s.files →
      unnoted available (s.note path).files < fuel → ∃ trace, Loads texts (.file path) s trace
        ((ExceptT.run (loadWithin available fuel text path)).run s))
    (paths : List String) (hroot : root ∈ s.files) (hfuel : unnoted available s.files ≤ fuel) :
    ∃ trace, Loads texts (.imports importer paths) s trace
      ((ExceptT.run (paths.forM (follow available fuel importer))).run s) := by
  induction paths generalizing s with
  | nil => exact ⟨[], .done⟩
  | cons path more ih =>
    show ∃ trace, Loads texts _ s trace ((ExceptT.run (follow available fuel importer path >>=
      fun _ => more.forM (follow available fuel importer))).run s)
    rw [run_bind_eq, follow, run_get_bind]
    by_cases hknown : path = descriptorFile ∨ path ∈ s.files
    · rw [if_pos (hknown.imp_right List.contains_iff_mem.mpr)]
      obtain ⟨trace, hmore⟩ := ih hroot hfuel
      exact ⟨trace, .skipped hknown hmore⟩
    rw [if_neg (mt (Or.imp_right List.contains_iff_mem.mp) hknown)]
    rw [not_or] at hknown
    have htext : texts path = available.lookup path :=
      htexts path fun heq => hknown.2 (heq ▸ hroot)
    cases hlookup : available.lookup path with
    | none => exact ⟨[], .missing hknown (htext.trans hlookup)⟩
    | some text =>
      dsimp only
      -- the name of the file is noted first, so fewer names are left to note below it
      obtain ⟨trace, hfirst⟩ := hfile (htext.trans hlookup) hroot
        ((unnoted_note_lt hlookup hknown.2).trans_le hfuel)
      rcases hrun : (ExceptT.run (loadWithin available fuel text path)).run s with ⟨e | a, t⟩ <;>
        rw [hrun] at hfirst
      · exact ⟨trace, .stopped hknown hfirst⟩
      · have hlater : s.files ⊆ t.files :=
          fun other hother => (hfirst.mem_files other).mpr (.inl hother)
        obtain ⟨trace', hmore⟩ := ih (hlater hroot) ((unnoted_mono hlater).trans hfuel)
        exact ⟨trace ++ trace', .next hknown hfirst hmore⟩

/-- The program runs by the rules: the bound on the depth is never met. -/
theorem exists_loads {root : String} (htexts : ∀ path ≠ root, texts path = available.lookup path)
    (fuel : Nat) {source name : String} (htext : texts name = some source)
    (hroot : root ∈ (r.note name).files) (hfuel : unnoted available (r.note name).files < fuel) :
    ∃ trace, Loads texts (.file name) r trace
      ((ExceptT.run (loadWithin available fuel source name)).run r) := by
  induction fuel generalizing r source name with
  | zero => exact absurd hfuel (Nat.not_lt_zero _)
  | succ fuel ih =>
    by_cases hknown : name ∈ r.files
    · rw [loadWithin, run_get_bind, if_pos (List.contains_iff_mem.mpr hknown)]
      exact ⟨[], .known hknown⟩
    cases hparse : Schema.parse source with
    | error e =>
      rw [loadWithin, run_get_bind, if_neg (mt List.contains_iff_mem.mp hknown), hparse]
      exact ⟨[], .unreadable hknown htext hparse⟩
    | ok file =>
      obtain ⟨trace, himports⟩ := exists_loads_imports name htexts
        (fun htext hroot => ih htext (mem_files_note.mpr (.inr hroot))) file.imports hroot
        (Nat.le_of_lt_succ hfuel)
      rw [run_loadWithin hknown hparse, run_bind_eq]
      rcases hrun : (ExceptT.run (file.imports.forM (follow available fuel name))).run
        (r.note name) with ⟨e | a, s⟩ <;> rw [hrun] at himports
      · exact ⟨_, .blocked hknown htext hparse himports⟩
      · exact ⟨_, .added hknown htext hparse himports⟩

/-- Loading a file comes to an end, however the files import each other. If it is not refused, the
files that are needed have been noted, each of them has been added once, and after those that it
imports unless they lead back to it. -/
theorem loadWith_complete (r : Registry) (available : List (String × String))
    (source name : String) :
    ∃ trace, Loads (textOf available source name) (.file name) r trace
        ((ExceptT.run (loadWith available source name)).run r) ∧
      (((ExceptT.run (loadWith available source name)).run r).1 = .ok () →
        Complete (textOf available source name) name r trace
          (r.after (loadWith available source name))) := by
  have htexts : ∀ path ≠ name, textOf available source name path = available.lookup path :=
    fun _ hpath => if_neg hpath
  obtain ⟨trace, hloads⟩ := exists_loads (r := r) htexts (available.length + 1) (if_pos rfl)
    (mem_files_note.mpr (.inl rfl)) (Nat.lt_succ_of_le (unnoted_le_length _))
  exact ⟨trace, hloads, fun hok => Loads.complete (hok ▸ hloads)⟩

/-- Two files that import each other, one of them itself as well, and both of them a third one. -/
def circular : List (String × String) :=
  [("a", "import \"b\"; import \"c\";"), ("b", "import \"c\"; import \"a\"; import \"b\";"),
    ("c", "")]

/-- All of them are loaded with a file that imports one. -/
theorem loadWith_complete_circular :
    let load := loadWith circular "import \"a\";" "r"
    ∃ trace, Complete (textOf circular "import \"a\";" "r") "r" (empty {}) trace
        ((empty {}).after load) ∧ ((empty {}).after load).files = ["a", "b", "c", "r"] := by
  intro load
  have hok : ((ExceptT.run load).run (empty {})).1.isOk = true := by decide +kernel
  have hfiles : ((empty {}).after load).files = ["a", "b", "c", "r"] := by decide +kernel
  obtain ⟨trace, -, hcomplete⟩ := loadWith_complete (empty {}) circular "import \"a\";" "r"
  refine ⟨trace, hcomplete ?_, hfiles⟩
  show ((ExceptT.run load).run (empty {})).1 = .ok ()
  cases hrun : ((ExceptT.run load).run (empty {})).1 with
  | error e =>
    rw [hrun] at hok
    cases hok
  | ok _ => rfl

end Registry

end Protobuf

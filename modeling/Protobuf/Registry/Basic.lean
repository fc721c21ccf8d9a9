import Protobuf.Graph.Entity
import Protobuf.Registry.Create
import Protobuf.Registry.Link
import Protobuf.Schema.Parser.File

/-!
# The registry of definitions

A registry collects definitions and hands out types. Definitions are added below a current
package. Once all references have been looked up, a snapshot of the graph is kept, and types are
taken from the snapshot until more definitions are added.

An action that is refused midway leaves what it has done so far.

## Main definitions

* `Registry` — definitions, the current package, the files known, and the snapshot.
* `Registry.define`, `Registry.create`, `Registry.importFile`, `Registry.load`,
  `Registry.loadWith` — the ways of adding definitions.
* `Registry.resolveAll` — looks up all references and takes a snapshot.
* `Registry.ofSource` — all of that for one schema text.
-/

namespace Protobuf

/-- Definitions that are being collected. -/
structure Registry where
  graph : Graph
  /-- The package that definitions are added to. -/
  current : NodeId := Graph.root
  /-- The dialect of the definitions that are being added. -/
  dialect : Dialect := .proto2
  /-- The names of the files that have been imported, in ascending order. -/
  files : List String := []
  /-- The linked graph that types are taken from. -/
  snapshot : Option Snapshot := none
  deriving Inhabited

/-- An action on a registry that may be refused midway. -/
abbrev RegistryEdit (ε α : Type) := ExceptT ε (StateM Registry) α

namespace Registry

/-- A registry without definitions. -/
def empty (settings : Settings) : Registry :=
  { graph := .empty settings }

/-- All references have been looked up. -/
def isResolved (r : Registry) : Bool :=
  r.snapshot.isSome

/-- Runs an action on the graph of the registry. -/
def editGraph {α : Type} (edit : GraphEdit α) : RegistryEdit DefinitionError α :=
  ExceptT.mk fun r =>
    let (result, graph) := (ExceptT.run edit).run r.graph
    (result, { r with graph })

/-- Makes the root the current package. -/
def reset {ε : Type} : RegistryEdit ε Unit :=
  modify fun r => { r with current := Graph.root }

/-- Gives the current package further options. -/
def addOptions {ε : Type} (options : Options) : RegistryEdit ε Unit :=
  modify fun r =>
    let extend (s : Scope) : Scope :=
      { s with options := .ofList (s.options.entries ++ options.entries) }
    { r with graph := r.graph.mapKind r.current (·.mapScope extend) }

/-- Makes the package `name` below the current one the current one. It is added if there is no such
node. `package` is the whole path, for the error. -/
def enter (package name : String) : RegistryEdit DefinitionError Unit := do
  let r ← get
  let inner ← match r.graph.child? r.current name with
    | some existing =>
      match r.graph.kind existing with
      | .package _ => pure existing
      | _ => throw (.notAPackage package (r.graph.fqn existing))
    | none => editGraph (.add r.current name (.package { dialect := r.dialect }))
  modify fun r => { r with current := inner }

/-- Makes a package below the current one the current one, by its dotted name, and gives it
further options. Missing parts of it are added. -/
def define (package : String) (options : Options) : RegistryEdit DefinitionError Unit := do
  ((Path.parts package).filter (· ≠ "")).forM (enter package)
  addOptions options

/-- Adds definitions to the current package. Types can be taken again after the references have
been looked up anew. -/
def create (definitions : List Definition) : RegistryEdit DefinitionError Unit := do
  modify fun r => { r with snapshot := none }
  let r ← get
  definitions.forM fun d => editGraph (.create r.dialect r.current d)

/-- Adds what a file defines to the package that it names. -/
def addFile (file : FileDecl) : RegistryEdit DefinitionError Unit := do
  modify fun r => { r with dialect := file.dialect }
  reset
  match file.package with
  | some package => define package file.options
  | none => addOptions file.options
  create file.definitions
  reset

/-- Adds what a file defines, unless a file of that name has been added before. -/
def importFile (file : FileDecl) (name : Option String) : RegistryEdit DefinitionError Unit := do
  if let some name := name then
    if (← get).files.contains name then return
    modify fun r => { r with files := Keyed.insert id name r.files }
  addFile file

/-- Runs an action with its errors seen as errors of schemas. -/
def asSchemaEdit {α : Type} (edit : RegistryEdit DefinitionError α) :
    RegistryEdit SchemaError α :=
  ExceptT.adapt .definition edit

/-- Adds what a schema text defines. Its imports are not followed. -/
def load (source : String) (name : Option String) : RegistryEdit SchemaError Unit := do
  match Schema.parse source with
  | .error e => throw (.parse e)
  | .ok file => asSchemaEdit (importFile file name)

/-- The file that declares the option types of the language. It is never followed. -/
def descriptorFile : String := "google/protobuf/descriptor.proto"

/-- Adds what a schema text and the files that it imports define, the imports first, at most
`fuel` files deep. `available` has the texts of files by name. -/
def loadWithin (available : List (String × String)) :
    (fuel : Nat) → (source name : String) → RegistryEdit SchemaError Unit
  | 0, _, name => throw (.importMissing name name)
  | fuel + 1, source, name => do
    if (← get).files.contains name then return
    match Schema.parse source with
    | .error e => throw (.parse e)
    | .ok file =>
      modify fun r => { r with files := Keyed.insert id name r.files }
      file.imports.forM fun path => do
        if path = descriptorFile ∨ (← get).files.contains path then return
        match available.lookup path with
        | none => throw (.importMissing path name)
        | some text => loadWithin available fuel text path
      asSchemaEdit (addFile file)

/-- Adds what a schema text and the files that it imports define, the imports first. A file is
noted before its imports are followed, so no file is met twice on the way down, and only files
that are available are met below the first. -/
def loadWith (available : List (String × String)) (source name : String) :
    RegistryEdit SchemaError Unit :=
  loadWithin available (available.length + 1) source name

/-- Looks up all references and takes a snapshot with the given stamp, which has to be a new one.
Nothing is done if a snapshot is there, and nothing is kept if a reference cannot be looked up. -/
def resolveAll (stamp : Nat) : RegistryEdit SchemaError Unit := do
  let r ← get
  if r.isResolved then return
  match r.graph.link with
  | .error e => throw e
  | .ok graph => set { r with graph, snapshot := some { graph, stamp } }

/-- The registry of a single schema text, with its references looked up. -/
def ofSource (source : String) (stamp : Nat) : Except SchemaError Registry :=
  let edit : RegistryEdit SchemaError Unit := do
    load source none
    resolveAll stamp
  let (result, r) := (ExceptT.run edit).run (empty {})
  result.map fun () => r

end Registry

end Protobuf

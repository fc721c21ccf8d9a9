import Mathlib
import Protobuf.Proofs.Registry.Built

/-!
# Schemas loaded from text

A registry into which schema texts have been loaded, one after the other and with their imports, has
a sound graph, and a snapshot that was taken of it is linked. The names in it have characters, but
no dots. A text may be refused midway: what it has defined until then stays, and the graph is sound
all the same.

## Main definitions

* `Registry.Loaded` — a registry that was made from schema texts alone.
* `Snapshot.Loaded` — a snapshot of such a registry.
* `Snapshot.tree`, `Snapshot.extended` — the snapshots of small schemas, for instances of what is
  proved of all.

## Main results

* `Snapshot.Loaded.linked`, `Snapshot.Loaded.plainNames`, `Snapshot.Loaded.namedNodes` — the graph
  of such a snapshot is linked, and its names have characters but no dots
-/

namespace Protobuf

/-- The registry was made from schema texts. Any of the actions may have been refused midway. -/
inductive Registry.Loaded : Registry → Prop
  | empty (settings : Settings) : Loaded (.empty settings)
  | load {r : Registry} (h : r.Loaded) (source : String) (name : Option String) :
      Loaded (r.after (Registry.load source name))
  | loadWith {r : Registry} (h : r.Loaded) (available : List (String × String))
      (source name : String) : Loaded (r.after (Registry.loadWith available source name))
  | define {r : Registry} (h : r.Loaded) (package : String) (options : Options) :
      Loaded (r.after (Registry.define package options))
  | reset {r : Registry} (h : r.Loaded) :
      Loaded (r.after (Registry.reset : RegistryEdit SchemaError Unit))
  | resolveAll {r : Registry} (h : r.Loaded) (stamp : Nat) :
      Loaded (r.after (Registry.resolveAll stamp))

/-- The snapshot was taken of a registry that was made from schema texts. -/
def Snapshot.Loaded (S : Snapshot) : Prop :=
  ∃ r : Registry, r.Loaded ∧ r.snapshot = some S

theorem Registry.Loaded.reaches {r : Registry} (h : r.Loaded) :
    ∃ settings, Reaches True (.empty settings) r := by
  induction h with
  | empty settings => exact ⟨settings, .refl _⟩
  | load _ source name ih => exact ih.imp fun _ h => h.after (keeps_load source name)
  | loadWith _ available source name ih =>
    exact ih.imp fun _ h => h.after (keeps_loadWithin available _ source name)
  | define _ package options ih => exact ih.imp fun _ h => h.after (keeps_define package options)
  | reset _ ih => exact ih.imp fun _ h => h.after keeps_reset
  | resolveAll _ stamp ih => exact ih.imp fun _ h => h.after (keeps_resolveAll stamp)

theorem Registry.Loaded.meets {r : Registry} (h : r.Loaded) {Inv Linked : Graph → Prop}
    (hInv : Graph.Lasting True Inv Linked) : r.Meets Inv Linked := by
  obtain ⟨settings, hreaches⟩ := h.reaches
  exact (meets_empty hInv.empty settings).reaches hInv hreaches

theorem Graph.lasting_sound : Graph.Lasting True Graph.Sound Graph.Linked where
  stable := stable_sound
  empty := sound_empty
  mapScope hg _ _ _ := hg.mapScope _ _
  link hg h := ⟨(hg.link h).toSound, hg.link h⟩

/-- The graph of a snapshot that was loaded from text is linked. -/
theorem Snapshot.Loaded.linked {S : Snapshot} (h : S.Loaded) : S.graph.Linked := by
  obtain ⟨r, hr, hS⟩ := h
  exact (hr.meets Graph.lasting_sound).snapshot S hS

theorem Graph.lasting_plainNames : Graph.Lasting True Graph.PlainNames Graph.PlainNames where
  stable := stable_plainNames
  empty := plainNames_empty
  mapScope hg _ _ hchange := (sameShape_mapScope _ hchange).plainNames hg
  link hg h := ⟨(sameShape_of_link h).plainNames hg, (sameShape_of_link h).plainNames hg⟩

/-- The names in a graph that was loaded from text have no dots. -/
theorem Snapshot.Loaded.plainNames {S : Snapshot} (h : S.Loaded) : S.graph.PlainNames := by
  obtain ⟨r, hr, hS⟩ := h
  exact (hr.meets Graph.lasting_plainNames).snapshot S hS

theorem Graph.lasting_namedNodes : Graph.Lasting True Graph.NamedNodes Graph.NamedNodes where
  stable := stable_namedNodes
  empty := namedNodes_empty
  mapScope hg _ _ hchange := (sameShape_mapScope _ hchange).namedNodes hg
  link hg h := ⟨(sameShape_of_link h).namedNodes hg, (sameShape_of_link h).namedNodes hg⟩

/-- The names in a graph that was loaded from text have characters. -/
theorem Snapshot.Loaded.namedNodes {S : Snapshot} (h : S.Loaded) : S.graph.NamedNodes := by
  obtain ⟨r, hr, hS⟩ := h
  exact (hr.meets Graph.lasting_namedNodes).snapshot S hS

/-- What is made from texts alone is made by some actions. -/
theorem Registry.Loaded.built {r : Registry} (h : r.Loaded) : r.Built := by
  induction h with
  | empty settings => exact .empty settings
  | load _ source name ih => exact .load ih source name
  | loadWith _ available source name ih => exact .loadWith ih available source name
  | define _ package options ih => exact .define ih package options
  | reset _ ih => exact .reset ih
  | resolveAll _ stamp ih => exact .resolveAll ih stamp

theorem Snapshot.Loaded.built {S : Snapshot} (h : S.Loaded) : S.Built := by
  obtain ⟨r, hr, hS⟩ := h
  exact ⟨r, hr.built, hS⟩

/-! ### Single sources -/

/-- The registry of a single schema text, with what could be looked up of its references. -/
def Registry.ofText (settings : Settings) (source : String) : Registry :=
  ((Registry.empty settings).after (Registry.load source none)).after (Registry.resolveAll 0)

theorem Snapshot.loaded_of_ofText {settings : Settings} {source : String} {S : Snapshot}
    (h : (Registry.ofText settings source).snapshot = some S) : S.Loaded :=
  ⟨_, .resolveAll (.load (.empty settings) source none) 0, h⟩

/-- The registry of some definitions, with what could be looked up of their references. -/
def Registry.ofDefinitions (settings : Settings) (definitions : List Definition) : Registry :=
  ((Registry.empty settings).after (Registry.create definitions)).after (Registry.resolveAll 0)

theorem Snapshot.built_of_ofDefinitions {settings : Settings} {definitions : List Definition}
    {S : Snapshot} (h : (Registry.ofDefinitions settings definitions).snapshot = some S) :
    S.Built :=
  ⟨_, .resolveAll (.create (.empty settings) definitions) 0, h⟩

/-- A field without any options. -/
def FieldNode.plain (dialect : Dialect) (rule : Rule) (id : UInt32) (name typeName : String)
    (link : FieldLink) : FieldNode :=
  { rule, typeName, keyTypeName := none, id, options := {}, oneof := none, declaredName := name,
    dialect, extension := none, link := some link }

/-- Trees of integers. -/
def Snapshot.tree (populateDefaults : Bool) : Snapshot where
  stamp := 0
  graph :=
    { nodes := #[
        ⟨"", none, .package { children := [1] }⟩,
        ⟨"M", some 0, .message
          { scope := { children := [2, 3], dialect := .proto3 }, fields := [2, 3] }⟩,
        ⟨"a", some 1, .field (.plain .proto3 .implicit 1 "a" "int32"
          ⟨.scalar .int32, none, false, some (.i32 0)⟩)⟩,
        ⟨"b", some 1, .field (.plain .proto3 .repeated 2 "b" "M"
          ⟨.message 1, none, false, none⟩)⟩]
      extensions := []
      settings := { populateDefaults } }

theorem Snapshot.loaded_tree (populateDefaults : Bool) : (tree populateDefaults).Loaded := by
  have h : (Registry.ofText { populateDefaults }
      "syntax = \"proto3\"; message M { int32 a = 1; repeated M b = 2; }").snapshot =
        some (tree populateDefaults) := by
    cbv
  exact loaded_of_ofText h

/-- A message with two required fields, its own and an extension. -/
def Snapshot.extended : Snapshot where
  stamp := 0
  graph :=
    { nodes := #[
        ⟨"", none, .package { children := [1, 3] }⟩,
        ⟨"M", some 0, .message
          { scope := { children := [2] }, fields := [2], extensionRanges := [(100, 200)] }⟩,
        ⟨"a", some 1, .field (.plain .proto2 .required 1 "a" "int32"
          ⟨.scalar .int32, none, false, none⟩)⟩,
        ⟨"x", some 0, .extension { extendee := "M", field := 4, target := some 1 }⟩,
        ⟨"x", some 3, .field { FieldNode.plain .proto2 .required 100 "x" "int32"
          ⟨.scalar .int32, none, false, none⟩ with extension := some 3 }⟩]
      extensions := [⟨1, 100, 4⟩]
      settings := {} }

/-- Its schema. -/
def Snapshot.extendedText : String :=
  "message M { required int32 a = 1; extensions 100 to 200; } extend M { required int32 x = 100; }"

theorem Snapshot.ofText_extended : (Registry.ofText {} extendedText).snapshot = some extended := by
  cbv

theorem Snapshot.loaded_extended : Snapshot.extended.Loaded :=
  loaded_of_ofText ofText_extended

end Protobuf

import Mathlib
import Protobuf.Proofs.Registry.Call
import Protobuf.Proofs.Registry.Loaded
import Protobuf.Proofs.Registry.Scoping

/-!
# Names in graphs that come from texts

Definitions that were read from schema texts can be given to a registry by any calls: texts can be
loaded, files can be imported, and definitions can be created one by one and below any package. The
names of all nodes have characters but no dots, also where words are joined in the names of fields.
So paths tell nodes apart, and references mean what the paths say.

## Main definitions

* `Registry.FromText` — all definitions that were given to the registry come from schema texts.
* `Graph.FromText` — the graph of such a registry, or of its snapshot.

## Main results

* `Graph.FromText.resolve?_innermost` — a reference finds what has its path in the innermost scope
* `Graph.FromText.fqn_identifies` — nodes are known by their paths
* `Graph.FromText.shortName_shortest` — the short path of a node refers to it, and no shorter one
  does
-/

namespace Protobuf

/-! ### Registries -/

namespace Registry

/-- All definitions that the call is given come from schema texts. -/
def Call.FromText : Call → Prop
  | create definitions =>
    ∀ d ∈ definitions, ∃ source file, Schema.parse source = .ok file ∧ d ∈ file.definitions
  | importFile file _ => ∃ source, Schema.parse source = .ok file
  | _ => True

/-- The registry was made by calls whose definitions come from schema texts. Any of them may have
been refused midway. -/
inductive FromText : Registry → Prop
  | empty (settings : Settings) : FromText (.empty settings)
  | call {r : Registry} (h : r.FromText) (call : Call) (hcall : call.FromText) :
      FromText (r.after call.edit)

theorem Call.FromText.keeps {call : Call} (h : call.FromText) {r₀ : Registry} :
    Keeps (Reaches True r₀) call.edit := by
  cases call with
  | define package options => exact (keeps_define package options).adapt
  | create definitions =>
    refine (keeps_create fun _ d hd => ?_).adapt
    obtain ⟨source, file, hparse, hmem⟩ := h d hd
    exact (Schema.textual_of_parse hparse).definitions d hmem
  | importFile file name =>
    obtain ⟨source, hparse⟩ := h
    exact (keeps_importFile (fun _ => Schema.textual_of_parse hparse) name).adapt
  | load source name => exact keeps_load source name
  | loadWith available source name => exact keeps_loadWithin available _ source name
  | reset => exact keeps_reset
  | resolveAll stamp => exact keeps_resolveAll stamp

theorem FromText.reaches {r : Registry} (h : r.FromText) :
    ∃ settings, Reaches True (.empty settings) r := by
  induction h with
  | empty settings => exact ⟨settings, .refl _⟩
  | call _ call hcall ih => exact ih.imp fun _ h => h.after hcall.keeps

theorem FromText.meets {r : Registry} (h : r.FromText) {Inv Linked : Graph → Prop}
    (hInv : Graph.Lasting True Inv Linked) : r.Meets Inv Linked := by
  obtain ⟨settings, hreaches⟩ := h.reaches
  exact (meets_empty hInv.empty settings).reaches hInv hreaches

theorem fromText_ofText (settings : Settings) (source : String) :
    (ofText settings source).FromText :=
  .call (.call (.empty settings) (.load source none) trivial) (.resolveAll 0) trivial

end Registry

namespace Graph

variable {g : Graph}

/-- The graph is that of a registry whose definitions come from schema texts, as it is now or as the
snapshot shows it. -/
def FromText (g : Graph) : Prop :=
  ∃ r : Registry, r.FromText ∧ (g = r.graph ∨ ∃ S, r.snapshot = some S ∧ g = S.graph)

namespace FromText

theorem of_lasting (hg : g.FromText) {Inv : Graph → Prop} (hInv : Lasting True Inv Inv) :
    Inv g := by
  obtain ⟨r, hr, rfl | ⟨S, hS, rfl⟩⟩ := hg
  · exact (hr.meets hInv).graph
  · exact (hr.meets hInv).snapshot S hS

theorem tree (hg : g.FromText) : g.Tree :=
  hg.of_lasting lasting_tree

theorem plainNames (hg : g.FromText) : g.PlainNames :=
  hg.of_lasting lasting_plainNames

theorem findable (hg : g.FromText) {n : NodeId} (hn : n < g.size)
    (howner : (g.kind n).owner? = none) : g.Findable n :=
  hg.tree.findable hg.plainNames (hg.of_lasting lasting_namedNodes) hn howner

/-! ### References -/

open Relation (ReflTransGen TransGen)

/-- What references find. A relative path finds the node that has it for its path from the innermost
of the scopes around for which there is such a node, where nodes that are no scopes do not count if
scopes only are looked for. It finds nothing if there is no such scope. A path with a leading dot
finds the node of that path, from whatever scope. -/
theorem resolve?_innermost (hg : g.FromText) {name : String}
    (hname : ∀ part ∈ Path.parts name, part ≠ "") (scopesOnly : Bool) :
    (∀ scope < g.size,
      (∀ n, g.resolve? scope name scopesOnly = some n ↔ ∃ p, ReflTransGen g.Up scope p ∧
        g.Answers (g.fqn p ++ "." ++ name) scopesOnly n ∧
          ∀ q, ReflTransGen g.Up scope q → TransGen g.Up q p →
            ∀ m, ¬g.Answers (g.fqn q ++ "." ++ name) scopesOnly m) ∧
      (g.resolve? scope name scopesOnly = none ↔ ∀ p, ReflTransGen g.Up scope p →
        ∀ n, ¬g.Answers (g.fqn p ++ "." ++ name) scopesOnly n)) ∧
    ∀ scope n, g.resolve? scope ("." ++ name) scopesOnly = some n ↔
      g.Answers ("." ++ name) scopesOnly n := by
  refine ⟨fun scope hscope => ⟨fun n => ?_, ?_⟩, fun scope n => ?_⟩
  · exact hg.tree.resolve?_eq_some_iff hg.plainNames hscope hname
  · exact hg.tree.resolve?_eq_none_iff hg.plainNames hscope hname
  · exact hg.tree.resolve?_anchored hg.plainNames hname

end FromText

/-- A message is hidden by another one of the same name inside of a third one, which has an
extension. -/
def shadowed : Graph where
  nodes := #[
    ⟨"", none, .package { children := [1, 2, 5] }⟩,
    ⟨"T", some 0, .message { scope := {} }⟩,
    ⟨"A", some 0, .message { scope := { children := [3] }, extensionRanges := [(100, 200)] }⟩,
    ⟨"T", some 2, .message { scope := { children := [4] }, fields := [4] }⟩,
    ⟨"myField", some 3, .field (.plain .proto2 .optional 1 "my_field" "int32"
      ⟨.scalar .int32, none, false, none⟩)⟩,
    ⟨"theExt", some 0, .extension { extendee := "A", field := 6, target := some 2 }⟩,
    ⟨"theExt", some 5, .field { FieldNode.plain .proto2 .optional 100 "the_ext" "int32"
      ⟨.scalar .int32, none, false, none⟩ with extension := some 5 }⟩]
  extensions := [⟨2, 100, 6⟩]
  settings := { camelCase := true }

theorem fromText_shadowed : shadowed.FromText := by
  have h : shadowed = (Registry.ofText { camelCase := true }
      ("message T {} " ++
        "message A { message T { optional int32 my_field = 1; } extensions 100 to 200; } " ++
        "extend A { optional int32 the_ext = 100; }")).graph := by
    cbv
  exact ⟨_, Registry.fromText_ofText _ _, .inl h⟩

example : (List.range shadowed.size).map shadowed.fqn =
    ["", ".T", ".A", ".A.T", ".A.T.myField", ".theExt", ".theExt"] := by
  cbv

/-- From the field of the inner message, its name finds the inner message, below the outer one. -/
theorem resolve?_innermost_shadowed : ∃ p, Relation.ReflTransGen shadowed.Up 4 p ∧
    shadowed.Answers (shadowed.fqn p ++ "." ++ "T") true 3 ∧
      ∀ q, Relation.ReflTransGen shadowed.Up 4 q → Relation.TransGen shadowed.Up q p →
        ∀ m, ¬shadowed.Answers (shadowed.fqn q ++ "." ++ "T") true m := by
  have hname : ∀ part ∈ Path.parts "T", part ≠ "" := by
    have hparts : Path.parts "T" = ["T"] := by cbv
    simp [hparts]
  have hfound : shadowed.resolve? 4 "T" true = some 3 := by cbv
  have hlt : 4 < shadowed.size := by decide
  exact (((fromText_shadowed.resolve?_innermost hname true).1 4 hlt).1 3).mp hfound

namespace FromText

/-! ### Paths -/

/-- Paths tell nodes apart. Every node but the fields of extensions is found at its path, with and
without the leading dot; at the path of the field of an extension, the extension is found. Different
nodes have the same path only if one of them is an extension and the other one its field. -/
theorem fqn_identifies (hg : g.FromText) :
    (∀ n < g.size, (g.kind n).owner? = none →
      g.lookup? (g.fqn n) = some n ∧ g.lookup? (Path.unanchored (g.fqn n)) = some n) ∧
    (∀ n < g.size, ∀ x, (g.kind n).owner? = some x →
      g.lookup? (g.fqn n) = some x ∧ g.lookup? (Path.unanchored (g.fqn n)) = some x) ∧
    ∀ a < g.size, ∀ b < g.size, g.fqn a = g.fqn b →
      a = b ∨ (g.kind a).owner? = some b ∨ (g.kind b).owner? = some a := by
  have hfound : ∀ n < g.size, (g.kind n).owner? = none →
      g.lookup? (g.fqn n) = some n ∧ g.lookup? (Path.unanchored (g.fqn n)) = some n := by
    intro n hn howner
    have hfindable := hg.findable hn howner
    exact ⟨hg.tree.lookup?_fqn hfindable, hg.tree.lookup?_unanchored hg.plainNames hfindable⟩
  refine ⟨hfound, fun n hn x howner => ?_, fun a ha b hb hfqn => ?_⟩
  · obtain ⟨hx, hxowner, hfqn⟩ := hg.tree.spec_of_owner? howner
    rw [hfqn]
    exact hfound x hx hxowner
  · exact hg.tree.eq_or_owner? (hg.tree.eq_of_fqn_eq hg.plainNames ha hb hfqn)

end FromText

/-- At the path of the field of an extension, the extension is found. -/
theorem fqn_identifies_shadowed : shadowed.fqn 6 = ".theExt" ∧
    shadowed.lookup? ".theExt" = some 5 ∧ shadowed.lookup? "theExt" = some 5 ∧
    ∀ n < shadowed.size, shadowed.fqn n = ".theExt" →
      n = 5 ∨ (shadowed.kind n).owner? = some 5 := by
  obtain ⟨-, hextension, hsame⟩ := fromText_shadowed.fqn_identifies
  have hlt : 6 < shadowed.size := by decide
  have hlt' : 5 < shadowed.size := by decide
  have hfqn : shadowed.fqn 6 = ".theExt" := by cbv
  have hfqn' : shadowed.fqn 5 = ".theExt" := by cbv
  have hplain : Path.unanchored ".theExt" = "theExt" := by cbv
  obtain ⟨hfound, hfound'⟩ := hextension 6 hlt 5 (by cbv)
  rw [hfqn] at hfound hfound'
  rw [hplain] at hfound'
  refine ⟨hfqn, hfound, hfound', fun n hn hname => ?_⟩
  rcases hsame n hn 5 hlt' (hname.trans hfqn'.symm) with heq | howner | howner
  · exact .inl heq
  · exact .inr howner
  · have hnone : (shadowed.kind 5).owner? = none := by cbv
    rw [hnone] at howner
    cases howner

namespace FromText

/-! ### Short paths -/

/-- The short path of a node refers to it, looking for scopes only exactly if the node is one. It is
the end of the path of the node and no shorter end of it refers to the node, whatever is looked for;
or it is the whole path from the root, and no end of the path refers to the node. -/
theorem shortName_shortest (hg : g.FromText) {scope target : NodeId} (hscope : scope < g.size)
    (htarget : target < g.size) (hroot : target ≠ root) (howner : (g.kind target).owner? = none) :
    g.resolve? scope (g.shortName scope target) (g.kind target).hasScope = some target ∧
      ((∃ names, names <:+ g.pathTo target ∧ Path.parts (g.shortName scope target) = names ∧
        g.shortName scope target = Path.join names ∧
        ∀ shorter, shorter <:+ g.pathTo target → shorter.length < names.length → ∀ scopesOnly,
          g.resolve? scope (Path.join shorter) scopesOnly ≠ some target) ∨
      (g.shortName scope target = g.fqn target ∧ ∀ names, names <:+ g.pathTo target →
        ∀ scopesOnly, g.resolve? scope (Path.join names) scopesOnly ≠ some target)) := by
  have hfindable := hg.findable htarget howner
  rcases hg.tree.shortName_cases hg.plainNames hscope hfindable with
    ⟨names, hsuffix, hne, hshort, hres, hshortest⟩ | ⟨hshort, hnone⟩
  · rw [hshort]
    exact ⟨hres, .inl ⟨names, hsuffix, (hfindable.parts hsuffix hne).1, rfl, hshortest⟩⟩
  · rw [hshort]
    exact ⟨hg.tree.resolve?_fqn hg.plainNames hfindable hroot, .inr ⟨rfl, hnone⟩⟩

end FromText

/-- From inside, the outer message can only be referred to by its path from the root. -/
theorem shortName_shortest_shadowed : shadowed.shortName 4 1 = ".T" ∧
    shadowed.resolve? 4 ".T" true = some 1 ∧
      ∀ scopesOnly, shadowed.resolve? 4 (Path.join ["T"]) scopesOnly ≠ some 1 := by
  have hscope : 4 < shadowed.size := by decide
  have htarget : 1 < shadowed.size := by decide
  have hshort : shadowed.shortName 4 1 = ".T" := by cbv
  have hpath : shadowed.pathTo 1 = ["T"] := by cbv
  obtain ⟨hres, hshortest⟩ :=
    fromText_shadowed.shortName_shortest hscope htarget (by decide) (by cbv)
  rw [hshort] at hres hshortest
  refine ⟨hshort, hres, ?_⟩
  rcases hshortest with ⟨names, hsuffix, hparts, hjoin, -⟩ | ⟨-, hnone⟩
  · -- The path has a leading dot, so it is no end of the names.
    have hdot : Path.parts ".T" = ["", "T"] := by cbv
    rw [← hparts, hdot, hpath] at hsuffix
    have hle := hsuffix.length_le
    simp at hle
  · exact hnone ["T"] (hpath ▸ List.suffix_rfl)

end Graph

end Protobuf

import Mathlib
import Protobuf.Proofs.Registry.Faithful
import Protobuf.Proofs.Registry.Loaded
import Protobuf.Proofs.Registry.Lookup

/-!
# What becomes of definitions that are refused

Definitions are added node by node, and a refusal leaves the nodes before it. So a definition is
handed out as a whole exactly if it was not refused: otherwise types are taken from the beginning of
it, because looking up references does not ask where a node has come from. Everything that is handed
out, packages apart, comes from one such addition of definitions.

## Main definitions

* `Registry.Creation` — an addition of definitions, on the way to a registry.

## Main results

* `Registry.exists_creation` — what is no package comes from an addition of definitions
* `Registry.Built.served` — what is handed out of definitions that have been added, refused or not
-/

namespace Protobuf

namespace Graph

variable {g g' : Graph} {p : NodeId} {new : List NodeId}

/-- Every new node is one of those that are listed in addition, or below one. -/
theorem Enlarged.walk (h : g.Enlarged p new g') (hg : g.Tree) (hg' : g'.Branching) {n : NodeId}
    (hle : g.size ≤ n) (hlt : n < g'.size) : ∃ m ∈ new, Relation.ReflTransGen g'.Up n m := by
  induction n using Nat.strongRecOn with
  | ind n ih =>
    have hroot : n ≠ Graph.root := by
      rintro rfl
      exact Nat.lt_irrefl _ (Nat.lt_of_lt_of_le hg.root.1 hle)
    obtain ⟨q, hqn, hq⟩ := hg'.parent n hlt hroot
    rcases Nat.lt_or_ge q g.size with hold | hnew
    · -- Of the older nodes only `p` has got anything below it.
      rcases hg'.below n q hq with hscope | howned
      · have hmem : n ∈ g'.children q := (hg'.children q n).mpr ⟨hq, hscope⟩
        by_cases hqp : q = p
        · rw [hqp, h.appended] at hmem
          rcases List.mem_append.mp hmem with hmem | hmem
          · exact absurd hle (Nat.not_le.mpr (hg.lt_of_mem_children hmem).2)
          · exact ⟨n, hmem, .refl⟩
        · rw [h.children q hold hqp] at hmem
          exact absurd hle (Nat.not_le.mpr (hg.lt_of_mem_children hmem).2)
      · rw [(h.like hold).owned?] at howned
        exact absurd hle (Nat.not_le.mpr (lt_size_of_parent? (hg.owned q n howned).1))
    · obtain ⟨m, hm, hwalk⟩ := ih q hqn hnew (Nat.lt_trans hqn hlt)
      exact ⟨m, hm, .head hq hwalk⟩

theorem Becomes.up (h : g.Becomes g') {n q : NodeId} (hup : g.Up n q) : g'.Up n q :=
  (h.parent? n (lt_size_of_parent? hup)).trans hup

end Graph

namespace Registry

variable {r r' : Registry}

/-! ### Additions of definitions -/

/-- Definitions were added on the way to the registry, refused or not. -/
structure Creation (r : Registry) where
  before : Registry
  definitions : List Definition
  reached : before.Reached
  later : Reaches False (before.after (Registry.create definitions)) r

theorem after_create (r : Registry) (definitions : List Definition) :
    r.after (Registry.create definitions) =
      { r with snapshot := none }.withDefinitions definitions := by
  rw [after, run_create]

namespace Creation

/-- The registry right after the addition. -/
def after (c : r.Creation) : Registry :=
  c.before.after (Registry.create c.definitions)

/-- Whether the definitions were refused. -/
def result (c : r.Creation) : Except DefinitionError Unit :=
  ((ExceptT.run (Registry.create c.definitions)).run c.before).1

/-- The nodes that were added to the package that was the current one. -/
def nodes (c : r.Creation) : List NodeId :=
  (c.after.graph.children c.before.current).drop (c.before.graph.children c.before.current).length

/-- The additions on the way to a registry are on the way to a later one. -/
def trans (c : r.Creation) (h : Reaches False r r') : r'.Creation :=
  { c with later := Relation.ReflTransGen.trans c.later h }

theorem nodes_eq (c : r.Creation) {new : List NodeId}
    (h : c.before.graph.Enlarged c.before.current new c.after.graph) : c.nodes = new := by
  rw [nodes, h.appended, List.drop_left]

theorem enlarged (c : r.Creation) :
    c.before.graph.Enlarged c.before.current c.nodes c.after.graph := by
  obtain ⟨new, hnew⟩ := c.reached.standing.enlarged c.definitions
  have hafter : c.after.graph = (c.before.withDefinitions c.definitions).graph := by
    rw [after, after_create]
    rfl
  rw [← hafter] at hnew
  rw [c.nodes_eq hnew]
  exact hnew

/-- What was added is a whole, or what there is of it up to the refusal. -/
theorem spec (c : r.Creation) :
    (c.result = .ok () ∧ List.Forall₂ (c.after.graph.Whole c.before.graph.size) c.nodes
      (c.before.outlines c.definitions)) ∨
    ((∃ e, c.result = .error e) ∧ c.after.graph.Stopped c.before.graph.size c.nodes
      (c.before.outlines c.definitions)) := by
  rcases (c.reached.standing.leads_create c.definitions).outcome rfl with
    ⟨a, hresult, new, hnew, hwhole⟩ | ⟨e, hresult, new, hnew, hstopped⟩
  · rw [c.nodes_eq hnew]
    exact .inl ⟨hresult, hwhole⟩
  · rw [c.nodes_eq hnew]
    exact .inr ⟨⟨e, hresult⟩, hstopped⟩

theorem standing_after (c : r.Creation) : c.after.Standing := by
  obtain ⟨settings, hreaches⟩ := c.reached
  exact Reached.standing ⟨settings, hreaches.after (keeps_create False.elim)⟩

/-- A snapshot is dropped before definitions are added, so a later one shows them. -/
theorem becomes (c : r.Creation) {S : Snapshot} (hS : r.snapshot = some S) :
    c.after.graph.Becomes S.graph := by
  have hnone : c.after.snapshot = none := by
    rw [after, after_create]
    rfl
  rcases c.later.taken hS with hbefore | ⟨between, hreaches, hgraph, -⟩
  · rw [show c.before.after (Registry.create c.definitions) = c.after from rfl, hnone] at hbefore
    cases hbefore
  · rw [← hgraph]
    exact (c.standing_after.reaches hreaches).2

end Creation

/-- What is no package comes from an addition of definitions. -/
theorem exists_creation (hr : r.Reached) {n : NodeId} (hn : n < r.graph.size)
    (hpackage : (r.graph.kind n).isPackage = false) :
    ∃ c : r.Creation, ∃ m ∈ c.nodes, Relation.ReflTransGen r.graph.Up n m := by
  obtain ⟨settings, hreaches⟩ := hr
  induction hreaches with
  | refl =>
    rw [(Nat.lt_one_iff.mp hn), ← Bool.not_eq_true] at hpackage
    exact absurd (standing_empty settings).root hpackage
  | @tail r₁ r₂ hreaches hstep ih =>
    have hreached : r₁.Reached := ⟨settings, hreaches⟩
    obtain ⟨hstanding, hbecomes⟩ := hreached.standing.step hstep
    rcases Nat.lt_or_ge n r₁.graph.size with hold | hnew
    · rw [hbecomes.isPackage n hold] at hpackage
      obtain ⟨c, m, hm, hwalk⟩ := ih hold hpackage
      exact ⟨c.trans (Reaches.step (.refl _) hstep), m, hm,
        Relation.ReflTransGen.mono (fun _ _ hup => hbecomes.up hup) _ _ hwalk⟩
    · -- of all steps, one that is no addition of definitions brings a package at most
      cases hstep with
      | @enter name id g hname hne hadd =>
        obtain ⟨-, hplanted, -⟩ := Graph.grown_of_add hreached.standing.current.1 hadd
        have heq : n = r₁.graph.size := by
          have hlt : n < g.size := hn
          rw [hplanted.size] at hlt
          exact Nat.le_antisymm (Nat.le_of_lt_succ hlt) hnew
        have hkind : ((g.kind n).isPackage) = false := hpackage
        rw [heq, hplanted.new] at hkind
        cases hkind
      | options options =>
        exact absurd hnew (Nat.not_le.mpr (Graph.size_mapKind (g := r₁.graph) _ _ ▸ hn))
      | @freeze g stamp hsnapshot hlink =>
        exact absurd hnew (Nat.not_le.mpr ((Graph.sameShape_of_link hlink).size ▸ hn))
      | create definitions hsnapshot htextual =>
        have hafter : r₁.after (Registry.create definitions) = r₁.withDefinitions definitions := by
          rw [after_create, ← hsnapshot]
        let c : (r₁.withDefinitions definitions).Creation :=
          ⟨r₁, definitions, hreached, hafter ▸ .refl _⟩
        have hlarger := c.enlarged
        rw [Creation.after, hafter] at hlarger
        exact ⟨c, hlarger.walk hreached.standing.tree hstanding.tree.toBranching hnew hn⟩
      | _ => exact absurd hnew (Nat.not_le.mpr hn)

/-- A definition that was added is handed out under its path, if its name may stand in one. -/
theorem Creation.exists_build (c : r.Creation) (hr : r.Reached) {S : Snapshot}
    (hS : r.snapshot = some S) {n : NodeId} (hn : n ∈ c.nodes) (hscope : (S.graph.kind n).hasScope)
    (hplain : Path.Plain (S.graph.name n)) (hname : S.graph.name n ≠ "") :
    ∃ e, r.build (S.graph.fqn n) = .ok e ∧ e.handle = ⟨S, n⟩ := by
  obtain ⟨between, hreached, hgraph, -⟩ := hr.exists_taken hS
  have hstanding := hreached.standing
  have hcurrent := c.reached.standing
  have hbefore : c.before.current < c.after.graph.size :=
    Nat.lt_of_lt_of_le hcurrent.current.1 c.enlarged.size
  have hlater := c.becomes hS
  rw [← hgraph] at hlater hscope hplain hname ⊢
  have hpackage : (between.graph.kind c.before.current).isPackage := by
    rw [hlater.isPackage _ hbefore, c.enlarged.isPackage hcurrent.current.1]
    exact hcurrent.package
  have hmem : n ∈ between.graph.children c.before.current := by
    refine (hlater.listed _ hbefore).subset ?_
    rw [c.enlarged.appended]
    exact List.mem_append_right _ hn
  have hfound := hstanding.tree.lookup?_fqn (hstanding.named.findable_of_parent? hstanding.tree
    ((hstanding.tree.children _ n).mp hmem).1 hpackage (NodeKind.owner?_of_hasScope hscope)
    ⟨hplain, hname⟩)
  rw [hgraph] at hfound hscope ⊢
  obtain ⟨e, he, hhandle⟩ := Entity.exists_ofNode? S hscope
  exact ⟨e, (build_eq_ok hS).mpr ⟨n, hfound, he⟩, hhandle⟩

/-- What is handed out of definitions. Each addition of definitions shows in every later snapshot:
as a whole, if and only if it was not refused, and otherwise as far as it had come. Either way the
types are handed out under their paths. Conversely, every node of a snapshot that is no package is
a definition that was added in this way, or a part of one. -/
theorem Built.served (hr : r.Built) {S : Snapshot} (hS : r.snapshot = some S) :
    (∀ c : r.Creation,
      (List.Forall₂ (S.graph.Whole c.before.graph.size) c.nodes (c.before.outlines c.definitions) ↔
        c.result = .ok ()) ∧
      (c.result ≠ .ok () → S.graph.Stopped c.before.graph.size c.nodes
        (c.before.outlines c.definitions)) ∧
      ∀ n ∈ c.nodes, (S.graph.kind n).hasScope → Path.Plain (S.graph.name n) →
        S.graph.name n ≠ "" → ∃ e, r.build (S.graph.fqn n) = .ok e ∧ e.handle = ⟨S, n⟩) ∧
    ∀ n < S.graph.size, (S.graph.kind n).isPackage = false →
      ∃ c : r.Creation, ∃ m ∈ c.nodes, Relation.ReflTransGen S.graph.Up n m := by
  refine ⟨fun c => ?_, fun n hn hpackage => ?_⟩
  · have hpreserves := (c.becomes hS).preserves c.before.graph.size
    refine ⟨?_, ?_, fun n hn => c.exists_build hr.reached hS hn⟩
    · rcases c.spec with ⟨hresult, hwhole⟩ | ⟨⟨e, hresult⟩, hstopped⟩
      · exact ⟨fun _ => hresult, fun _ => hpreserves.forall₂ hwhole⟩
      · constructor
        · exact fun hwhole => absurd hwhole (hpreserves.stopped hstopped).not_whole
        · intro hok
          rw [hresult] at hok
          cases hok
    · intro hne
      rcases c.spec with ⟨hresult, -⟩ | ⟨-, hstopped⟩
      · exact absurd hresult hne
      · exact hpreserves.stopped hstopped
  · obtain ⟨between, hreached, hgraph, hafter⟩ := hr.reached.exists_taken hS
    rw [← hgraph] at hn hpackage ⊢
    obtain ⟨c, m, hm, hwalk⟩ := exists_creation hreached hn hpackage
    exact ⟨c.trans hafter, m, hm, hwalk⟩

/-- A message whose second field cannot be added, since it has the number of the first one. -/
def clash : List Definition :=
  let field (name : String) : FieldDecl :=
    { rule := .optional, typeName := "int32", keyType := none, name, id := 1, options := {},
      oneof := none, line := 1 }
  [.message { name := "M", fields := [field "a", field "b"] }]

/-- The registry of such a message, with its references looked up. -/
def clashing : Registry :=
  ofDefinitions {} clash

theorem snapshot_clashing : clashing.snapshot = some
    { stamp := 0
      graph :=
        { nodes := #[
            ⟨"", none, .package { children := [1] }⟩,
            ⟨"M", some 0, .message { scope := { children := [2] }, fields := [2] }⟩,
            ⟨"a", some 1, .field (.plain .proto2 .optional 1 "a" "int32"
              ⟨.scalar .int32, none, false, none⟩)⟩]
          extensions := []
          settings := {} } } := by
  cbv

/-- The message is handed out without the field that was refused. -/
theorem served_clashing : ∃ c : clashing.Creation, ∃ S, clashing.snapshot = some S ∧
    c.definitions = clash ∧ c.result ≠ .ok () ∧ c.nodes = [1] ∧
    S.graph.Stopped 1 [1] (c.before.outlines clash) ∧
    ∃ e, clashing.build ".M" = .ok e ∧ e.handle = ⟨S, 1⟩ := by
  have hbuilt : clashing.Built := .resolveAll (.create (.empty {}) clash) 0
  have hlater : Reaches False ((empty {}).after (create clash)) clashing :=
    (Reaches.refl _).after (keeps_resolveAll 0)
  let c : clashing.Creation := ⟨.empty {}, clash, ⟨{}, .refl _⟩, hlater⟩
  obtain ⟨hcreation, -⟩ := hbuilt.served snapshot_clashing
  obtain ⟨-, hstopped, hserved⟩ := hcreation c
  have hresult : c.result ≠ .ok () := by
    have herror : c.result.toOption = none := by cbv
    intro hok
    rw [hok] at herror
    cases herror
  have hnodes : c.nodes = [1] := by cbv
  rw [hnodes] at hstopped hserved
  refine ⟨c, _, snapshot_clashing, rfl, hresult, hnodes, hstopped hresult, ?_⟩
  obtain ⟨e, he, hhandle⟩ := hserved 1 (by simp) rfl (Path.plain_iff.mpr (by cbv)) (by decide)
  exact ⟨e, he, hhandle⟩

/-- A text was refused at its second field. Once the references have been looked up, the message is
handed out all the same, with the first field only. -/
theorem served_half :
    let source := "message M { optional int32 a = 1; optional int32 b = 1; }"
    let refused := (empty {}).after (load source none)
    ((ExceptT.run (load source none)).run (empty {})).1.toOption = none ∧
      (refused.after (resolveAll 0)).isResolved = true ∧
      ((refused.after (resolveAll 0)).messageType "M").toOption.map MessageType.fieldNames =
        some ["a"] ∧
      (Schema.parse source).toOption.map (fun file => file.messages.map fun m =>
        (m.name, m.fields.map FieldDecl.name)) = some [("M", ["a", "b"])] := by
  refine ⟨?_, ?_, ?_, ?_⟩
  · cbv
  · cbv
  · cbv
  · cbv

end Registry

end Protobuf

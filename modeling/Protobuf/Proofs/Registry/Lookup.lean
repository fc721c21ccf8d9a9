import Protobuf.Proofs.Graph.Label
import Protobuf.Proofs.Registry.Standing
import Protobuf.Registry.Access

/-!
# What is found at paths

A node is found at its path from the root, as long as the names on the way to it may stand in a
path. What is found at a path is found there in every later graph. Packages have proper names, so
they are always found; a definition is if it has a proper name and is below a package.

## Main results

* `Graph.Tree.lookup?_fqn` — a node is found at its path
* `Graph.Becomes.lookup?` — what is found at a path is found there later
* `Registry.build_eq` — what a registry hands out is what is found in its snapshot
-/

namespace Protobuf

namespace Graph

variable {g g' : Graph}

/-! ### Paths of nodes -/

/-- The names on the way to the node may stand in a path. -/
def Findable (g : Graph) (n : NodeId) : Prop :=
  n < g.size ∧ (g.kind n).owner? = none ∧ ∀ name ∈ g.pathTo n, Path.Plain name ∧ name ≠ ""

theorem fqn_of_owner? {n : NodeId} (h : (g.kind n).owner? = none) :
    g.fqn n = Path.dotted (g.pathTo n) := by
  rw [fqn_eq, representative_eq, h]
  rfl

theorem Branching.pathTo_ne_nil (hg : g.Branching) {n p : NodeId} (h : g.parent? n = some p) :
    g.pathTo n ≠ [] := by
  rw [hg.pathTo_of_parent? h]
  exact List.append_ne_nil_of_right_ne_nil _ (List.cons_ne_nil _ _)

/-- The path of a node is neither empty nor the dot that stands for the root. -/
theorem dotted_ne {names : List String} (hne : names ≠ []) (h : ∀ name ∈ names, name ≠ "") :
    ¬(Path.dotted names = "" ∨ Path.dotted names = ".") := by
  cases names with
  | nil => exact absurd rfl hne
  | cons name more =>
    have hname : name.toList ≠ [] := fun hnil =>
      h name List.mem_cons_self (String.toList_inj.mp hnil)
    rintro (heq | heq) <;>
      · have hchars := congrArg String.toList heq
        rw [Path.toList_dotted] at hchars
        simp [hname] at hchars

/-- A node is found at its path. -/
theorem Tree.lookup?_fqn (hg : g.Tree) {n : NodeId} (hn : g.Findable n) :
    g.lookup? (g.fqn n) = some n := by
  obtain ⟨hlt, howner, hnames⟩ := hn
  have hwalk := hg.walk?_pathTo hlt howner
  rw [fqn_of_owner? howner, lookup?]
  by_cases hroot : n = root
  · subst hroot
    rw [pathTo_of_parent?_eq_none hg.parent?_root]
    rfl
  · obtain ⟨p, -, hp⟩ := hg.parent n hlt hroot
    have hne := hg.pathTo_ne_nil hp
    have hparts := Path.parts_unanchored_dotted hne fun name hname => (hnames name hname).1
    have hanchored : (Path.anchored? (Path.dotted (g.pathTo n))).isSome := by
      cases hpath : g.pathTo n with
      | nil => exact absurd hpath hne
      | cons name more => rw [Path.anchored?_dotted]; rfl
    rw [if_neg (dotted_ne hne fun name hname => (hnames name hname).2), resolve?, hparts]
    rw [if_neg, if_pos hanchored, walkTo?, hwalk]
    · rfl
    · simpa using fun hempty => (hnames "" hempty).2 rfl

/-! ### Later graphs -/

section Later

variable (h : g.Becomes g') (hg : g.Tree) (hg' : g'.Tree)

include h hg hg'

theorem Becomes.child? {p c : NodeId} {name : String} (hp : p < g.size)
    (hc : g.child? p name = some c) : g'.child? p name = some c ∧ c < g.size := by
  have hmem : c ∈ g.children p := List.mem_of_find?_eq_some hc
  have hname := List.find?_some hc
  have hlt := (hg.lt_of_mem_children hmem).2
  obtain ⟨hparent, hscope⟩ := (hg'.children p c).mp ((h.listed p hp).subset hmem)
  have hfound := hg'.child?_eq_some hparent hscope
  rw [h.name c hlt, of_decide_eq_true hname] at hfound
  exact ⟨hfound, hlt⟩

theorem Becomes.walk? {start n : NodeId} {path : List String} (hs : start < g.size)
    (hn : g.walk? start path = some n) : g'.walk? start path = some n ∧ n < g.size := by
  induction path generalizing start with
  | nil =>
    cases hn
    exact ⟨rfl, hs⟩
  | cons name more ih =>
    rw [Graph.walk?, List.foldlM_cons] at hn ⊢
    obtain ⟨c, hc, hn⟩ := Option.bind_eq_some_iff.mp hn
    obtain ⟨hc', hlt⟩ := h.child? hg hg' hs hc
    obtain ⟨hwalk, hsize⟩ := ih hlt hn
    exact ⟨Option.bind_eq_some_iff.mpr ⟨c, hc', hwalk⟩, hsize⟩

/-- What is found at a path is found there later. -/
theorem Becomes.lookup? {path : String} {n : NodeId} (hn : g.lookup? path = some n) :
    g'.lookup? path = some n ∧ n < g.size := by
  have hancestors : ∀ {g : Graph}, g.Tree → g.ancestors root = [root] := by
    intro g hg
    rw [ancestors, ancestorsWithin, hg.parent?_root]
  have hwalkTo : ∀ {names : List String} {m : NodeId}, g.walkTo? root names false = some m →
      g'.walkTo? root names false = some m ∧ m < g.size := by
    intro names m hwalk
    obtain ⟨hwalk, hscope⟩ := Option.filter_eq_some_iff.mp hwalk
    obtain ⟨hwalk', hsize⟩ := h.walk? hg hg' hg.root.1 hwalk
    exact ⟨Option.filter_eq_some_iff.mpr ⟨hwalk', rfl⟩, hsize⟩
  rw [Graph.lookup?] at hn ⊢
  split
  · rename_i hpath
    rw [if_pos hpath] at hn
    cases hn
    exact ⟨rfl, hg.root.1⟩
  · rename_i hpath
    rw [if_neg hpath, resolve?] at hn
    rw [resolve?]
    -- no scope encloses the root, so a path is walked from there, whether it is anchored or not
    simp only [hancestors hg, hancestors hg', List.findSome?_cons, List.findSome?_nil] at hn ⊢
    split
    · rename_i hempty
      rw [if_pos hempty] at hn
      cases hn
    · rename_i hempty
      rw [if_neg hempty] at hn
      split
      · rename_i hanchored
        rw [if_pos hanchored] at hn
        exact hwalkTo hn
      · rename_i hanchored
        rw [if_neg hanchored] at hn
        cases hwalk : g.walkTo? root (Path.parts (Path.unanchored path)) false with
        | none => rw [hwalk] at hn; cases hn
        | some m =>
          rw [hwalk] at hn
          cases hn
          rw [(hwalkTo hwalk).1]
          exact ⟨rfl, (hwalkTo hwalk).2⟩

end Later

/-! ### Packages -/

/-- Packages are found at their paths. -/
theorem PackagesNamed.findable (hg : g.PackagesNamed) (htree : g.Tree) {n : NodeId}
    (hn : n < g.size) (hpackage : (g.kind n).isPackage) : g.Findable n := by
  have howner : (g.kind n).owner? = none :=
    NodeKind.owner?_of_hasScope (NodeKind.hasScope_of_isPackage hpackage)
  refine ⟨hn, howner, ?_⟩
  induction n using Nat.strongRecOn with
  | ind n ih =>
    intro name hname
    by_cases hroot : n = root
    · subst hroot
      rw [pathTo_of_parent?_eq_none htree.parent?_root] at hname
      cases hname
    · obtain ⟨p, hlt, hp⟩ := htree.parent n hn hroot
      obtain ⟨hpackage', hproper⟩ := hg n p hpackage hp
      rw [htree.pathTo_of_parent? hp] at hname
      rcases List.mem_append.mp hname with hname | hname
      · exact ih p hlt (Nat.lt_trans hlt hn) hpackage'
          (NodeKind.owner?_of_hasScope (NodeKind.hasScope_of_isPackage hpackage')) name hname
      · rw [List.mem_singleton.mp hname]
        exact hproper

/-- A definition of a proper name below a package is found at its path. -/
theorem PackagesNamed.findable_of_parent? (hg : g.PackagesNamed) (htree : g.Tree) {n p : NodeId}
    (hp : g.parent? n = some p) (hpackage : (g.kind p).isPackage)
    (howner : (g.kind n).owner? = none) (hname : Path.Plain (g.name n) ∧ g.name n ≠ "") :
    g.Findable n := by
  have hlt := htree.lt_of_parent? hp
  refine ⟨hlt.2, howner, fun name hmem => ?_⟩
  rw [htree.pathTo_of_parent? hp] at hmem
  rcases List.mem_append.mp hmem with hmem | hmem
  · exact (hg.findable htree (Nat.lt_trans hlt.1 hlt.2) hpackage).2.2 name hmem
  · rw [List.mem_singleton.mp hmem]
    exact hname

end Graph

/-! ### What registries hand out -/

/-- A node with a scope is handed out. -/
theorem Entity.exists_ofNode? (S : Snapshot) {n : NodeId} (h : (S.graph.kind n).hasScope) :
    ∃ e, Entity.ofNode? S n = some e ∧ e.handle = ⟨S, n⟩ := by
  rw [Entity.ofNode?]
  cases hkind : S.graph.kind n with
  | package scope => exact ⟨_, rfl, rfl⟩
  | message content => exact ⟨_, rfl, rfl⟩
  | enumeration scope => exact ⟨_, rfl, rfl⟩
  | service scope => exact ⟨_, rfl, rfl⟩
  | _ => rw [hkind] at h; cases h

/-- What is handed out is a node with a scope. -/
theorem Entity.handle_of_ofNode? {S : Snapshot} {n : NodeId} {e : Entity}
    (h : Entity.ofNode? S n = some e) : e.handle = ⟨S, n⟩ ∧ (S.graph.kind n).hasScope := by
  rw [Entity.ofNode?] at h
  cases hkind : S.graph.kind n <;> rw [hkind] at h <;> cases h <;> exact ⟨rfl, rfl⟩

/-- What a registry hands out at a path is what is found there in its snapshot. -/
theorem Registry.build_eq_ok {r : Registry} {S : Snapshot} (hS : r.snapshot = some S)
    {path : String} {e : Entity} : r.build path = .ok e ↔
      ∃ n, S.graph.lookup? path = some n ∧ Entity.ofNode? S n = some e := by
  simp only [build, hS]
  cases hn : S.graph.lookup? path with
  | none => simp
  | some n => cases he : Entity.ofNode? S n <;> simp [he]

end Protobuf

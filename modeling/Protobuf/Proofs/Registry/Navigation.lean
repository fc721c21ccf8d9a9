import Mathlib
import Protobuf.Proofs.Registry.Loaded
import Protobuf.Proofs.Registry.Scoping

/-!
# Going down from what is handed out

From something that has been handed out, what is below it can be reached name by name. Every step
hands out something, so no step leads to a field, a value of an enum, a method or an extension, nor
past one. A path from the root is walked as a whole, and only what stands at its end has to be something
that is handed out. Both ways come to the same, because nothing is found below a node that has no scope.

## Main results

* `Entity.find?_eq` — going down name by name is walking, and looking at the end
* `Registry.Built.find?_eq_some_iff` — going down from what is handed out at a path leads to what is
  handed out at the longer path
-/

namespace Protobuf

namespace Graph

variable {g : Graph}

/-- Without a condition on the end, going to a node is walking. -/
theorem walkTo?_false (start : NodeId) (path : List String) :
    g.walkTo? start path false = g.walk? start path := by
  cases hwalk : g.walk? start path <;> simp [walkTo?, hwalk]

namespace Tree

/-- Nothing is found below a node without a scope. -/
theorem walk?_of_not_hasScope (hg : g.Tree) {n : NodeId} (hn : (g.kind n).hasScope = false)
    {names : List String} (hne : names ≠ []) : g.walk? n names = none := by
  rw [Option.eq_none_iff_forall_ne_some]
  intro m hm
  have hscope := (hg.pathTo_of_walk? hne hm).2.2.2
  rw [hn] at hscope
  cases hscope

/-- A walk leads away from the root. -/
theorem ne_root_of_walk? (hg : g.Tree) {p n : NodeId} {names : List String} (hne : names ≠ [])
    (h : g.walk? p names = some n) : n ≠ root := by
  rintro rfl
  obtain ⟨-, -, hpath, -⟩ := hg.pathTo_of_walk? hne h
  rw [pathTo_of_parent?_eq_none hg.parent?_root] at hpath
  exact hne (List.append_eq_nil_iff.mp hpath.symm).2

/-- A path that is not that of the root is walked from the root, unless a name on it is empty. -/
theorem lookup?_eq_walk? (hg : g.Tree) {path : String} (h : ¬(path = "" ∨ path = ".")) :
    g.lookup? path = if (Path.parts (Path.unanchored path)).contains "" then none
      else g.walk? root (Path.parts (Path.unanchored path)) := by
  rw [lookup?, if_neg h, resolve?]
  have hfirst : ∀ names, (g.ancestors root).findSome? (fun s => g.walkTo? s names false) =
      g.walk? root names := by
    intro names
    rw [ancestors_of_parent?_eq_none hg.parent?_root, List.findSome?_singleton, walkTo?_false]
  rw [hfirst, walkTo?_false, ite_self]

/-- The root is found at its own two paths only. -/
theorem lookup?_eq_root_iff (hg : g.Tree) {path : String} :
    g.lookup? path = some root ↔ path = "" ∨ path = "." := by
  constructor
  · intro h
    by_contra hpath
    rw [hg.lookup?_eq_walk? hpath] at h
    split at h
    · cases h
    · exact hg.ne_root_of_walk? (Path.parts_ne_nil _) h rfl
  · intro h
    rw [lookup?, if_pos h]

/-- What is found at a path without empty names is what is found by walking. -/
theorem lookup?_of_parts (hg : g.Tree) {path : String} (h : ∀ part ∈ Path.parts path, part ≠ "") :
    g.lookup? path = g.walk? root (Path.parts path) := by
  have hpath : ¬(path = "" ∨ path = ".") := by
    rintro (rfl | rfl)
    · exact h "" List.mem_cons_self rfl
    · exact h "" List.mem_cons_self rfl
  rw [hg.lookup?_eq_walk? hpath, Path.unanchored_eq_self (Path.anchored?_eq_none h), if_neg]
  simpa using fun hmem => h "" hmem rfl

/-- From what is found at a path, the walk goes on to what is found at the longer path. -/
theorem lookup?_append (hg : g.Tree) {path more : String} {n : NodeId} (hn : g.lookup? path = some n)
    (hroot : n ≠ root) (hmore : ∀ part ∈ Path.parts more, part ≠ "") :
    g.lookup? (path ++ "." ++ more) = g.walk? n (Path.parts more) := by
  have hpath : ¬(path = "" ∨ path = ".") := fun h =>
    hroot (Option.some.inj (hn.symm.trans (hg.lookup?_eq_root_iff.mpr h)))
  obtain ⟨hempty, hdot⟩ := not_or.mp hpath
  rw [hg.lookup?_eq_walk? hpath] at hn
  split at hn
  · cases hn
  · rename_i hnames
    have hlonger : Path.parts (Path.unanchored (path ++ "." ++ more)) =
        Path.parts (Path.unanchored path) ++ Path.parts more := by
      rw [String.append_assoc, Path.unanchored_append_of_ne hempty, ← String.append_assoc,
        Path.parts_append]
    have hproper : ¬(Path.parts (Path.unanchored path) ++ Path.parts more).contains "" := by
      simp only [List.contains_eq_mem, decide_eq_true_eq] at hnames ⊢
      exact fun hmem => (List.mem_append.mp hmem).elim hnames fun hmem => hmore "" hmem rfl
    have hne : ¬(path ++ "." ++ more = "" ∨ path ++ "." ++ more = ".") := by
      have hchars := Path.toList_ne_nil hempty
      rintro (heq | heq) <;>
        · have hlist := congrArg String.toList heq
          simp [hchars, List.append_eq_singleton_iff] at hlist
    rw [hg.lookup?_eq_walk? hne, hlonger, if_neg hproper, walk?_append, hn, Option.bind_some]

end Tree

end Graph

/-! ### Steps -/

namespace Entity

variable {S : Snapshot} {n : NodeId} {e : Entity}

/-- A step leads to what is handed out below. -/
theorem get?_eq (h : ofNode? S n = some e) (name : String) :
    e.get? name = (S.graph.child? n name).bind (ofNode? S) := by
  rw [get?, (handle_of_ofNode? h).1]
  rfl

/-- What is no scope is not handed out. -/
theorem ofNode?_of_not_hasScope (h : (S.graph.kind n).hasScope = false) : ofNode? S n = none := by
  rw [Option.eq_none_iff_forall_ne_some]
  intro e he
  have hscope := (handle_of_ofNode? he).2
  rw [h] at hscope
  cases hscope

/-- Going down name by name is walking and looking at what stands at the end. -/
theorem find?_eq (hg : S.graph.Tree) (h : ofNode? S n = some e) (path : String) :
    e.find? path = (S.graph.walk? n (Path.parts path)).bind (ofNode? S) := by
  have hwalk : ∀ (names : List String) (n : NodeId) (e : Entity), ofNode? S n = some e →
      names.foldlM get? e = (S.graph.walk? n names).bind (ofNode? S) := by
    intro names
    induction names with
    | nil => exact fun n e h => h.symm
    | cons name more ih =>
      intro n e h
      rw [List.foldlM_cons, Graph.walk?, List.foldlM_cons, get?_eq h]
      cases hc : S.graph.child? n name with
      | none => rfl
      | some c =>
        show (ofNode? S c).bind _ = (S.graph.walk? c more).bind (ofNode? S)
        cases hscope : (S.graph.kind c).hasScope with
        | true =>
          obtain ⟨e', he', -⟩ := exists_ofNode? S hscope
          rw [he']
          exact ih c e' he'
        | false =>
          -- The walk may end here, but it cannot go on.
          rw [ofNode?_of_not_hasScope hscope]
          by_cases hmore : more = []
          · rw [hmore]
            exact (ofNode?_of_not_hasScope hscope).symm
          · rw [hg.walk?_of_not_hasScope hscope hmore]
            rfl
  exact hwalk _ n e h

end Entity

namespace Registry

/-- From what is handed out at a path, going down leads to something exactly if that is handed out at the
longer path. The path from the root has no first part that would stand for the root. -/
theorem Built.find?_eq_some_iff {r : Registry} (hr : r.Built) {path more : String} {e : Entity}
    (he : r.build path = .ok e) (hmore : ∀ part ∈ Path.parts more, part ≠ "") (found : Entity) :
    e.find? more = some found ↔
      r.build (if e.handle.node = Graph.root then more else path ++ "." ++ more) = .ok found := by
  cases hS : r.snapshot with
  | none =>
    rw [build, hS] at he
    cases he
  | some S =>
    have hg : S.graph.Tree := Snapshot.Built.tree ⟨r, hr, hS⟩
    obtain ⟨n, hn, hentity⟩ := (build_eq_ok hS).mp he
    have hnode : e.handle.node = n := by rw [(Entity.handle_of_ofNode? hentity).1]
    have hlonger : S.graph.lookup? (if e.handle.node = Graph.root then more else path ++ "." ++ more) =
        S.graph.walk? n (Path.parts more) := by
      rw [hnode]
      split
      · rename_i hroot
        rw [hroot, hg.lookup?_of_parts hmore]
      · rename_i hroot
        rw [hg.lookup?_append hn hroot hmore]
    rw [Entity.find?_eq hg hentity, build_eq_ok hS, hlonger, Option.bind_eq_some_iff]

end Registry

/-- An enum in a message of a package. -/
def Snapshot.inner : Snapshot where
  stamp := 0
  graph :=
    { nodes := #[
        ⟨"", none, .package { children := [1] }⟩,
        ⟨"a", some 0, .package { children := [2] }⟩,
        ⟨"M", some 1, .message { scope := { children := [3] } }⟩,
        ⟨"E", some 2, .enumeration { children := [4] }⟩,
        ⟨"V", some 3, .enumValue 0 {}⟩]
      extensions := []
      settings := {} }

/-- The text that `Snapshot.inner` comes from. -/
def Snapshot.innerText : String :=
  "package a; message M { enum E { V = 0; } }"

namespace Registry

theorem snapshot_ofText_inner :
    (ofText {} Snapshot.innerText).snapshot = some Snapshot.inner := by
  cbv

/-- The enum is reached from its package by the path it is handed out at, and its value is not. -/
theorem find?_eq_some_iff_inner :
    ∃ r : Registry, r.Built ∧ ∃ a e : Entity, r.build "a" = .ok a ∧ a.handle.node = 1 ∧
      e.handle.node = 3 ∧ a.find? "M.E" = some e ∧ r.build "a.M.E" = .ok e ∧
        ∀ found, a.find? "M.E.V" ≠ some found := by
  have hr : (ofText {} Snapshot.innerText).Built := .resolveAll (.load (.empty {}) _ none) 0
  have hS := snapshot_ofText_inner
  have ha : (ofText {} Snapshot.innerText).build "a" = .ok (.package ⟨⟨Snapshot.inner, 1⟩⟩) :=
    (build_eq_ok hS).mpr ⟨1, by decide, rfl⟩
  have he : (ofText {} Snapshot.innerText).build "a.M.E" =
      .ok (.enumeration ⟨⟨Snapshot.inner, 3⟩⟩) :=
    (build_eq_ok hS).mpr ⟨3, by decide, rfl⟩
  have henum : ∀ part ∈ Path.parts "M.E", part ≠ "" := by decide
  have hvalue : ∀ part ∈ Path.parts "M.E.V", part ≠ "" := by decide
  refine ⟨_, hr, _, .enumeration ⟨⟨Snapshot.inner, 3⟩⟩, ha, rfl, rfl, ?_, he, fun found h => ?_⟩
  · rw [hr.find?_eq_some_iff ha henum, if_neg (by decide)]
    exact he
  · rw [hr.find?_eq_some_iff ha hvalue, if_neg (by decide), build_eq_ok hS] at h
    obtain ⟨node, hnode, hentity⟩ := h
    -- The value has a node, but it is handed out nowhere.
    have hfour : Snapshot.inner.graph.lookup? ("a" ++ "." ++ "M.E.V") = some 4 := by decide
    cases hfour.symm.trans hnode
    cases hentity

end Registry

end Protobuf

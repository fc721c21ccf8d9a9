import Mathlib
import Protobuf.Proofs.Registry.Faithful
import Protobuf.Proofs.Registry.Lookup

/-!
# References from within a scope

Looking up a reference goes down the names of a path from one scope after the other, from the inside
out. What is found there is said here without any walk: going down from a scope finds the node whose
path is that of the scope and the names, and going from the inside out finds it from the innermost
scope that has such a node. The path by which a node is referred to is the shortest end of its path
that is not hidden in this way.

## Main definitions

* `Graph.Answers` — what a path stands for.

## Main results

* `Graph.Branching.findSome?_ancestors` — what is found first on the way up
* `Graph.Tree.walk?_eq_some_iff` — what is found below a node
* `Graph.Tree.resolve?_eq_some_iff`, `Graph.Tree.resolve?_eq_none_iff`,
  `Graph.Tree.resolve?_anchored` — what a path refers to
* `Graph.Tree.shortName_cases` — the short path of a node

## Implementation notes

The field of an extension has the path of the extension and is not found by it, so it answers to no
path. It does count as a scope from which a reference is looked up: then nothing is found below it,
nor below the extension.
-/

namespace Protobuf

namespace Graph

variable {g : Graph}

open Relation (ReflTransGen TransGen)

/-! ### The way up -/

theorem up_of_parent?_eq_none {n m : NodeId} (h : g.parent? n = none)
    (hwalk : ReflTransGen g.Up n m) : m = n := by
  rcases hwalk.cases_head with heq | ⟨p, hup, -⟩
  · exact heq.symm
  · rw [Up, h] at hup
    cases hup

theorem ancestors_of_parent?_eq_none {n : NodeId} (h : g.parent? n = none) :
    g.ancestors n = [n] := by
  rw [ancestors, ancestorsWithin, h]

namespace Branching

/-- The way up leads to smaller numbers. -/
theorem lt_of_up (hg : g.Branching) {n p : NodeId} (h : TransGen g.Up n p) : p < n := by
  induction h with
  | single hup => exact (hg.lt_of_parent? hup).1
  | tail _ hup ih => exact Nat.lt_trans (hg.lt_of_parent? hup).1 ih

/-- The nodes around a node are those that are met on the way up. -/
theorem mem_ancestors (hg : g.Branching) {n m : NodeId} :
    m ∈ g.ancestors n ↔ ReflTransGen g.Up n m := by
  induction n using Nat.strongRecOn with
  | ind n ih =>
    cases hp : g.parent? n with
    | none =>
      rw [ancestors_of_parent?_eq_none hp, List.mem_singleton]
      exact ⟨fun h => h ▸ .refl, up_of_parent?_eq_none hp⟩
    | some p =>
      rw [hg.ancestors_of_parent? hp, List.mem_cons, ih p (hg.lt_of_parent? hp).1]
      constructor
      · rintro (rfl | h)
        · exact .refl
        · exact .head hp h
      · intro h
        rcases h.cases_head with rfl | ⟨q, hup, h⟩
        · exact .inl rfl
        · rw [Up, hp] at hup
          cases hup
          exact .inr h

/-- What is found first on the way up is what the innermost node has that has anything. -/
theorem findSome?_ancestors (hg : g.Branching) {α : Type} (f : NodeId → Option α) {n : NodeId}
    {a : α} : (g.ancestors n).findSome? f = some a ↔ ∃ p, ReflTransGen g.Up n p ∧ f p = some a ∧
      ∀ q, ReflTransGen g.Up n q → TransGen g.Up q p → f q = none := by
  induction n using Nat.strongRecOn with
  | ind n ih =>
    -- Nothing is met before the node where the way begins.
    have hfirst : ∀ q, ReflTransGen g.Up n q → ¬TransGen g.Up q n := fun q hq h =>
      Nat.lt_irrefl _ (hg.lt_of_up (h.trans_right hq))
    cases hp : g.parent? n with
    | none =>
      rw [ancestors_of_parent?_eq_none hp, List.findSome?_singleton]
      constructor
      · exact fun h => ⟨n, .refl, h, fun q hq hqn => absurd hqn (hfirst q hq)⟩
      · rintro ⟨p, hwalk, h, -⟩
        rwa [up_of_parent?_eq_none hp hwalk] at h
    | some p =>
      rw [hg.ancestors_of_parent? hp, List.findSome?_cons]
      cases hn : f n with
      | some b =>
        constructor
        · rintro ⟨⟩
          exact ⟨n, .refl, hn, fun q hq hqn => absurd hqn (hfirst q hq)⟩
        · rintro ⟨m, hwalk, hm, hnone⟩
          rcases hwalk.cases_head with rfl | ⟨q, hup, hwalk⟩
          · exact hn.symm.trans hm
          · have hskip := hnone n .refl (.head' hup hwalk)
            rw [hn] at hskip
            cases hskip
      | none =>
        rw [ih p (hg.lt_of_parent? hp).1]
        constructor
        · rintro ⟨m, hwalk, hm, hnone⟩
          refine ⟨m, .head hp hwalk, hm, fun q hq hqm => ?_⟩
          rcases hq.cases_head with rfl | ⟨p', hup, hq⟩
          · exact hn
          · rw [Up, hp] at hup
            cases hup
            exact hnone q hq hqm
        · rintro ⟨m, hwalk, hm, hnone⟩
          rcases hwalk.cases_head with rfl | ⟨p', hup, hwalk⟩
          · rw [hn] at hm
            cases hm
          · rw [Up, hp] at hup
            cases hup
            exact ⟨m, hwalk, hm, fun q hq => hnone q (.head hp hq)⟩

end Branching

/-! ### Walks -/

theorem walk?_append (start : NodeId) (names more : List String) :
    g.walk? start (names ++ more) = (g.walk? start names).bind (g.walk? · more) :=
  List.foldlM_append

namespace Tree

/-- What is found below a node is no field of an extension, and has one more name on the way to
it. -/
theorem spec_of_child? (hg : g.Tree) {p c : NodeId} {name : String} (h : g.child? p name = some c) :
    c < g.size ∧ (g.kind c).owner? = none ∧ g.pathTo c = g.pathTo p ++ [name] ∧
      (g.kind p).hasScope := by
  have hname := List.find?_some h
  obtain ⟨hp, hscope⟩ := (hg.children p c).mp (List.mem_of_find?_eq_some h)
  refine ⟨lt_size_of_parent? hp, ?_, ?_, hscope⟩
  · cases howner : (g.kind c).owner? with
    | none => rfl
    | some x =>
      have howned := hg.owner c x howner
      have hx := (hg.owned x c howned).1
      rw [hp] at hx
      cases hx
      rw [NodeKind.owned?_of_hasScope hscope] at howned
      cases howned
  · rw [hg.pathTo_of_parent? hp, of_decide_eq_true hname]

theorem pathTo_of_walk? (hg : g.Tree) {p n : NodeId} {names : List String} (hne : names ≠ [])
    (h : g.walk? p names = some n) : n < g.size ∧ (g.kind n).owner? = none ∧
      g.pathTo n = g.pathTo p ++ names ∧ (g.kind p).hasScope := by
  induction names generalizing p with
  | nil => exact absurd rfl hne
  | cons name more ih =>
    rw [walk?, List.foldlM_cons] at h
    obtain ⟨c, hc, h⟩ := Option.bind_eq_some_iff.mp h
    obtain ⟨hlt, howner, hpath, hscope⟩ := hg.spec_of_child? hc
    by_cases hmore : more = []
    · rw [hmore] at h ⊢
      cases h
      exact ⟨hlt, howner, hpath, hscope⟩
    · obtain ⟨hn, hnowner, hnpath, -⟩ := ih hmore h
      refine ⟨hn, hnowner, ?_, hscope⟩
      rw [hnpath, hpath, List.append_assoc]
      rfl

/-- The names that lead from a node to another one are what the way from the root to the latter has
in addition. The field of an extension stands for the extension, and nothing is found below
either. -/
theorem walk?_eq_some_iff (hg : g.Tree) {p n : NodeId} (hp : p < g.size) {names : List String}
    (hne : names ≠ []) : g.walk? p names = some n ↔ n < g.size ∧ (g.kind n).owner? = none ∧
      g.pathTo n = g.pathTo (g.representative p) ++ names := by
  constructor
  · intro h
    obtain ⟨hn, howner, hpath, hscope⟩ := hg.pathTo_of_walk? hne h
    rw [representative_eq, NodeKind.owner?_of_hasScope hscope]
    exact ⟨hn, howner, hpath⟩
  · rintro ⟨hn, howner, hpath⟩
    obtain ⟨hlt, hrowner⟩ := hg.representative_spec hp
    have hwalk := hg.walk?_pathTo hn howner
    rw [hpath, walk?_append, hg.walk?_pathTo hlt hrowner, Option.bind_some] at hwalk
    have hscope := (hg.pathTo_of_walk? hne hwalk).2.2.2
    rw [representative_eq] at hwalk hscope
    cases hpowner : (g.kind p).owner? with
    | none =>
      rw [hpowner] at hwalk
      exact hwalk
    | some x =>
      rw [hpowner, Option.getD_some] at hscope
      have howned := hg.owner p x hpowner
      rw [NodeKind.owned?_of_hasScope hscope] at howned
      cases howned

end Tree

/-! ### References -/

theorem Tree.fqn_root (hg : g.Tree) : g.fqn root = "" := by
  rw [fqn_of_owner? (NodeKind.owner?_of_hasScope hg.root.2),
    pathTo_of_parent?_eq_none hg.parent?_root]
  rfl

/-- The node has the path and, if that is asked for, a scope. The field of an extension has no path
of its own. -/
structure Answers (g : Graph) (path : String) (scopesOnly : Bool) (n : NodeId) : Prop where
  lt : n < g.size
  owner : (g.kind n).owner? = none
  fqn : g.fqn n = path
  scope : scopesOnly → (g.kind n).hasScope

theorem answers_iff (hnames : g.PlainNames) {p n : NodeId} {name : String} {scopesOnly : Bool} :
    g.Answers (g.fqn p ++ "." ++ name) scopesOnly n ↔ (n < g.size ∧ (g.kind n).owner? = none ∧
      g.pathTo n = g.pathTo (g.representative p) ++ Path.parts name) ∧
        (scopesOnly → (g.kind n).hasScope) := by
  have hpath : g.fqn p ++ "." ++ name =
      Path.dotted (g.pathTo (g.representative p) ++ Path.parts name) := by
    rw [Path.dotted_append, Path.dotted_parts, ← fqn_eq, String.append_assoc]
  have hplain : ∀ part ∈ g.pathTo (g.representative p) ++ Path.parts name, Path.Plain part :=
    List.forall_mem_append.mpr ⟨hnames.pathTo _, fun part => Path.plain_of_mem_parts⟩
  constructor
  · rintro ⟨hlt, howner, hfqn, hscope⟩
    rw [hpath, fqn_of_owner? howner] at hfqn
    exact ⟨⟨hlt, howner, Path.dotted_inj (hnames.pathTo n) hplain hfqn⟩, hscope⟩
  · rintro ⟨⟨hlt, howner, hpath'⟩, hscope⟩
    refine ⟨hlt, howner, ?_, hscope⟩
    rw [hpath, fqn_of_owner? howner, hpath']

namespace Tree

variable (hg : g.Tree) (hnames : g.PlainNames)

include hg hnames

/-- What is found below a node is what has the path of the node and the names for its path. -/
theorem walkTo?_eq_some_iff {p n : NodeId} (hp : p < g.size) {name : String} {scopesOnly : Bool} :
    g.walkTo? p (Path.parts name) scopesOnly = some n ↔
      g.Answers (g.fqn p ++ "." ++ name) scopesOnly n := by
  rw [walkTo?, Option.filter_eq_some_iff, hg.walk?_eq_some_iff hp (Path.parts_ne_nil name),
    answers_iff hnames]
  simp [imp_iff_not_or]

theorem walkTo?_eq_none_iff {p : NodeId} (hp : p < g.size) {name : String} {scopesOnly : Bool} :
    g.walkTo? p (Path.parts name) scopesOnly = none ↔
      ∀ n, ¬g.Answers (g.fqn p ++ "." ++ name) scopesOnly n := by
  rw [Option.eq_none_iff_forall_ne_some]
  exact forall_congr' fun n => not_congr (hg.walkTo?_eq_some_iff hnames hp)

omit hg hnames in
theorem resolve?_of_parts {scope : NodeId} {name : String} {scopesOnly : Bool}
    (hname : ∀ part ∈ Path.parts name, part ≠ "") : g.resolve? scope name scopesOnly =
      (g.ancestors scope).findSome? fun s => g.walkTo? s (Path.parts name) scopesOnly := by
  have hanchored := Path.anchored?_eq_none hname
  have hcontains : ¬(Path.parts name).contains "" := by
    simpa using fun hmem => hname "" hmem rfl
  rw [resolve?, Path.unanchored_eq_self hanchored, if_neg hcontains, hanchored]
  rfl

/-- A relative path refers to what has it for its path from the innermost scope where there is such
a thing. -/
theorem resolve?_eq_some_iff {scope n : NodeId} (hscope : scope < g.size) {name : String}
    {scopesOnly : Bool} (hname : ∀ part ∈ Path.parts name, part ≠ "") :
    g.resolve? scope name scopesOnly = some n ↔ ∃ p, ReflTransGen g.Up scope p ∧
      g.Answers (g.fqn p ++ "." ++ name) scopesOnly n ∧
        ∀ q, ReflTransGen g.Up scope q → TransGen g.Up q p →
          ∀ m, ¬g.Answers (g.fqn q ++ "." ++ name) scopesOnly m := by
  rw [resolve?_of_parts hname, hg.findSome?_ancestors]
  refine exists_congr fun p => and_congr_right fun hp => ?_
  refine and_congr (hg.walkTo?_eq_some_iff hnames (hg.lt_size_of_walk hscope hp)) ?_
  refine forall_congr' fun q => imp_congr_right fun hq => imp_congr_right fun _ => ?_
  exact hg.walkTo?_eq_none_iff hnames (hg.lt_size_of_walk hscope hq)

theorem resolve?_eq_none_iff {scope : NodeId} (hscope : scope < g.size) {name : String}
    {scopesOnly : Bool} (hname : ∀ part ∈ Path.parts name, part ≠ "") :
    g.resolve? scope name scopesOnly = none ↔ ∀ p, ReflTransGen g.Up scope p →
      ∀ n, ¬g.Answers (g.fqn p ++ "." ++ name) scopesOnly n := by
  rw [resolve?_of_parts hname, List.findSome?_eq_none_iff]
  refine forall_congr' fun p => ?_
  rw [hg.mem_ancestors]
  exact imp_congr_right fun hp => hg.walkTo?_eq_none_iff hnames (hg.lt_size_of_walk hscope hp)

/-- A path with a leading dot refers to what has that path, from wherever. -/
theorem resolve?_anchored {scope n : NodeId} {name : String} {scopesOnly : Bool}
    (hname : ∀ part ∈ Path.parts name, part ≠ "") :
    g.resolve? scope ("." ++ name) scopesOnly = some n ↔ g.Answers ("." ++ name) scopesOnly n := by
  have hcontains : ¬(Path.parts name).contains "" := by
    simpa using fun hmem => hname "" hmem rfl
  have hwalk : g.walkTo? root (Path.parts name) scopesOnly = some n ↔
      g.Answers (g.fqn root ++ "." ++ name) scopesOnly n :=
    hg.walkTo?_eq_some_iff hnames hg.root.1
  rw [hg.fqn_root, String.empty_append] at hwalk
  rw [resolve?, Path.unanchored_append, if_neg hcontains, Path.anchored?_append]
  exact hwalk

end Tree

/-! ### Paths from the root -/

theorem Tree.findable (hg : g.Tree) (hnames : g.PlainNames) (hnamed : g.NamedNodes) {n : NodeId}
    (hn : n < g.size) (howner : (g.kind n).owner? = none) : g.Findable n := by
  refine ⟨hn, howner, fun name hname => ?_⟩
  have hproper := hg.proper_pathTo hnames hnamed hn name hname
  exact ⟨hproper.plain, hproper.ne_empty⟩

theorem Findable.fqn_eq_append {n : NodeId} (h : g.Findable n) (hne : g.pathTo n ≠ []) :
    g.fqn n = "." ++ Path.join (g.pathTo n) := by
  rw [fqn_of_owner? h.2.1, Path.dotted_eq_append_join hne]

theorem Findable.parts {n : NodeId} (h : g.Findable n) {names : List String}
    (hsuffix : names <:+ g.pathTo n) (hne : names ≠ []) :
    Path.parts (Path.join names) = names ∧ ∀ part ∈ names, part ≠ "" :=
  ⟨Path.parts_join hne fun name hname => (h.2.2 name (hsuffix.subset hname)).1,
    fun name hname => (h.2.2 name (hsuffix.subset hname)).2⟩

theorem Tree.pathTo_eq_nil_iff (hg : g.Tree) {n : NodeId} (hn : n < g.size) :
    g.pathTo n = [] ↔ n = root := by
  constructor
  · intro hnil
    by_contra hroot
    obtain ⟨p, -, hp⟩ := hg.parent n hn hroot
    exact hg.pathTo_ne_nil hp hnil
  · rintro rfl
    exact pathTo_of_parent?_eq_none hg.parent?_root

/-- The field of an extension has the path of the extension. -/
theorem Tree.spec_of_owner? (hg : g.Tree) {n x : NodeId} (h : (g.kind n).owner? = some x) :
    x < g.size ∧ (g.kind x).owner? = none ∧ g.fqn n = g.fqn x := by
  have howned := hg.owner n x h
  have howner := NodeKind.owner?_of_owned? howned
  refine ⟨lt_size_of_owned? howned, howner, ?_⟩
  rw [fqn_eq, representative_eq, h, fqn_of_owner? howner]
  rfl

/-- What stands for two different nodes is one of them, the other one being its field. -/
theorem Tree.eq_or_owner? (hg : g.Tree) {a b : NodeId}
    (h : g.representative a = g.representative b) :
    a = b ∨ (g.kind a).owner? = some b ∨ (g.kind b).owner? = some a := by
  rw [representative_eq, representative_eq] at h
  cases ha : (g.kind a).owner? with
  | none =>
    cases hb : (g.kind b).owner? with
    | none =>
      rw [ha, hb] at h
      exact .inl h
    | some y =>
      rw [ha, hb] at h
      exact .inr (.inr (congrArg some h.symm))
  | some x =>
    cases hb : (g.kind b).owner? with
    | none =>
      rw [ha, hb] at h
      exact .inr (.inl (congrArg some h))
    | some y =>
      -- An extension has one field.
      rw [ha, hb] at h
      have hxy : x = y := h
      have hfield := hg.owner a x ha
      rw [hxy, hg.owner b y hb] at hfield
      exact .inl (Option.some.inj hfield).symm

/-- A node is found at its path also without the leading dot. -/
theorem Tree.lookup?_unanchored (hg : g.Tree) (hnames : g.PlainNames) {n : NodeId}
    (hn : g.Findable n) : g.lookup? (Path.unanchored (g.fqn n)) = some n := by
  by_cases hnil : g.pathTo n = []
  · have hroot := (hg.pathTo_eq_nil_iff hn.1).mp hnil
    rw [fqn_of_owner? hn.2.1, hnil, hroot]
    rfl
  · obtain ⟨hparts, hproper⟩ := hn.parts List.suffix_rfl hnil
    have hfqn := hn.fqn_eq_append hnil
    rw [hfqn, Path.unanchored_append, lookup?, if_neg]
    · refine (hg.resolve?_eq_some_iff hnames hg.root.1 (by rwa [hparts])).mpr
        ⟨root, .refl, ⟨hn.1, hn.2.1, ?_, by simp⟩, fun q hq hqroot => ?_⟩
      · rw [hfqn, hg.fqn_root]
        rfl
      · rw [up_of_parent?_eq_none hg.parent?_root hq] at hqroot
        exact absurd (hg.lt_of_up hqroot) (Nat.lt_irrefl _)
    · -- Neither the empty path nor the dot has names for its parts.
      rintro (hempty | hdot)
      · rw [hempty] at hparts
        exact hproper "" (hparts ▸ List.mem_cons_self) rfl
      · rw [hdot] at hparts
        exact hproper "" (hparts ▸ List.mem_cons_self) rfl

/-! ### Short paths -/

theorem find?_reverse_range (f : Nat → Bool) {n k : Nat} :
    (List.range n).reverse.find? f = some k ↔ k < n ∧ f k ∧ ∀ j, k < j → j < n → f j = false := by
  induction n with
  | zero => simp
  | succ n ih =>
    rw [List.range_succ, List.reverse_append, List.reverse_singleton, List.singleton_append,
      List.find?_cons]
    cases hn : f n with
    | true =>
      constructor
      · rintro ⟨⟩
        exact ⟨Nat.lt_succ_self _, hn, fun j hj hlt => absurd hlt (by omega)⟩
      · rintro ⟨hlt, -, hlast⟩
        by_contra hne
        have hkn : k < n := by
          refine Nat.lt_of_le_of_ne (Nat.le_of_lt_succ hlt) fun heq => hne ?_
          rw [heq]
        rw [hlast n hkn (Nat.lt_succ_self n)] at hn
        cases hn
    | false =>
      rw [ih]
      constructor
      · rintro ⟨hlt, hk, hlast⟩
        refine ⟨Nat.lt_succ_of_lt hlt, hk, fun j hj hjn => ?_⟩
        rcases Nat.lt_succ_iff_lt_or_eq.mp hjn with hjn | rfl
        · exact hlast j hj hjn
        · exact hn
      · rintro ⟨hlt, hk, hlast⟩
        refine ⟨?_, hk, fun j hj hjn => hlast j hj (Nat.lt_succ_of_lt hjn)⟩
        rcases Nat.lt_succ_iff_lt_or_eq.mp hlt with hlt | rfl
        · exact hlt
        · rw [hn] at hk
          cases hk

namespace Tree

variable (hg : g.Tree) (hnames : g.PlainNames)

include hg hnames

/-- A path that refers to a node still does so if nothing but scopes is let in, in case the node is
one, and anything otherwise. -/
theorem resolve?_hasScope {scope n : NodeId} (hscope : scope < g.size) {name : String}
    {scopesOnly : Bool} (hname : ∀ part ∈ Path.parts name, part ≠ "")
    (h : g.resolve? scope name scopesOnly = some n) :
    g.resolve? scope name (g.kind n).hasScope = some n := by
  obtain ⟨p, hp, hn, hnone⟩ := (hg.resolve?_eq_some_iff hnames hscope hname).mp h
  refine (hg.resolve?_eq_some_iff hnames hscope hname).mpr
    ⟨p, hp, ⟨hn.lt, hn.owner, hn.fqn, id⟩, fun q hq hqp m hm => hnone q hq hqp m ?_⟩
  refine ⟨hm.lt, hm.owner, hm.fqn, fun honly => hm.scope (hn.scope honly)⟩

/-- A node is found at its path from within any scope. -/
theorem resolve?_fqn {scope n : NodeId} (hn : g.Findable n) (hroot : n ≠ root) :
    g.resolve? scope (g.fqn n) (g.kind n).hasScope = some n := by
  have hne : g.pathTo n ≠ [] := fun hnil => hroot ((hg.pathTo_eq_nil_iff hn.1).mp hnil)
  obtain ⟨hparts, hproper⟩ := hn.parts List.suffix_rfl hne
  have hfqn := hn.fqn_eq_append hne
  rw [hfqn]
  exact (hg.resolve?_anchored hnames (by rwa [hparts])).mpr ⟨hn.1, hn.2.1, hfqn, id⟩

/-- If the end of the path of a node does not refer to it, it does not do so either where anything
is let in. -/
theorem resolve?_ne_of_drop {scope n : NodeId} (hscope : scope < g.size) (hn : g.Findable n)
    {names : List String} (hsuffix : names <:+ g.pathTo n)
    (h : names ≠ [] → g.resolve? scope (Path.join names) (g.kind n).hasScope ≠ some n)
    (scopesOnly : Bool) : g.resolve? scope (Path.join names) scopesOnly ≠ some n := by
  by_cases hnil : names = []
  · rw [hnil]
    exact (Option.some_ne_none n).symm
  · intro hres
    obtain ⟨hparts, hproper⟩ := hn.parts hsuffix hnil
    exact h hnil (hg.resolve?_hasScope hnames hscope (by rwa [hparts]) hres)

/-- The short path of a node is the shortest end of its path that refers to it, or its path from the
root if none does. -/
theorem shortName_cases {scope n : NodeId} (hscope : scope < g.size) (hn : g.Findable n) :
    (∃ names, names <:+ g.pathTo n ∧ names ≠ [] ∧ g.shortName scope n = Path.join names ∧
      g.resolve? scope (Path.join names) (g.kind n).hasScope = some n ∧
        ∀ shorter, shorter <:+ g.pathTo n → shorter.length < names.length → ∀ scopesOnly,
          g.resolve? scope (Path.join shorter) scopesOnly ≠ some n) ∨
      (g.shortName scope n = g.fqn n ∧ ∀ names, names <:+ g.pathTo n → ∀ scopesOnly,
        g.resolve? scope (Path.join names) scopesOnly ≠ some n) := by
  -- without its first `k` names, the path still refers to the node
  let found (k : Nat) : Bool :=
    g.resolve? scope (Path.join ((g.pathTo n).drop k)) (g.kind n).hasScope = some n
  have hshort : g.shortName scope n =
      (((List.range (g.pathTo n).length).reverse.find? found).map
        fun k => Path.join ((g.pathTo n).drop k)).getD (g.fqn n) := by
    rw [shortName, List.find?_map]
    rfl
  cases hfind : (List.range (g.pathTo n).length).reverse.find? found with
  | some k =>
    obtain ⟨hlt, hk, hlast⟩ := (find?_reverse_range found).mp hfind
    refine .inl ⟨_, List.drop_suffix k _, ?_, ?_, of_decide_eq_true hk,
      fun shorter hsuffix hshorter =>
        hg.resolve?_ne_of_drop hnames hscope hn hsuffix fun hne => ?_⟩
    · rw [← List.length_pos_iff, List.length_drop]
      exact Nat.sub_pos_of_lt hlt
    · rw [hshort, hfind]
      rfl
    · have hpos := List.length_pos_iff.mpr hne
      rw [List.length_drop] at hshorter
      rw [List.suffix_iff_eq_drop.mp hsuffix]
      exact of_decide_eq_false (hlast _ (by omega) (by omega))
  | none =>
    refine .inr ⟨?_, fun names hsuffix => hg.resolve?_ne_of_drop hnames hscope hn hsuffix
      fun hne => ?_⟩
    · rw [hshort, hfind]
      rfl
    · have hpos := List.length_pos_iff.mpr hne
      have hle := hsuffix.length_le
      have hnone := List.find?_eq_none.mp hfind ((g.pathTo n).length - names.length)
        (List.mem_reverse.mpr (List.mem_range.mpr (by omega)))
      rw [List.suffix_iff_eq_drop.mp hsuffix]
      exact fun hres => hnone (decide_eq_true hres)

end Tree

end Graph

end Protobuf

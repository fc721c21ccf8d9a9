import Protobuf.Proofs.Registry.Coupled

/-!
# Graphs put together

A file is added to a graph that has other definitions already. What is common to the two is a chain
of packages, from the root to where the paths of the packages part. Below the last of them the file
puts what it would put into an empty graph, in the same order, under numbers that come after those
that are taken.

So the graph with the file is made of two graphs, that of what was there before and that of the file
alone, which share the chain. This holds at every moment while the file is added, as long as it brings
no name to the end of the chain that is taken there.

## Main definitions

* `Graph.Chain` — packages stand one below the other, and are the first nodes of the graph.
* `Graph.aside` — the numbers of nodes that are put beside the nodes of another graph.
* `Graph.Merged` — a graph is made of two graphs that share a chain.
* `Graph.groundBeside` — where additions to the second graph are additions to the whole.

## Main results

* `Graph.coupling_merged` — what is added to the second graph is added to the whole in the same way
-/

namespace Protobuf

namespace Graph

variable {g g' h P : Graph} {names : List String}

/-! ### Nodes -/

theorem node_eq (n : NodeId) : g.node n = ⟨g.name n, g.parent? n, g.kind n⟩ :=
  rfl

theorem node_push (x : Node) (n : NodeId) :
    Graph.node { g with nodes := g.nodes.push x } n = if n = g.size then x else g.node n := by
  simp only [node, size, Array.getD_eq_getD_getElem?, Array.getElem?_push]
  split <;> rfl

theorem node_mapKind (id n : NodeId) (change : NodeKind → NodeKind) :
    (g.mapKind id change).node n =
      if id = n ∧ n < g.size then { g.node n with kind := change (g.kind n) } else g.node n := by
  rw [node_eq, name_mapKind, parent?_mapKind, kind_mapKind]
  split <;> rfl

/-- A change that leaves the kind of a node alone is none. -/
theorem mapKind_eq_self {id : NodeId} {change : NodeKind → NodeKind}
    (h : change (g.kind id) = g.kind id) : g.mapKind id change = g := by
  refine eq_of_kind_eq (size_mapKind id change) rfl rfl (fun n _ => name_mapKind id n change)
    (fun n _ => parent?_mapKind id n change) fun n _ => ?_
  rw [kind_mapKind]
  split
  · rename_i hn
    rw [← hn.1, h]
  · rfl

/-! ### Chains of packages -/

/-- Packages of the given names stand one below the other, from the root on. They are the first nodes
of the graph, and nothing else is below any of them but the last. -/
structure Chain (names : List String) (g : Graph) : Prop where
  lt : names.length < g.size
  name_root : g.name root = ""
  parent?_root : g.parent? root = none
  name : ∀ i (h : i < names.length), g.name (i + 1) = names[i]
  parent? : ∀ i < names.length, g.parent? (i + 1) = some i
  package : ∀ i ≤ names.length, (g.kind i).isPackage
  children : ∀ i < names.length, g.children i = [i + 1]

/-- The chain is kept if its nodes are. -/
theorem Chain.congr (hg : g.Chain names) (hsize : g.size ≤ g'.size)
    (hname : ∀ n ≤ names.length, g'.name n = g.name n)
    (hparent : ∀ n ≤ names.length, g'.parent? n = g.parent? n)
    (hpackage : ∀ n ≤ names.length, (g'.kind n).isPackage = (g.kind n).isPackage)
    (hchildren : ∀ n < names.length, g'.children n = g.children n) : g'.Chain names where
  lt := Nat.lt_of_lt_of_le hg.lt hsize
  name_root := (hname root (Nat.zero_le _)).trans hg.name_root
  parent?_root := (hparent root (Nat.zero_le _)).trans hg.parent?_root
  name i hi := (hname (i + 1) hi).trans (hg.name i hi)
  parent? i hi := (hparent (i + 1) hi).trans (hg.parent? i hi)
  package i hi := (hpackage i hi).trans (hg.package i hi)
  children i hi := (hchildren i hi).trans (hg.children i hi)

/-- A chain is kept while the graph grows at its end. -/
theorem Chain.grown {p : NodeId} (hg : g.Chain names) (h : g.Grown p g')
    (hp : names.length ≤ p) : g'.Chain names := by
  have hlt : ∀ {n}, n ≤ names.length → n < g.size := fun hn => Nat.lt_of_le_of_lt hn hg.lt
  exact hg.congr h.size (fun n hn => h.name (hlt hn)) (fun n hn => h.parent? (hlt hn))
    (fun n hn => h.isPackage (hlt hn)) fun n hn =>
      h.children n (hlt (Nat.le_of_lt hn)) (Nat.ne_of_lt (Nat.lt_of_lt_of_le hn hp))

theorem Chain.of_append {more : List String} (hg : g.Chain (names ++ more)) : g.Chain names := by
  have hle : names.length ≤ (names ++ more).length := by simp
  refine ⟨Nat.lt_of_le_of_lt hle hg.lt, hg.name_root, hg.parent?_root, fun i hi => ?_,
    fun i hi => hg.parent? i (Nat.lt_of_lt_of_le hi hle),
    fun i hi => hg.package i (Nat.le_trans hi hle),
    fun i hi => hg.children i (Nat.lt_of_lt_of_le hi hle)⟩
  rw [hg.name i (Nat.lt_of_lt_of_le hi hle), List.getElem_append_left hi]

/-- Two chains of the same names have the same nodes, but for options and dialects. -/
theorem Chain.head_eq (hg : g.Chain names) (hg' : g'.Chain names) {n : NodeId}
    (hn : n ≤ names.length) : g'.name n = g.name n ∧ g'.parent? n = g.parent? n := by
  cases n with
  | zero =>
    exact ⟨hg'.name_root.trans hg.name_root.symm, hg'.parent?_root.trans hg.parent?_root.symm⟩
  | succ i =>
    exact ⟨(hg'.name i hn).trans (hg.name i hn).symm, (hg'.parent? i hn).trans (hg.parent? i hn).symm⟩

namespace Chain

variable (hg : g.Chain names)

include hg

theorem kind_push (x : Node) {n : NodeId} (hn : n ≤ names.length) :
    Graph.kind { g with nodes := g.nodes.push x } n = g.kind n := by
  rw [Graph.kind_push, if_neg (Nat.ne_of_lt (Nat.lt_of_le_of_lt hn hg.lt))]

/-- A node that nobody lists yet may be put behind all others. -/
theorem push (x : Node) : Graph.Chain names { g with nodes := g.nodes.push x } := by
  have hne : ∀ {n}, n ≤ names.length → n ≠ g.size := fun hn =>
    Nat.ne_of_lt (Nat.lt_of_le_of_lt hn hg.lt)
  refine hg.congr ?_ (fun n hn => ?_) (fun n hn => ?_) (fun n hn => ?_) fun n hn => ?_
  · simp [Graph.size]
  · rw [name_push, if_neg (hne hn)]
  · rw [parent?_push, if_neg (hne hn)]
  · rw [hg.kind_push x hn]
  · exact congrArg NodeKind.children (hg.kind_push x (Nat.le_of_lt hn))

theorem children_push (x : Node) :
    Graph.children { g with nodes := g.nodes.push x } names.length = g.children names.length :=
  congrArg NodeKind.children (hg.kind_push x (Nat.le_refl _))

/-- Nodes behind a chain may change freely. -/
theorem mapKind_behind {p : NodeId} (hp : names.length < p) (change : NodeKind → NodeKind) :
    (g.mapKind p change).Chain names ∧
      (g.mapKind p change).children names.length = g.children names.length := by
  have hkind : ∀ n ≤ names.length, (g.mapKind p change).kind n = g.kind n := fun n hn => by
    rw [kind_mapKind, if_neg fun h => Nat.ne_of_gt (Nat.lt_of_le_of_lt hn hp) h.1]
  refine ⟨hg.congr (Nat.le_of_eq (size_mapKind p change).symm) (fun n _ => name_mapKind p n change)
    (fun n _ => parent?_mapKind p n change) (fun n hn => by rw [hkind n hn]) fun n hn => ?_, ?_⟩
  · exact congrArg NodeKind.children (hkind n (Nat.le_of_lt hn))
  · exact congrArg NodeKind.children (hkind _ (Nat.le_refl _))

/-- The end of a chain may get more below it. -/
theorem mapKind_end {change : NodeKind → NodeKind} {more : List NodeId}
    (hpackage : ∀ k, (change k).isPackage = k.isPackage)
    (hchange : ∀ k : NodeKind, k.isPackage → (change k).children = k.children ++ more) :
    (g.mapKind names.length change).Chain names ∧
      (g.mapKind names.length change).children names.length =
        g.children names.length ++ more := by
  refine ⟨hg.congr (Nat.le_of_eq (size_mapKind _ _).symm) (fun n _ => name_mapKind _ n _)
    (fun n _ => parent?_mapKind _ n _) (fun n _ => ?_) fun n hn => congrArg NodeKind.children ?_, ?_⟩
  · rw [kind_mapKind]
    split
    · exact hpackage _
    · rfl
  · rw [kind_mapKind, if_neg fun h => Nat.ne_of_gt hn h.1]
  · show NodeKind.children _ = _
    rw [kind_mapKind, if_pos ⟨rfl, hg.lt⟩]
    exact hchange _ (hg.package _ (Nat.le_refl _))

end Chain

/-! ### Numbers beside others -/

/-- The number of a node that is put beside the nodes of a graph of the given size. The nodes up to
`last` are common to both, the others come after those of the graph. -/
def aside (last size n : Nat) : Nat :=
  if n ≤ last then n else n + size - (last + 1)

section Aside

variable {last size n m : Nat}

theorem aside_of_le (h : n ≤ last) : aside last size n = n :=
  if_pos h

theorem aside_of_lt (h : last < n) : aside last size n = n + size - (last + 1) :=
  if_neg (Nat.not_le.mpr h)

theorem size_le_aside (h : last < n) : size ≤ aside last size n := by
  rw [aside_of_lt h]
  omega

theorem aside_inj (hlast : last < size) : aside last size n = aside last size m ↔ n = m := by
  constructor
  · intro h
    rw [aside, aside] at h
    split at h <;> split at h <;> omega
  · exact congrArg _

/-- A number that is put aside is none of those that were there. -/
theorem aside_ne (h : last < n) (hm : m < size) : aside last size n ≠ m :=
  Nat.ne_of_gt (Nat.lt_of_lt_of_le hm (size_le_aside h))

end Aside

/-! ### Graphs made of two -/

/-- The graph `g` is made of `P` and `h`, which begin with the same chain. All nodes of `P` are there
under their numbers, those of `h` are put aside, and the end of the chain lists what it has below it
in both. -/
structure Merged (names : List String) (P h g : Graph) : Prop where
  part : h.Chain names
  whole : g.Chain names
  settings : g.settings = P.settings ∧ h.settings = P.settings
  size : g.size + (names.length + 1) = P.size + h.size
  host : g.children names.length =
    P.children names.length ++ (h.children names.length).map (aside names.length P.size)
  old : ∀ n, names.length < n → n < P.size → g.node n = P.node n
  new : ∀ n, names.length < n →
    g.node (aside names.length P.size n) = (h.node n).rename (aside names.length P.size)

/-- Additions to the second graph may be made below the nodes of its own, and at the end of the chain
under names that are not taken in the first graph. -/
def groundBeside (names : List String) (P : Graph) : Ground where
  inner n := names.length < n
  free p name := names.length < p ∨
    p = names.length ∧ ∀ c ∈ P.children names.length, P.name c ≠ name
  free_of_inner hp _ := .inl hp

/-- Nothing has been added to the chain yet. -/
theorem merged_self (hP : P.Chain names) (hh : h.Chain names)
    (hsettings : h.settings = P.settings) (hsize : h.size = names.length + 1)
    (hchildren : h.children names.length = []) : Merged names P h P := by
  refine ⟨hh, hP, ⟨rfl, hsettings⟩, by rw [hsize], ?_, fun _ _ _ => rfl, fun n hn => ?_⟩
  · rw [hchildren]
    exact (List.append_nil _).symm
  · rw [node_of_size_le (size_le_aside hn), node_of_size_le (hsize ▸ hn), Node.rename_root]

namespace Merged

variable (hm : Merged names P h g)

include hm

theorem next (i : Nat) : aside names.length P.size (h.size + i) = g.size + i := by
  have hsize := hm.size
  have hlt := hm.part.lt
  rw [aside_of_lt (Nat.lt_of_lt_of_le hlt (Nat.le_add_right _ _))]
  omega

theorem name (n : NodeId) : g.name (aside names.length P.size n) = h.name n := by
  rcases Nat.lt_or_ge names.length n with hlt | hle
  · have hname := congrArg Node.name (hm.new n hlt)
    exact hname
  · rw [aside_of_le hle]
    exact (hm.part.head_eq hm.whole hle).1

theorem kind {n : NodeId} (hn : names.length < n) :
    g.kind (aside names.length P.size n) = (h.kind n).rename (aside names.length P.size) := by
  have hkind := congrArg Node.kind (hm.new n hn)
  exact hkind

theorem oneof?_isSome (n : NodeId) :
    (g.oneof? (aside names.length P.size n)).isSome = (h.oneof? n).isSome := by
  rcases Nat.lt_or_ge names.length n with hlt | hle
  · rw [oneof?, oneof?, hm.kind hlt]
    cases h.kind n <;> rfl
  · obtain ⟨s, hs⟩ := exists_scope_of_isPackage (hm.whole.package n hle)
    obtain ⟨s', hs'⟩ := exists_scope_of_isPackage (hm.part.package n hle)
    rw [aside_of_le hle, oneof?, oneof?, hs, hs']

theorem hasFieldId (id : UInt32) (n : NodeId) :
    g.hasFieldId id (aside names.length P.size n) = h.hasFieldId id n := by
  rcases Nat.lt_or_ge names.length n with hlt | hle
  · rw [Graph.hasFieldId, Graph.hasFieldId, field?, field?, hm.kind hlt]
    cases h.kind n <;> rfl
  · obtain ⟨s, hs⟩ := exists_scope_of_isPackage (hm.whole.package n hle)
    obtain ⟨s', hs'⟩ := exists_scope_of_isPackage (hm.part.package n hle)
    rw [aside_of_le hle, Graph.hasFieldId, Graph.hasFieldId, field?, field?, hs, hs']

/-- A name leads to the same node in both, wherever additions may be made under that name. -/
theorem child? (hP : P.Branching) {p : NodeId} {name : String}
    (hp : (groundBeside names P).free p name) :
    g.child? (aside names.length P.size p) name =
      (h.child? p name).map (aside names.length P.size) := by
  have hfind : ((h.children p).map (aside names.length P.size)).find?
      (fun c => decide (g.name c = name)) =
        (h.child? p name).map (aside names.length P.size) := by
    rw [List.find?_map, Graph.child?]
    refine congrArg _ (congrArg (fun f => (h.children p).find? f) (funext fun c => ?_))
    exact congrArg (fun n => decide (n = name)) (hm.name c)
  rw [Graph.child?, ← hfind]
  rcases hp with hlt | ⟨rfl, hfree⟩
  · have hchildren : g.children (aside names.length P.size p) =
        (h.children p).map (aside names.length P.size) := by
      show (g.kind _).children = _
      rw [hm.kind hlt, NodeKind.children_rename]
      rfl
    rw [hchildren]
  · have hnone : (P.children names.length).find? (fun c => decide (g.name c = name)) = none := by
      refine List.find?_eq_none.mpr fun c hc => ?_
      obtain ⟨hlt, hsize⟩ := hP.lt_of_mem_children hc
      have hname : g.name c = P.name c := congrArg Node.name (hm.old c hlt hsize)
      simpa [hname] using hfree c hc
    rw [aside_of_le (Nat.le_refl _), hm.host, List.find?_append, hnone, Option.none_or]

theorem mirrors (hP : P.Branching) :
    Mirrors (aside names.length P.size) P.settings False (groundBeside names P) g h where
  fieldName := ⟨congrArg Settings.fieldName hm.settings.1,
    congrArg Settings.fieldName hm.settings.2⟩
  next := hm.next
  inner := hm.part.lt
  child? _ _ hp := hm.child? hP hp
  face n hn := by rw [hm.kind hn]
  oneof := hm.oneof?_isSome
  numbers p hp id := by
    rw [ownFields_eq, ownFields_eq, hm.kind hp, NodeKind.ownFields_rename, List.any_map]
    exact congrArg (fun f => (h.kind p).ownFields.any f) (funext (hm.hasFieldId id))
  fqn := False.elim
  scopeName := False.elim

/-! ### What is added to both -/

/-- A node that nobody lists yet is put beside the others. -/
theorem push {x : Node} (y : Node) (hy : y = x.rename (aside names.length P.size)) :
    Merged names P { h with nodes := h.nodes.push x } { g with nodes := g.nodes.push y } := by
  have hsize : ∀ (g : Graph) (x : Node),
      Graph.size { g with nodes := g.nodes.push x } = g.size + 1 := fun g x => by simp [Graph.size]
  refine ⟨hm.part.push x, hm.whole.push y, hm.settings, ?_, ?_, fun n hn hlt => ?_, fun n hn => ?_⟩
  · have := hm.size
    rw [hsize, hsize]
    omega
  · rw [hm.part.children_push x, hm.whole.children_push y]
    exact hm.host
  · have hle : P.size ≤ g.size := by
      have := hm.size
      have := hm.part.lt
      omega
    rw [node_push, if_neg (Nat.ne_of_lt (Nat.lt_of_lt_of_le hlt hle))]
    exact hm.old n hn hlt
  · have hnext : aside names.length P.size n = g.size ↔ n = h.size := by
      have hPsize := hm.size
      have := hm.whole.lt
      have := hm.part.lt
      rw [aside_of_lt hn]
      omega
    rw [node_push, node_push]
    by_cases heq : n = h.size
    · rw [if_pos heq, if_pos (hnext.mpr heq)]
      exact hy
    · rw [if_neg heq, if_neg fun h => heq (hnext.mp h)]
      exact hm.new n hn

/-- A node of the second graph is changed in the whole as well. -/
theorem mapInner (hP : P.Chain names) {p : NodeId} (hp : names.length < p)
    {change change' : NodeKind → NodeKind}
    (hchange : ∀ k, (change k).rename (aside names.length P.size) =
      change' (k.rename (aside names.length P.size))) :
    Merged names P (h.mapKind p change) (g.mapKind (aside names.length P.size p) change') := by
  have hfar : P.size ≤ aside names.length P.size p := size_le_aside hp
  obtain ⟨hpart, hlist⟩ := hm.part.mapKind_behind hp change
  obtain ⟨hwhole, hlist'⟩ := hm.whole.mapKind_behind (Nat.lt_of_lt_of_le hP.lt hfar) change'
  refine ⟨hpart, hwhole, hm.settings, ?_, ?_, fun n hn hlt => ?_, fun n hn => ?_⟩
  · rw [size_mapKind, size_mapKind]
    exact hm.size
  · rw [hlist, hlist']
    exact hm.host
  · rw [node_mapKind, if_neg fun h => Nat.ne_of_gt (Nat.lt_of_lt_of_le hlt hfar) h.1]
    exact hm.old n hn hlt
  · have hcond : aside names.length P.size p = aside names.length P.size n ∧
        aside names.length P.size n < g.size ↔ p = n ∧ n < h.size := by
      refine and_congr (aside_inj hP.lt) ?_
      have := hm.size
      have := hP.lt
      rw [aside_of_lt hn]
      omega
    rw [node_mapKind, node_mapKind, hm.new n hn]
    by_cases hif : p = n ∧ n < h.size
    · rw [if_pos hif, if_pos (hcond.mpr hif), hm.kind hn, ← hchange]
      rfl
    · rw [if_neg hif, if_neg (mt hcond.mp hif)]

/-- The end of the chain is changed in both. -/
theorem mapHost (hP : P.Chain names) {change change' : NodeKind → NodeKind}
    (more : List NodeId) (hpackage : ∀ k, (change k).isPackage = k.isPackage)
    (hpackage' : ∀ k, (change' k).isPackage = k.isPackage)
    (hchange : ∀ k : NodeKind, k.isPackage → (change k).children = k.children ++ more)
    (hchange' : ∀ k : NodeKind, k.isPackage →
      (change' k).children = k.children ++ more.map (aside names.length P.size)) :
    Merged names P (h.mapKind names.length change) (g.mapKind names.length change') := by
  obtain ⟨hpart, hlist⟩ := hm.part.mapKind_end hpackage hchange
  obtain ⟨hwhole, hlist'⟩ := hm.whole.mapKind_end hpackage' hchange'
  refine ⟨hpart, hwhole, hm.settings, ?_, ?_, fun n hn hlt => ?_, fun n hn => ?_⟩
  · rw [size_mapKind, size_mapKind]
    exact hm.size
  · rw [hlist, hlist', hm.host, List.map_append, List.append_assoc]
  · rw [node_mapKind, if_neg fun h => Nat.ne_of_lt hn h.1]
    exact hm.old n hn hlt
  · rw [node_mapKind, node_mapKind, if_neg fun h => aside_ne hn hP.lt h.1.symm,
      if_neg fun h => Nat.ne_of_lt hn h.1]
    exact hm.new n hn

/-- What a package gets as options, it gets in both. -/
theorem mapOptions (hP : P.Chain names) {p : NodeId} (hp : names.length ≤ p)
    (change : Options → Options) :
    Merged names P (h.mapKind p (·.mapScope fun s => { s with options := change s.options }))
      (g.mapKind (aside names.length P.size p)
        (·.mapScope fun s => { s with options := change s.options })) := by
  rcases Nat.eq_or_lt_of_le hp with rfl | hlt
  · rw [aside_of_le (Nat.le_refl _)]
    have hpackage : ∀ k : NodeKind,
        (k.mapScope fun s => { s with options := change s.options }).isPackage = k.isPackage :=
      fun k => by cases k <;> rfl
    have hchildren : ∀ k : NodeKind,
        (k.mapScope fun s => { s with options := change s.options }).children = k.children ++ [] :=
      fun k => by rw [List.append_nil]; cases k <;> rfl
    exact hm.mapHost hP [] hpackage hpackage (fun k _ => hchildren k)
      fun k _ => hchildren k
  · exact hm.mapInner hP hlt (NodeKind.mapOptions_rename _ · change)

end Merged

section Listed

variable {k : NodeKind} (kind : NodeKind) (id : NodeId)

theorem isPackage_listed : ((k.adopt id kind).mapScope fun s =>
    { s with children := s.children ++ [id] }).isPackage = k.isPackage := by
  cases k <;> cases kind <;> rfl

/-- A package lists what is added to it. -/
theorem children_listed (hk : k.isPackage) : ((k.adopt id kind).mapScope fun s =>
    { s with children := s.children ++ [id] }).children = k.children ++ [id] := by
  obtain ⟨s, rfl⟩ := exists_scope_of_isPackage hk
  rfl

theorem addMember_of_isPackage (hk : k.isPackage) : k.addMember id = k := by
  obtain ⟨s, rfl⟩ := exists_scope_of_isPackage hk
  rfl

end Listed

/-- What is added to the second graph is added to the whole in the same way. -/
theorem coupling_merged (hP : P.Chain names) (htree : P.Branching) :
    Coupling (aside names.length P.size) P.settings False (groundBeside names P)
      fun g h => Merged names P h g where
  mirrors hm := hm.mirrors htree
  add {g h p name kind id h'} := by
    intro hm hfree hfield hadd
    have hmirrors := hm.mirrors htree
    obtain ⟨hchild, hnumber, rfl, rfl⟩ := add_eq_ok.mp hadd
    have hid : aside names.length P.size h.size = g.size := hm.next 0
    refine ⟨_, add_eq_ok.mpr ⟨?_, ?_, hid, rfl⟩, ?_⟩
    · rw [hmirrors.child? p name hfree, hchild]
      rfl
    · intro f hf
      cases kind with
      | field f' =>
        cases hf
        have hsame := hmirrors.numbers p (hfield rfl) f'.id
        have hnumber' := hnumber f' rfl
        rw [← hsame] at hnumber'
        exact hnumber'
      | _ => cases hf
    · have hpush := hm.push (x := ⟨name, some p, kind⟩)
        ⟨name, some (aside names.length P.size p), kind.rename (aside names.length P.size)⟩ rfl
      rcases hfree with hlt | ⟨rfl, -⟩
      · refine hpush.mapInner hP hlt fun k => ?_
        rw [← hid]
        exact NodeKind.adopt_rename _ k kind h.size
      · rw [aside_of_le (Nat.le_refl _)] at hpush ⊢
        rw [← hid]
        exact hpush.mapHost hP [h.size] (fun _ => isPackage_listed kind _)
          (fun _ => isPackage_listed (kind.rename _) _) (fun _ => children_listed kind _)
          fun _ => children_listed (kind.rename _) _
  addMember {g h o id} := by
    intro hm
    rcases Nat.lt_or_ge names.length o with hlt | hle
    · exact hm.mapInner hP hlt (NodeKind.addMember_rename _ · id)
    · -- a package of the chain has no members, so nothing happens in either graph
      rw [aside_of_le hle, mapKind_eq_self (addMember_of_isPackage _ (hm.whole.package o hle)),
        mapKind_eq_self (addMember_of_isPackage id (hm.part.package o hle))]
      exact hm

end Graph

end Protobuf

import Protobuf.Registry.Create

/-!
# Sound graphs

What can be judged without looking up references holds of a graph at any time, whatever has been
added to it and wherever an addition was refused: field numbers tell the fields of a message apart,
and a oneof and its members know each other. That members are optional is a matter of the texts
that graphs are made from; a graph takes what it is given.

Adding a node changes the graph in three ways only: there is one node more, and its parent may have
gained a child and a field. `Graph.Added` says so for everything that soundness speaks of.

## Main definitions

* `Graph.Numbered` — the numbers of fields tell them apart.
* `Graph.Sound` — what holds of a graph whatever has been added.
* `Graph.Added` — what adding a node changes.

## Main results

* `Graph.added_of_add` — adding a node changes no more than that
* `Graph.Sound.add`, `Graph.Sound.addMember` — soundness is kept
-/

namespace Protobuf

namespace NodeKind

/-- The fields of a message node of its own. -/
def ownFields : NodeKind → List NodeId
  | .message m => m.fields
  | _ => []

/-! ### What changes of a parent leave alone -/

theorem mapScope_eq_field {change : Scope → Scope} {k : NodeKind} {f : FieldNode} :
    k.mapScope change = .field f ↔ k = .field f := by
  cases k <;> simp [mapScope]

theorem mapScope_eq_oneof {change : Scope → Scope} {k : NodeKind} {c : OneofNode} :
    k.mapScope change = .oneof c ↔ k = .oneof c := by
  cases k <;> simp [mapScope]

theorem ownFields_mapScope (change : Scope → Scope) (k : NodeKind) :
    (k.mapScope change).ownFields = k.ownFields := by
  cases k <;> rfl

theorem adopt_eq_field {k kind : NodeKind} {child : NodeId} {f : FieldNode} :
    k.adopt child kind = .field f ↔ k = .field f := by
  cases k <;> cases kind <;> simp [adopt]

theorem adopt_eq_oneof {k kind : NodeKind} {child : NodeId} {c : OneofNode} :
    k.adopt child kind = .oneof c ↔ k = .oneof c := by
  cases k <;> cases kind <;> simp [adopt]

/-- A message takes a field that is added below it for its own; nothing else does so. -/
theorem ownFields_adopt (k kind : NodeKind) (child : NodeId) :
    (k.adopt child kind).ownFields = k.ownFields ∨
      (∃ f, kind = .field f) ∧ (k.adopt child kind).ownFields = k.ownFields ++ [child] := by
  cases k <;> cases kind <;> simp [adopt, ownFields]

end NodeKind

/-- The field as it was declared, without what its texts refer to. -/
def FieldNode.unlinked (f : FieldNode) : FieldNode :=
  { f with link := none }

namespace Graph

variable {g g' : Graph}

/-- The field nodes have different numbers. -/
def DifferentIds (g : Graph) (a b : NodeId) : Prop :=
  ∀ f f', g.field? a = some f → g.field? b = some f' → f.id ≠ f'.id

/-- The fields of messages are fields, and their numbers tell them apart. -/
structure Numbered (g : Graph) : Prop where
  owned : ∀ m, ∀ n ∈ g.ownFields m, ∃ f, g.field? n = some f
  distinct : ∀ m, (g.ownFields m).Pairwise g.DifferentIds

/-- What holds of a graph whatever has been added to it. -/
structure Sound (g : Graph) : Prop where
  fieldId : ∀ n f, g.field? n = some f → f.id ≠ 0
  owned : ∀ m, ∀ n ∈ g.ownFields m, ∃ f, g.field? n = some f
  distinct : ∀ m, (g.ownFields m).Pairwise g.DifferentIds
  member : ∀ n f o, g.field? n = some f → f.oneof = some o →
    f.rule = .optional ∧ ∃ c, g.oneof? o = some c ∧ n ∈ c.fields
  listed : ∀ o c, g.oneof? o = some c → ∀ n ∈ c.fields, ∃ f, g.field? n = some f ∧ f.oneof = some o

/-! ### Kinds of nodes -/

theorem field?_eq_some {n : NodeId} {f : FieldNode} :
    g.field? n = some f ↔ g.kind n = .field f := by
  rw [field?]
  cases g.kind n <;> simp

theorem oneof?_eq_some {n : NodeId} {c : OneofNode} :
    g.oneof? n = some c ↔ g.kind n = .oneof c := by
  rw [oneof?]
  cases g.kind n <;> simp

theorem ownFields_eq (m : NodeId) : g.ownFields m = (g.kind m).ownFields := by
  rw [ownFields, message?]
  cases g.kind m <;> rfl

theorem hasFieldId_iff {id : UInt32} {n : NodeId} :
    g.hasFieldId id n ↔ ∃ f, g.field? n = some f ∧ f.id = id := by
  rw [hasFieldId]
  cases g.field? n <;> simp

theorem node_of_size_le {n : NodeId} (h : g.size ≤ n) : g.node n = .root := by
  rw [node, Array.getD_eq_getD_getElem?, Array.getElem?_eq_none h]
  rfl

theorem kind_of_size_le {n : NodeId} (h : g.size ≤ n) : g.kind n = .package {} := by
  rw [kind, node_of_size_le h]
  rfl

theorem lt_size_of_field? {n : NodeId} {f : FieldNode} (h : g.field? n = some f) : n < g.size := by
  rcases Nat.lt_or_ge n g.size with hlt | hle
  · exact hlt
  · rw [field?_eq_some, kind_of_size_le hle] at h
    cases h

theorem kind_mapKind (id n : NodeId) (change : NodeKind → NodeKind) :
    (g.mapKind id change).kind n =
      if id = n ∧ n < g.size then change (g.kind n) else g.kind n := by
  simp only [kind, node, mapKind, size, Array.getD_eq_getD_getElem?, Array.getElem?_modify]
  by_cases hid : id = n
  · by_cases hlt : n < g.nodes.size
    · simp [hid, hlt]
    · simp [hid, hlt]
  · simp [hid]

theorem kind_push (x : Node) (n : NodeId) :
    Graph.kind { g with nodes := g.nodes.push x } n =
      if n = g.size then x.kind else g.kind n := by
  simp only [kind, node, size, Array.getD_eq_getD_getElem?, Array.getElem?_push]
  split <;> rfl

/-! ### Adding a node -/

/-- What adding a node of the given kind below `parent` changes. -/
structure Added (g : Graph) (parent : NodeId) (kind : NodeKind) (g' : Graph) : Prop where
  field? : ∀ n f, g'.field? n = some f ↔ n = g.size ∧ kind = .field f ∨ g.field? n = some f
  oneof? : ∀ n c, g'.oneof? n = some c ↔ n = g.size ∧ kind = .oneof c ∨ g.oneof? n = some c
  ownFields : ∀ n, g'.ownFields n = g.ownFields n ∨
    n = parent ∧ (∃ f, kind = .field f) ∧ g'.ownFields n = g.ownFields n ++ [g.size]
  newId : ∀ f, kind = .field f → ∀ n ∈ g.ownFields parent, ¬g.hasFieldId f.id n

/-- What adoption leaves alone is there afterwards if it was there before or has been added. -/
theorem kind_adopted_eq_iff {parent n : NodeId} {kind k : NodeKind} {x : Node} (hx : x.kind = kind)
    {change : Scope → Scope}
    (hk : ∀ k', (k'.adopt g.size kind).mapScope change = k ↔ k' = k) :
    (mapKind { g with nodes := g.nodes.push x } parent fun k' =>
      (k'.adopt g.size kind).mapScope change).kind n = k ↔
      if n = g.size then kind = k else g.kind n = k := by
  rw [kind_mapKind, kind_push, hx]
  by_cases hn : n = g.size
  · rw [if_pos hn, if_pos hn]
    split
    · exact hk kind
    · rfl
  · rw [if_neg hn, if_neg hn]
    split
    · exact hk (g.kind n)
    · rfl

/-- The graph with one node more, as its parent sees it. -/
theorem added_push {parent : NodeId} {kind : NodeKind} (hkind : kind.ownFields = [])
    (hnew : ∀ f, kind = .field f → ∀ n ∈ g.ownFields parent, ¬g.hasFieldId f.id n) (x : Node)
    (hx : x.kind = kind) (change : Scope → Scope) :
    g.Added parent kind (mapKind { g with nodes := g.nodes.push x } parent fun k =>
      (k.adopt g.size kind).mapScope change) := by
  have hbeyond : g.kind g.size = .package {} := kind_of_size_le (Nat.le_refl _)
  refine ⟨fun n f => ?_, fun n c => ?_, fun n => ?_, hnew⟩
  · rw [field?_eq_some, field?_eq_some, kind_adopted_eq_iff hx fun k' => by
      rw [NodeKind.mapScope_eq_field, NodeKind.adopt_eq_field]]
    by_cases hn : n = g.size
    · simp [hn, hbeyond]
    · simp [hn]
  · rw [oneof?_eq_some, oneof?_eq_some, kind_adopted_eq_iff hx fun k' => by
      rw [NodeKind.mapScope_eq_oneof, NodeKind.adopt_eq_oneof]]
    by_cases hn : n = g.size
    · simp [hn, hbeyond]
    · simp [hn]
  · have hfields : (Graph.kind { g with nodes := g.nodes.push x } n).ownFields =
        g.ownFields n := by
      rw [kind_push, hx, ownFields_eq]
      split
      · rename_i hn
        rw [hkind, hn, hbeyond]
        rfl
      · rfl
    rw [ownFields_eq, kind_mapKind]
    split
    · rename_i hparent
      rw [NodeKind.ownFields_mapScope, ← hfields]
      exact (NodeKind.ownFields_adopt _ kind g.size).imp id fun h => ⟨hparent.1.symm, h⟩
    · exact .inl hfields

/-- A node is added if its name, and its number if it is a field, are new where it is added. -/
theorem add_eq_ok {parent id : NodeId} {name : String} {kind : NodeKind} :
    g.add parent name kind = .ok (id, g') ↔ g.child? parent name = none ∧
      (∀ f, kind = .field f → ¬(g.ownFields parent).any (g.hasFieldId f.id) = true) ∧
      id = g.size ∧ g' = mapKind { g with nodes := g.nodes.push ⟨name, some parent, kind⟩ } parent
        fun k => (k.adopt g.size kind).mapScope fun s =>
          { s with children := s.children ++ [g.size] } := by
  have hfree : ∀ {c : Option NodeId}, ¬c.isSome = true ↔ c = none := by simp
  simp only [add]
  split
  · rename_i hchild
    constructor
    · intro h
      cases h
    · rintro ⟨hnone, -⟩
      rw [hnone] at hchild
      cases hchild
  · rename_i hchild
    rw [hfree] at hchild
    split
    · rename_i f
      split
      · rename_i hany
        constructor
        · intro h
          cases h
        · rintro ⟨-, hfields, -⟩
          exact absurd hany (hfields f rfl)
      · rename_i hany
        constructor
        · intro h
          cases h
          exact ⟨hchild, fun f' hf' => by cases hf'; exact hany, rfl, rfl⟩
        · rintro ⟨-, -, rfl, rfl⟩
          rfl
    · rename_i hfield
      constructor
      · intro h
        cases h
        exact ⟨hchild, fun f hf => absurd hf (hfield f), rfl, rfl⟩
      · rintro ⟨-, -, rfl, rfl⟩
        rfl

/-- Adding a node changes no more than that. -/
theorem added_of_add {parent id : NodeId} {name : String} {kind : NodeKind}
    (hkind : kind.ownFields = []) (h : g.add parent name kind = .ok (id, g')) :
    id = g.size ∧ g.Added parent kind g' := by
  obtain ⟨-, hfields, rfl, rfl⟩ := add_eq_ok.mp h
  refine ⟨rfl, added_push hkind (fun f hf n hn hid => ?_) _ rfl _⟩
  exact hfields f hf (List.any_eq_true.mpr ⟨n, hn, hid⟩)

/-! ### Lists of oneofs -/

section Listing

variable {o : NodeId} {c c' : OneofNode} {change : NodeKind → NodeKind}

/-- A change of a oneof is seen in the oneof only. -/
theorem kind_mapKind_oneof (hc : g.oneof? o = some c) (hchange : change (.oneof c) = .oneof c')
    (n : NodeId) : (g.mapKind o change).kind n = if n = o then .oneof c' else g.kind n := by
  have hkind : g.kind o = .oneof c := oneof?_eq_some.mp hc
  have hlt : o < g.size := by
    rcases Nat.lt_or_ge o g.size with hlt | hle
    · exact hlt
    · rw [kind_of_size_le hle] at hkind
      cases hkind
  rw [kind_mapKind]
  by_cases hn : o = n
  · rw [if_pos ⟨hn, hn ▸ hlt⟩, if_pos hn.symm, ← hn, hkind, hchange]
  · rw [if_neg fun h => hn h.1, if_neg fun h => hn h.symm]

theorem field?_mapKind_oneof (hc : g.oneof? o = some c) (hchange : change (.oneof c) = .oneof c')
    (n : NodeId) : (g.mapKind o change).field? n = g.field? n := by
  refine Option.ext fun f => ?_
  rw [field?_eq_some, field?_eq_some, kind_mapKind_oneof hc hchange]
  by_cases hn : n = o
  · simp [hn, oneof?_eq_some.mp hc]
  · rw [if_neg hn]

theorem ownFields_mapKind_oneof (hc : g.oneof? o = some c)
    (hchange : change (.oneof c) = .oneof c') (m : NodeId) :
    (g.mapKind o change).ownFields m = g.ownFields m := by
  rw [ownFields_eq, ownFields_eq, kind_mapKind_oneof hc hchange]
  split
  · rename_i heq
    rw [heq, oneof?_eq_some.mp hc]
    rfl
  · rfl

theorem oneof?_mapKind_oneof (hc : g.oneof? o = some c) (hchange : change (.oneof c) = .oneof c')
    (n : NodeId) : (g.mapKind o change).oneof? n = if n = o then some c' else g.oneof? n := by
  refine Option.ext fun x => ?_
  rw [oneof?_eq_some, kind_mapKind_oneof hc hchange]
  by_cases hn : n = o
  · simp [hn]
  · rw [if_neg hn, if_neg hn, oneof?_eq_some]

end Listing

/-! ### Scopes -/

section Scopes

variable (id : NodeId) (change : Scope → Scope) (n : NodeId)

theorem field?_mapScope : (g.mapKind id (·.mapScope change)).field? n = g.field? n := by
  refine Option.ext fun f => ?_
  rw [field?_eq_some, field?_eq_some, kind_mapKind]
  split
  · exact NodeKind.mapScope_eq_field
  · rfl

theorem oneof?_mapScope : (g.mapKind id (·.mapScope change)).oneof? n = g.oneof? n := by
  refine Option.ext fun c => ?_
  rw [oneof?_eq_some, oneof?_eq_some, kind_mapKind]
  split
  · exact NodeKind.mapScope_eq_oneof
  · rfl

theorem ownFields_mapScope : (g.mapKind id (·.mapScope change)).ownFields n = g.ownFields n := by
  rw [ownFields_eq, ownFields_eq, kind_mapKind]
  split
  · exact NodeKind.ownFields_mapScope _ _
  · rfl

end Scopes

/-! ### Numbers are kept apart -/

namespace Numbered

variable {parent : NodeId} {kind : NodeKind}

/-- A field that was there keeps its number, so that it still differs from others. -/
theorem differentIds_of_added (hg : g.Numbered) (h : g.Added parent kind g') {m a b : NodeId}
    (ha : a ∈ g.ownFields m) (hb : b ∈ g.ownFields m) (hab : g.DifferentIds a b) :
    g'.DifferentIds a b := by
  have hback : ∀ n ∈ g.ownFields m, ∀ f, g'.field? n = some f → g.field? n = some f := by
    intro n hn f hf
    rcases (h.field? n f).mp hf with ⟨hsize, -⟩ | hf
    · obtain ⟨f', hf'⟩ := hg.owned m n hn
      exact absurd hsize (Nat.ne_of_lt (lt_size_of_field? hf'))
    · exact hf
  intro f f' hf hf'
  exact hab f f' (hback a ha f hf) (hback b hb f' hf')

/-- Numbers still tell the fields of a message apart, and all of them are fields. -/
theorem added (hg : g.Numbered) (h : g.Added parent kind g') : g'.Numbered := by
  have howned : ∀ m, ∀ n ∈ g.ownFields m, ∃ f, g'.field? n = some f := by
    intro m n hn
    obtain ⟨f, hf⟩ := hg.owned m n hn
    exact ⟨f, (h.field? n f).mpr (.inr hf)⟩
  have hdistinct : ∀ m, (g.ownFields m).Pairwise g'.DifferentIds := fun m =>
    List.Pairwise.imp_of_mem (fun ha hb hab => hg.differentIds_of_added h ha hb hab)
      (hg.distinct m)
  refine ⟨fun m => ?_, fun m => ?_⟩ <;>
    rcases h.ownFields m with heq | ⟨rfl, ⟨f, hkind⟩, heq⟩ <;> rw [heq]
  · exact howned m
  · have hnew : g'.field? g.size = some f := (h.field? _ f).mpr (.inl ⟨rfl, hkind⟩)
    intro n hn
    rcases List.mem_append.mp hn with hn | hn
    · exact howned m n hn
    · rw [List.mem_singleton.mp hn]
      exact ⟨f, hnew⟩
  · exact hdistinct m
  · have hnew : g'.field? g.size = some f := (h.field? _ f).mpr (.inl ⟨rfl, hkind⟩)
    refine List.pairwise_append.mpr ⟨hdistinct m, List.pairwise_singleton _ _, ?_⟩
    intro n hn n' hn' fn fn' hfn hfn' hid
    rw [List.mem_singleton.mp hn', hnew] at hfn'
    cases hfn'
    refine h.newId f hkind n hn ?_
    obtain ⟨fn', hfn'⟩ := hg.owned m n hn
    have heq' := (h.field? n fn').mpr (.inr hfn')
    rw [hfn] at heq'
    cases heq'
    exact hasFieldId_iff.mpr ⟨fn, hfn', hid⟩

/-- Numbers are a matter of the declarations of fields, not of what they refer to. -/
theorem congr (hg : g.Numbered)
    (hfield : ∀ n, (g'.field? n).map FieldNode.unlinked = (g.field? n).map FieldNode.unlinked)
    (hown : ∀ m, g'.ownFields m = g.ownFields m) : g'.Numbered := by
  have hids : ∀ n, (g'.field? n).map FieldNode.id = (g.field? n).map FieldNode.id := by
    intro n
    have h := congrArg (Option.map FieldNode.id) (hfield n)
    rw [Option.map_map, Option.map_map] at h
    exact h
  refine ⟨fun m n hn => ?_, fun m => ?_⟩
  · obtain ⟨f, hf⟩ := hg.owned m n (hown m ▸ hn)
    have h := hids n
    rw [hf, Option.map_some] at h
    obtain ⟨f', hf', -⟩ := Option.map_eq_some_iff.mp h
    exact ⟨f', hf'⟩
  · rw [hown]
    refine List.Pairwise.imp (fun {a b} hab fa fb hfa hfb hid => ?_) (hg.distinct m)
    have ha := hids a
    have hb := hids b
    rw [hfa, Option.map_some] at ha
    rw [hfb, Option.map_some] at hb
    obtain ⟨fa', hfa', hida⟩ := Option.map_eq_some_iff.mp ha.symm
    obtain ⟨fb', hfb', hidb⟩ := Option.map_eq_some_iff.mp hb.symm
    exact hab fa' fb' hfa' hfb' ((hida.trans hid).trans hidb.symm)

end Numbered

/-! ### Soundness is kept -/

namespace Sound

variable {parent : NodeId} {kind : NodeKind}

theorem numbered (hg : g.Sound) : g.Numbered :=
  ⟨hg.owned, hg.distinct⟩

/-- Soundness is kept by adding a node that belongs to no oneof and has no members. -/
theorem add (hg : g.Sound) (h : g.Added parent kind g')
    (hfield : ∀ f, kind = .field f → f.id ≠ 0 ∧ f.oneof = none)
    (honeof : ∀ c, kind = .oneof c → c.fields = []) : g'.Sound := by
  have hnumbered := hg.numbered.added h
  constructor
  case fieldId =>
    intro n f hf
    rcases (h.field? n f).mp hf with ⟨-, hkind⟩ | hf
    · exact (hfield f hkind).1
    · exact hg.fieldId n f hf
  case owned => exact hnumbered.owned
  case distinct => exact hnumbered.distinct
  case member =>
    intro n f o hf ho
    rcases (h.field? n f).mp hf with ⟨-, hkind⟩ | hf
    · rw [(hfield f hkind).2] at ho
      cases ho
    · obtain ⟨hrule, c, hc, hn⟩ := hg.member n f o hf ho
      exact ⟨hrule, c, (h.oneof? o c).mpr (.inr hc), hn⟩
  case listed =>
    intro o c hc n hn
    rcases (h.oneof? o c).mp hc with ⟨-, hkind⟩ | hc
    · rw [honeof c hkind] at hn
      cases hn
    · obtain ⟨f, hf, ho⟩ := hg.listed o c hc n hn
      exact ⟨f, (h.field? n f).mpr (.inr hf), ho⟩

/-- Soundness is kept by adding a member of a oneof, once the oneof has it in its list. -/
theorem addMember (hg : g.Sound) {f : FieldNode} (h : g.Added parent (.field f) g')
    (hid : f.id ≠ 0) (hrule : f.rule = .optional) {o : NodeId} (ho : f.oneof = some o)
    {c : OneofNode} (hc : g.oneof? o = some c) {change : NodeKind → NodeKind}
    (honeof : ∀ c, change (.oneof c) = .oneof { c with fields := c.fields ++ [g.size] }) :
    (g'.mapKind o change).Sound := by
  have hc' : g'.oneof? o = some c := (h.oneof? o c).mpr (.inr hc)
  have hfield := field?_mapKind_oneof hc' (honeof c)
  have hnumbered : (g'.mapKind o change).Numbered := (hg.numbered.added h).congr
    (fun n => congrArg _ (hfield n)) (ownFields_mapKind_oneof hc' (honeof c))
  have hnew : g'.field? g.size = some f := (h.field? _ f).mpr (.inl ⟨rfl, rfl⟩)
  constructor
  case fieldId =>
    intro n f' hf'
    rw [hfield] at hf'
    rcases (h.field? n f').mp hf' with ⟨-, hkind⟩ | hf'
    · cases hkind
      exact hid
    · exact hg.fieldId n f' hf'
  case owned => exact hnumbered.owned
  case distinct => exact hnumbered.distinct
  case member =>
    intro n f' o' hf' ho'
    rw [hfield] at hf'
    rw [oneof?_mapKind_oneof hc' (honeof c)]
    rcases (h.field? n f').mp hf' with ⟨rfl, hkind⟩ | hf'
    · cases hkind
      rw [ho] at ho'
      cases ho'
      exact ⟨hrule, _, if_pos rfl, by simp⟩
    · obtain ⟨hrule', c', hoc, hn⟩ := hg.member n f' o' hf' ho'
      refine ⟨hrule', ?_⟩
      -- the list of the oneof has become longer, or is that of another oneof
      by_cases heq : o' = o
      · rw [heq, hc] at hoc
        cases hoc
        exact ⟨_, if_pos heq, List.mem_append_left _ hn⟩
      · exact ⟨c', by rw [if_neg heq, (h.oneof? o' c').mpr (.inr hoc)], hn⟩
  case listed =>
    intro o' c' hoc n hn
    have hold : ∀ c'', g.oneof? o' = some c'' → n ∈ c''.fields →
        ∃ f, g'.field? n = some f ∧ f.oneof = some o' := by
      intro c'' hc'' hn''
      obtain ⟨f', hf', ho'⟩ := hg.listed o' c'' hc'' n hn''
      exact ⟨f', (h.field? n f').mpr (.inr hf'), ho'⟩
    rw [oneof?_mapKind_oneof hc' (honeof c)] at hoc
    rw [hfield]
    split at hoc
    · rename_i heq
      cases hoc
      rcases List.mem_append.mp hn with hn | hn
      · exact hold c (heq ▸ hc) hn
      · rw [List.mem_singleton.mp hn]
        exact ⟨f, hnew, heq ▸ ho⟩
    · rcases (h.oneof? o' c').mp hoc with ⟨-, hkind⟩ | hoc
      · cases hkind
      · exact hold c' hoc hn

/-- Soundness speaks of the declarations of fields only, not of what they refer to. -/
theorem congr (hg : g.Sound)
    (hfield : ∀ n, (g'.field? n).map FieldNode.unlinked = (g.field? n).map FieldNode.unlinked)
    (honeof : ∀ n, g'.oneof? n = g.oneof? n) (hown : ∀ m, g'.ownFields m = g.ownFields m) :
    g'.Sound := by
  have hback : ∀ n f', g'.field? n = some f' → ∃ f, g.field? n = some f ∧
      f'.id = f.id ∧ f'.rule = f.rule ∧ f'.oneof = f.oneof := by
    intro n f' hf'
    have h := hfield n
    rw [hf', Option.map_some] at h
    obtain ⟨f, hf, heq⟩ := Option.map_eq_some_iff.mp h.symm
    have hid := congrArg FieldNode.id heq
    have hrule := congrArg FieldNode.rule heq
    have ho := congrArg FieldNode.oneof heq
    exact ⟨f, hf, hid.symm, hrule.symm, ho.symm⟩
  have hforth : ∀ n f, g.field? n = some f → ∃ f', g'.field? n = some f' ∧ f'.oneof = f.oneof := by
    intro n f hf
    have h := hfield n
    rw [hf, Option.map_some] at h
    obtain ⟨f', hf', heq⟩ := Option.map_eq_some_iff.mp h
    have ho := congrArg FieldNode.oneof heq
    exact ⟨f', hf', ho⟩
  have hnumbered := hg.numbered.congr hfield hown
  refine ⟨fun n f' hf' => ?_, hnumbered.owned, hnumbered.distinct, fun n f' o hf' ho => ?_,
    fun o c hc n hn => ?_⟩
  · obtain ⟨f, hf, hid, -⟩ := hback n f' hf'
    rw [hid]
    exact hg.fieldId n f hf
  · obtain ⟨f, hf, -, hrule, hoeq⟩ := hback n f' hf'
    rw [hrule, honeof]
    exact hg.member n f o hf (hoeq ▸ ho)
  · obtain ⟨f, hf, ho⟩ := hg.listed o c (honeof o ▸ hc) n hn
    obtain ⟨f', hf', hoeq⟩ := hforth n f hf
    exact ⟨f', hf', hoeq.trans ho⟩

/-- Soundness does not depend on scopes. -/
theorem mapScope (hg : g.Sound) (id : NodeId) (change : Scope → Scope) :
    (g.mapKind id (·.mapScope change)).Sound :=
  hg.congr (fun n => congrArg _ (field?_mapScope id change n)) (oneof?_mapScope id change)
    (ownFields_mapScope id change)

end Sound

theorem kind_empty (settings : Settings) (n : NodeId) : (empty settings).kind n = .package {} := by
  cases n <;> rfl

theorem sound_empty (settings : Settings) : (empty settings).Sound := by
  have hfield : ∀ n, (empty settings).field? n = none := fun n => by rw [field?, kind_empty]
  have honeof : ∀ n, (empty settings).oneof? n = none := fun n => by rw [oneof?, kind_empty]
  have hown : ∀ m, (empty settings).ownFields m = [] := fun m => by
    rw [ownFields_eq, kind_empty]
    rfl
  exact ⟨by simp [hfield], by simp [hown], by simp [hown], by simp [hfield], by simp [honeof]⟩

end Graph

end Protobuf

import Protobuf.Proofs.Action
import Protobuf.Proofs.Graph.Linked
import Protobuf.Registry.Link

/-!
# Linking gives linked graphs

Linking replaces nodes one by one and keeps what they declare, so a linked graph is sound if the
graph was. What it adds is judged by the graph as it was before.

## Main definitions

* `Graph.LinkStep` — what linking makes of a node.
* `Graph.LinkedKind` — what it keeps of the node.
* `Graph.LinkedBy` — how a whole graph is linked, node by node.

## Main results

* `Graph.Sound.link` — linking a sound graph gives a linked one
-/

namespace Protobuf

namespace Graph

variable {g : Graph}

/-! ### Defaults -/

theorem holds_of_explicitDefault {f : FieldNode} {t : FieldType} {c : Constant} {a : Atom}
    (h : g.explicitDefault f t c = .ok a) : t.holds a := by
  simp only [explicitDefault] at h
  split at h
  · cases h
  · split at h
    · cases h
    · split at h
      · split at h
        · cases h
          rfl
        · cases h
      · split at h
        · exact Scalar.holds_of_coerce (mapError_eq_ok.mp h)
        · cases h
      · cases h
      · cases h

theorem zero?_isSome {t : FieldType} (h : t.isMessage = false) : (g.zero? t).isSome := by
  cases t with
  | message node => cases h
  | group node => cases h
  | _ => rfl

theorem fits_of_linkField {n : NodeId} {f : FieldNode} {l : FieldLink}
    (h : g.linkField n f = .ok l) : f.Fits l := by
  rw [linkField] at h
  obtain ⟨t, -, h⟩ := bind_eq_ok.mp h
  obtain ⟨keyType, -, h⟩ := bind_eq_ok.mp h
  obtain ⟨packed, -, h⟩ := bind_eq_ok.mp h
  obtain ⟨default, hdefault, h⟩ := bind_eq_ok.mp h
  cases h
  rw [linkDefault] at hdefault
  split at hdefault
  · obtain ⟨a, ha, rfl⟩ := map_eq_ok.mp (mapError_eq_ok.mp hdefault)
    refine ⟨fun b hb => ?_, fun _ _ _ => rfl⟩
    cases hb
    exact holds_of_explicitDefault ha
  · cases hdefault
    refine ⟨fun a ha => ?_, fun hrule honeof hmessage => ?_⟩
    · simp only at ha
      split at ha
      · exact holds_of_zero? ha
      · cases ha
    · simp only
      rw [if_pos ⟨hrule, by rw [honeof]; rfl⟩]
      exact zero?_isSome hmessage

/-! ### Extensions -/

theorem extended_nil : g.Extended [] :=
  ⟨by simp, by simp, by simp, .nil⟩

/-- An entry is added if its number is free. -/
theorem Extended.concat {before : List ExtensionEntry} (hg : g.Extended before)
    {x n target : NodeId} {f : FieldNode} (hx : (g.kind x).owned? = some n)
    (hf : g.field? n = some f)
    (hfree : ¬(g.ownFields target).any (g.hasFieldId f.id) = true)
    (hapart : ¬(before.any fun x => x.target = target ∧ x.id = f.id) = true) :
    g.Extended (before ++ [⟨target, f.id, n⟩]) := by
  refine ⟨fun e he => ?_, fun e he => ?_, fun e he => ?_, ?_⟩
  · rcases List.mem_append.mp he with he | he
    · exact hg.owned e he
    · rw [List.mem_singleton.mp he]
      exact ⟨x, hx⟩
  · rcases List.mem_append.mp he with he | he
    · exact hg.field e he
    · rw [List.mem_singleton.mp he]
      exact ⟨f, hf, rfl⟩
  · rcases List.mem_append.mp he with he | he
    · exact hg.free e he
    · rw [List.mem_singleton.mp he]
      exact fun n' hn' hid => hfree (List.any_eq_true.mpr ⟨n', hn', hid⟩)
  · refine List.pairwise_append.mpr ⟨hg.apart, List.pairwise_singleton _ _, fun e he e' he' => ?_⟩
    rw [List.mem_singleton.mp he']
    intro heq
    exact hapart (List.any_eq_true.mpr ⟨e, he, decide_eq_true heq⟩)

/-- What linking makes of an extension: it adds a field to the message that is found, if that has
the number open and free, and none if an option type of the language is not defined. -/
inductive Attached (g : Graph) (n : NodeId) (e : ExtensionNode) (before : List ExtensionEntry) :
    Option NodeId → List ExtensionEntry → Prop
  | none (hextendee : g.resolve? (g.scopeOf n) e.extendee true = none ∧
      isDescriptorType e.extendee = true ∨ g.field? e.field = none) :
      Attached g n e before none before
  | some {target : NodeId} {m : MessageNode} {f : FieldNode}
      (htarget : g.resolve? (g.scopeOf n) e.extendee true = some target)
      (hm : g.message? target = some m) (hf : g.field? e.field = some f)
      (hopen : m.acceptsExtension f.id = true)
      (hfree : ¬(g.ownFields target).any (g.hasFieldId f.id) = true)
      (hapart : ¬(before.any fun x => x.target = target ∧ x.id = f.id) = true) :
      Attached g n e before (some target) (before ++ [⟨target, f.id, e.field⟩])

theorem attached_of_linkExtension {n : NodeId} {e : ExtensionNode}
    {before after : List ExtensionEntry} {target : Option NodeId}
    (h : g.linkExtension n e before = .ok (target, after)) :
    g.Attached n e before target after := by
  simp only [linkExtension] at h
  split at h
  · rename_i hnone
    split at h
    · rename_i hdescriptor
      cases h
      exact .none (.inl ⟨hnone, hdescriptor⟩)
    · cases h
  · rename_i target' htarget
    cases hm : g.message? target' with
    | none =>
      rw [hm] at h
      cases h
    | some m =>
      rw [hm] at h
      cases hf : g.field? e.field with
      | none =>
        rw [hf] at h
        cases h
        exact .none (.inr hf)
      | some f =>
        rw [hf] at h
        simp only at h
        split at h
        · rename_i hopen
          split at h
          · cases h
          · rename_i hfree
            cases h
            rw [not_or] at hfree
            exact .some htarget hm hf hopen hfree.1 hfree.2
        · cases h

theorem Attached.extended {n : NodeId} {e : ExtensionNode} {before after : List ExtensionEntry}
    {target : Option NodeId} (h : g.Attached n e before target after) (hg : g.Extended before)
    (hkind : g.kind n = .extension e) : g.Extended after := by
  cases h with
  | none => exact hg
  | some _ _ hf _ hfree hapart => exact hg.concat (x := n) (by rw [hkind]; rfl) hf hfree hapart

/-! ### Nodes -/

/-- What linking keeps of a node: a field gets a link, and nothing of the shape changes, nor
anything else that soundness speaks of. -/
structure LinkedKind (g : Graph) (n : NodeId) (k : NodeKind) : Prop where
  like : k.Like (g.kind n)
  children : k.children = (g.kind n).children
  ownOneofs : k.ownOneofs = (g.kind n).ownOneofs
  field : ∀ f, g.kind n = .field f → ∃ l, g.linkField n f = .ok l ∧ k = .field { f with link := l }
  other : (∀ f, g.kind n ≠ .field f) → (∀ f, k ≠ .field f) ∧
    (∀ c, k = .oneof c ↔ g.kind n = .oneof c) ∧ k.ownFields = (g.kind n).ownFields

/-- The node is linked, and keeps its name and its parent. -/
structure LinkedNode (g : Graph) (n : NodeId) (x : Node) : Prop extends LinkedKind g n x.kind where
  name : x.name = g.name n
  parent : x.parent = g.parent? n

/-- What becomes of a node with the number `n` and of the extensions found before it: the texts that
it refers to others by are looked up, and all else stays. -/
inductive LinkStep (g : Graph) (n : NodeId) (before : List ExtensionEntry) :
    NodeKind → NodeKind → List ExtensionEntry → Prop
  | field {f : FieldNode} {l : FieldLink} (h : g.linkField n f = .ok l) :
      LinkStep g n before (.field f) (.field { f with link := some l }) before
  | extension {e : ExtensionNode} {target : Option NodeId} {after : List ExtensionEntry}
      (h : g.Attached n e before target after) :
      LinkStep g n before (.extension e) (.extension { e with target }) after
  | method {m : MethodNode} {l : NodeId × NodeId} (h : g.linkMethod n m = .ok l) :
      LinkStep g n before (.method m) (.method { m with link := some l }) before
  | other {k : NodeKind} (hfield : ∀ f, k ≠ .field f) (hextension : ∀ e, k ≠ .extension e)
      (hmethod : ∀ m, k ≠ .method m) : LinkStep g n before k k before

theorem linkStep_of_linkNode {n : NodeId} {k : NodeKind} {before after : List ExtensionEntry}
    (h : g.linkNode before n = .ok (k, after)) : g.LinkStep n before (g.kind n) k after := by
  rw [linkNode] at h
  split at h
  · rename_i f hkind
    obtain ⟨l, hl, h⟩ := bind_eq_ok.mp h
    cases h
    rw [hkind]
    exact .field hl
  · rename_i e hkind
    obtain ⟨⟨target, found⟩, hfound, h⟩ := bind_eq_ok.mp h
    cases h
    rw [hkind]
    exact .extension (attached_of_linkExtension hfound)
  · rename_i m hkind
    obtain ⟨l, hl, h⟩ := bind_eq_ok.mp h
    cases h
    rw [hkind]
    exact .method hl
  · rename_i hfield hextension hmethod
    cases h
    exact .other hfield hextension hmethod

theorem LinkStep.linkedKind {n : NodeId} {k : NodeKind} {before after : List ExtensionEntry}
    (h : g.LinkStep n before (g.kind n) k after) : g.LinkedKind n k := by
  obtain ⟨k₀, hkind⟩ : ∃ k₀, g.kind n = k₀ := ⟨_, rfl⟩
  rw [hkind] at h
  cases h with
  | @field f l hl =>
    refine ⟨?_, ?_, ?_, fun f' hf' => ?_, fun hne => absurd hkind (hne f)⟩
    · rw [hkind]
      exact ⟨rfl, rfl, rfl, rfl, rfl, rfl, rfl⟩
    · rw [hkind]
      rfl
    · rw [hkind]
      rfl
    · rw [hkind] at hf'
      cases hf'
      exact ⟨l, hl, rfl⟩
  | other hfield =>
    rw [← hkind]
    exact ⟨.refl _, rfl, rfl, fun f hf => absurd (hkind.symm.trans hf) (hfield f),
      fun hne => ⟨hne, fun c => Iff.rfl, rfl⟩⟩
  | _ =>
    refine ⟨?_, ?_, ?_, fun f' hf' => ?_, fun _ => ⟨by simp, by simp [hkind], ?_⟩⟩
    · rw [hkind]
      exact ⟨rfl, rfl, rfl, rfl, rfl, rfl, rfl⟩
    · rw [hkind]
      rfl
    · rw [hkind]
      rfl
    · rw [hkind] at hf'
      cases hf'
    · rw [hkind]
      rfl

theorem LinkStep.extended {n : NodeId} {k : NodeKind} {before after : List ExtensionEntry}
    (h : g.LinkStep n before (g.kind n) k after) (hg : g.Extended before) : g.Extended after := by
  obtain ⟨k₀, hkind⟩ : ∃ k₀, g.kind n = k₀ := ⟨_, rfl⟩
  rw [hkind] at h
  cases h with
  | extension h => exact h.extended hg hkind
  | _ => exact hg

/-! ### The whole graph -/

/-- The nodes are linked one after the other, each by the graph as it was. `found n` are the
extensions that have been found before node `n`. -/
structure LinkedBy (g : Graph) (found : Nat → List ExtensionEntry) (g' : Graph) : Prop where
  size : g'.size = g.size
  settings : g'.settings = g.settings
  first : found 0 = []
  last : found g.size = g'.extensions
  name : ∀ n < g.size, g'.name n = g.name n
  parent? : ∀ n < g.size, g'.parent? n = g.parent? n
  step : ∀ n < g.size, g.LinkStep n (found n) (g.kind n) (g'.kind n) (found (n + 1))

theorem found_of_foldlM {count : Nat} {nodes : Array Node} {entries : List ExtensionEntry}
    (h : (List.range count).foldlM (fun (nodes, found) id => do
      let (kind, found) ← g.linkNode found id
      return (nodes.push { g.node id with kind }, found)) ((#[] : Array Node), []) =
        .ok (nodes, entries)) :
    nodes.size = count ∧ ∃ found : Nat → List ExtensionEntry, found 0 = [] ∧
      found count = entries ∧ ∀ n < count, ∃ k, g.linkNode (found n) n = .ok (k, found (n + 1)) ∧
        nodes.getD n .root = { g.node n with kind := k } := by
  induction count generalizing nodes entries with
  | zero =>
    cases h
    exact ⟨rfl, fun _ => [], rfl, rfl, by simp⟩
  | succ count ih =>
    rw [List.range_succ, List.foldlM_append] at h
    obtain ⟨⟨before, found'⟩, hbefore, h⟩ := bind_eq_ok.mp h
    obtain ⟨hsize, found, hfirst, hlast, hnodes⟩ := ih hbefore
    rw [List.foldlM_cons] at h
    obtain ⟨⟨after, found''⟩, hstep, h⟩ := bind_eq_ok.mp h
    cases h
    obtain ⟨⟨k, last⟩, hnode, hstep⟩ := bind_eq_ok.mp hstep
    cases hstep
    -- the last node is linked with what those before it have found, and adds to that
    refine ⟨by rw [Array.size_push, hsize], fun n => if n ≤ count then found n else entries,
      (if_pos (Nat.zero_le _)).trans hfirst, if_neg (by omega), fun n hn => ?_⟩
    simp only [if_pos (Nat.le_of_lt_succ hn)]
    rw [Array.getD_eq_getD_getElem?, Array.getElem?_push, hsize]
    by_cases heq : n = count
    · rw [heq, if_pos rfl, if_neg (by omega), hlast]
      exact ⟨k, hnode, rfl⟩
    · rw [if_neg heq, if_pos (by omega), ← Array.getD_eq_getD_getElem?]
      exact hnodes n (by omega)

theorem exists_linkedBy_of_link {g' : Graph} (h : g.link = .ok g') :
    ∃ found, g.LinkedBy found g' := by
  rw [link] at h
  obtain ⟨⟨nodes, entries⟩, hfold, h⟩ := bind_eq_ok.mp h
  cases h
  obtain ⟨hsize, found, hfirst, hlast, hnodes⟩ := found_of_foldlM hfold
  have hnode : ∀ n < g.size, ∃ k, g.linkNode (found n) n = .ok (k, found (n + 1)) ∧
      Graph.node { g with nodes, extensions := entries } n = { g.node n with kind := k } := hnodes
  refine ⟨found, hsize, rfl, hfirst, hlast, fun n hn => ?_, fun n hn => ?_, fun n hn => ?_⟩
  all_goals obtain ⟨k, hk, heq⟩ := hnode n hn
  · rw [name, heq]
    rfl
  · rw [parent?, heq]
    rfl
  · have hkind : Graph.kind { g with nodes, extensions := entries } n = k := by rw [kind, heq]
    rw [hkind]
    exact linkStep_of_linkNode hk

/-- Everything that has been found on the way is right. -/
theorem LinkedBy.extended {g' : Graph} {found : Nat → List ExtensionEntry}
    (h : g.LinkedBy found g') {n : Nat} (hn : n ≤ g.size) : g.Extended (found n) := by
  induction n with
  | zero =>
    rw [h.first]
    exact extended_nil
  | succ n ih => exact (h.step n hn).extended (ih (Nat.le_of_succ_le hn))

theorem linkedNode_of_link {g' : Graph} (h : g.link = .ok g') :
    g'.size = g.size ∧ g'.settings = g.settings ∧ g.Extended g'.extensions ∧
      ∀ n, g.LinkedNode n (g'.node n) := by
  obtain ⟨found, hlinked⟩ := exists_linkedBy_of_link h
  refine ⟨hlinked.size, hlinked.settings, hlinked.last ▸ hlinked.extended (Nat.le_refl _),
    fun n => ?_⟩
  rcases Nat.lt_or_ge n g.size with hlt | hle
  · exact ⟨(hlinked.step n hlt).linkedKind, hlinked.name n hlt, hlinked.parent? n hlt⟩
  · have hbefore : g.node n = .root := node_of_size_le hle
    have hafter : g'.node n = .root := node_of_size_le (by rw [hlinked.size]; exact hle)
    have hkind : g.kind n = .package {} := by rw [kind, hbefore]; rfl
    rw [hafter]
    refine ⟨⟨?_, ?_, ?_, fun f hf => ?_, fun _ => ⟨by simp [Node.root], fun c => ?_, ?_⟩⟩, ?_, ?_⟩
    · rw [hkind]
      exact NodeKind.Like.refl _
    · rw [hkind]
      rfl
    · rw [hkind]
      rfl
    · rw [hkind] at hf
      cases hf
    · rw [hkind]
      rfl
    · rw [hkind]
      rfl
    · rw [name, hbefore]
    · rw [parent?, hbefore]

theorem linkedKind_of_link {g' : Graph} (h : g.link = .ok g') :
    g'.settings = g.settings ∧ g.Extended g'.extensions ∧ ∀ n, g.LinkedKind n (g'.kind n) := by
  obtain ⟨-, hsettings, hextended, hnodes⟩ := linkedNode_of_link h
  exact ⟨hsettings, hextended, fun n => (hnodes n).toLinkedKind⟩

section LinkedKinds

variable {g' : Graph} (hkinds : ∀ n, g.LinkedKind n (g'.kind n))

include hkinds

/-- Every field was a field before, and has got its link. -/
theorem exists_link_of_field? {n : NodeId} {f' : FieldNode} (hf' : g'.field? n = some f') :
    ∃ f l, g.field? n = some f ∧ g.linkField n f = .ok l ∧ f' = { f with link := some l } := by
  rw [field?_eq_some] at hf'
  by_cases hfield : ∃ f, g.kind n = .field f
  · obtain ⟨f, hf⟩ := hfield
    obtain ⟨l, hl, heq⟩ := (hkinds n).field f hf
    rw [heq] at hf'
    cases hf'
    exact ⟨f, l, field?_eq_some.mpr hf, hl, rfl⟩
  · exact absurd hf' (((hkinds n).other fun f hf => hfield ⟨f, hf⟩).1 f')

theorem unlinked_field? (n : NodeId) :
    (g'.field? n).map FieldNode.unlinked = (g.field? n).map FieldNode.unlinked := by
  cases hf' : g'.field? n with
  | some f' =>
    obtain ⟨f, l, hf, -, rfl⟩ := exists_link_of_field? hkinds hf'
    rw [hf]
    rfl
  | none =>
    cases hf : g.field? n with
    | none => rfl
    | some f =>
      obtain ⟨l, -, heq⟩ := (hkinds n).field f (field?_eq_some.mp hf)
      rw [field?_eq_some.mpr heq] at hf'
      cases hf'

/-- Oneofs and messages have the same fields as before. -/
theorem linkedKind_other (n : NodeId) :
    g'.oneof? n = g.oneof? n ∧ g'.ownFields n = g.ownFields n := by
  rw [ownFields_eq, ownFields_eq]
  by_cases hfield : ∃ f, g.kind n = .field f
  · obtain ⟨f, hf⟩ := hfield
    obtain ⟨l, -, heq⟩ := (hkinds n).field f hf
    rw [oneof?, oneof?, heq, hf]
    exact ⟨rfl, rfl⟩
  · obtain ⟨-, honeof, hown⟩ := (hkinds n).other fun f hf => hfield ⟨f, hf⟩
    refine ⟨Option.ext fun c => ?_, hown⟩
    rw [oneof?_eq_some, oneof?_eq_some]
    exact honeof c

end LinkedKinds

/-- Linking changes nothing of the shape. -/
theorem sameShape_of_link {g' : Graph} (h : g.link = .ok g') : g.SameShape g' := by
  obtain ⟨hsize, -, -, hnodes⟩ := linkedNode_of_link h
  exact ⟨hsize, fun n => (hnodes n).name, fun n => (hnodes n).parent, fun n => (hnodes n).like,
    fun n => (hnodes n).children,
    fun n => (linkedKind_other (fun n => (hnodes n).toLinkedKind) n).2,
    fun n => (hnodes n).ownOneofs⟩

/-- Linking a sound graph gives a linked one. -/
theorem Sound.link {g' : Graph} (hg : g.Sound) (h : g.link = .ok g') : g'.Linked := by
  obtain ⟨-, hextended, hkinds⟩ := linkedKind_of_link h
  have hown : ∀ m, g'.ownFields m = g.ownFields m := fun m => (linkedKind_other hkinds m).2
  refine ⟨hg.congr (unlinked_field? hkinds) (fun n => (linkedKind_other hkinds n).1) hown,
    fun n f' hf' => ?_, ?_, ?_, ?_, hextended.apart⟩
  · obtain ⟨f, l, -, hl, rfl⟩ := exists_link_of_field? hkinds hf'
    obtain ⟨hdefault, himplicit⟩ := fits_of_linkField hl
    exact ⟨l, rfl, hdefault, himplicit⟩
  · intro e he
    obtain ⟨x, hx⟩ := hextended.owned e he
    exact ⟨x, by rw [(hkinds x).like.owned?, hx]⟩
  · intro e he
    obtain ⟨f, hf, hid⟩ := hextended.field e he
    obtain ⟨l, -, heq⟩ := (hkinds e.field).field f (field?_eq_some.mp hf)
    exact ⟨_, field?_eq_some.mpr heq, hid⟩
  · intro e he n hn hid
    obtain ⟨f', hf', hid⟩ := hasFieldId_iff.mp hid
    obtain ⟨f, l, hf, -, rfl⟩ := exists_link_of_field? hkinds hf'
    exact hextended.free e he n (hown e.target ▸ hn) (hasFieldId_iff.mpr ⟨f, hf, hid⟩)

end Graph

end Protobuf

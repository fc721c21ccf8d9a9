import Mathlib
import Protobuf.Proofs.Registry.Faithful
import Protobuf.Proofs.Registry.Merged
import Protobuf.Proofs.Registry.Relinked

/-!
# Files added in either order

Of two files that are added to an empty registry, the second one is put beside the first one. Whether it
can be added is a matter of both files: each can be added by itself, and they bring no name twice to the
place where the paths of their packages part. Therefore, the files can be added in one order if they can
be added in the other, and the graphs that come out are made of the same two graphs. They are the same up
to numbers: the nodes of each file go by other numbers, because the file stands before or after the
other one.

## Main definitions

* `Graph.exchange` — the numbers of nodes in one order of the files, by those in the other one.
* `Registry.Both` — what comes out when two files are added to an empty registry.

## Main results

* `Graph.Merged.renamed` — graphs put together in either order are the same up to numbers
* `Registry.Both.exchange` — two files can be added in either order, and the same comes out
-/

namespace Protobuf

namespace Graph

variable {g g' P h : Graph} {names : List String}

/-! ### Numbers in use -/

/-- No declaration speaks of a node that is not there. -/
theorem lt_size_of_mentions (htree : g.Tree) (hg : g.Enlisted) {n m : NodeId}
    (hm : (g.kind n).Mentions m) : m < g.size := by
  rcases hm with hm | hm | hm | hm | hm | hm | hm
  · exact (htree.lt_of_mem_children hm).2
  · rw [← ownFields_eq] at hm
    exact lt_size_of_parent? (htree.parent?_of_mem_ownFields hm)
  · have hmessage : (g.kind n).isMessage := by
      cases hk : g.kind n with
      | message c => rfl
      | _ => rw [hk] at hm; cases hm
    rw [htree.oneofs n hmessage] at hm
    exact (htree.lt_of_mem_children (List.mem_of_mem_filter hm)).2
  · rw [members_eq] at hm
    cases hc : g.oneof? n with
    | none => rw [hc] at hm; cases hm
    | some c =>
      rw [hc] at hm
      obtain ⟨p, message, -, hmessage, hfields⟩ := hg.lists_oneof htree.toBranching hc
      have hfield : m ∈ message.fields := by
        rw [Option.elim_some, hfields] at hm
        exact List.mem_of_mem_filter hm
      rw [(htree.lists_message hmessage).1] at hfield
      exact (htree.lt_of_mem_children (List.mem_of_mem_filter hfield)).2
  · exact hg.lt_size hm
  · exact lt_size_of_owned? (htree.owner n m hm)
  · exact lt_size_of_parent? (htree.owned n m hm).1

/-! ### The other way round -/

/-- The number of a node when two graphs are put together the other way round. The nodes up to `last`
are common to both, and `size` and `size'` are the sizes of the two graphs. -/
def exchanged (last size size' n : Nat) : Nat :=
  if n ≤ last then n
  else if n < size then aside last size' n
  else if n < size + size' - (last + 1) then n - (size - (last + 1))
  else n

theorem exchanged_exchanged {last size size' : Nat} (h : last < size) (h' : last < size') (n : Nat) :
    exchanged last size' size (exchanged last size size' n) = n := by
  simp only [exchanged, aside]
  split_ifs <;> omega

/-- The exchange of numbers, which goes both ways. -/
def exchange (last size size' : Nat) (h : last < size) (h' : last < size') : Equiv.Perm NodeId where
  toFun := exchanged last size size'
  invFun := exchanged last size' size
  left_inv := exchanged_exchanged h h'
  right_inv := exchanged_exchanged h' h

section Exchange

variable {last size size' n : Nat} {hlast : last < size} {hlast' : last < size'}

theorem exchange_of_le (h : n ≤ last) : exchange last size size' hlast hlast' n = n :=
  if_pos h

theorem exchange_of_lt (h : n < size) :
    exchange last size size' hlast hlast' n = aside last size' n := by
  show exchanged last size size' n = _
  simp only [exchanged, aside, if_pos h]
  split_ifs <;> rfl

theorem exchange_aside (h : n < size') :
    exchange last size size' hlast hlast' (aside last size n) = n := by
  show exchanged last size size' _ = _
  simp only [exchanged, aside]
  split_ifs <;> omega

theorem exchange_lt_iff :
    exchange last size size' hlast hlast' n < size' + size - (last + 1) ↔
      n < size + size' - (last + 1) := by
  show exchanged last size size' n < _ ↔ _
  simp only [exchanged, aside]
  split_ifs <;> omega

theorem exchange_of_size_le (h : size + size' - (last + 1) ≤ n) :
    exchange last size size' hlast hlast' n = n := by
  show exchanged last size size' n = _
  simp only [exchanged, aside]
  split_ifs <;> omega

end Exchange

/-- The second graph is the first one with the two graphs put together the other way round: all nodes
are the same up to numbers, as far as no linking has been done. -/
theorem Merged.renamed (hm : Merged names P h g) (hm' : Merged names h P g') (htree : g.Tree)
    (htree' : g'.Tree) (hP : ∀ n m, P.parent? n = some m ∨ (P.kind n).Mentions m → m < P.size)
    (hh : ∀ n m, h.parent? n = some m ∨ (h.kind n).Mentions m → m < h.size) :
    Renamed names (exchange names.length P.size h.size hm'.part.lt hm.part.lt) g.unlinked
      g'.unlinked := by
  have hlast := hm.part.lt
  have hlast' := hm'.part.lt
  have hsize : g.size = P.size + h.size - (names.length + 1) := by
    rw [← hm.size, Nat.add_sub_cancel]
  have hsize' : g'.size = h.size + P.size - (names.length + 1) := by
    rw [← hm'.size, Nat.add_sub_cancel]
  refine ⟨htree.congr g.sameShape_unlinked, htree'.congr g'.sameShape_unlinked, ?_,
    hm.whole.unlinked, hm'.whole.unlinked, fun n hn => exchange_of_le hn, fun n => ?_,
    fun n hn => ?_, .nil, .refl _⟩
  · exact hm'.settings.1.trans (hm.settings.2.trans hm.settings.1.symm)
  · rw [size_unlinked, size_unlinked, hsize, hsize']
    exact exchange_lt_iff
  · rw [node_unlinked, node_unlinked]
    rcases Nat.lt_or_ge n P.size with hlt | hle
    · -- The node was the first graph's; now it comes after the nodes of the second one.
      rw [exchange_of_lt hlt, hm.old n hn hlt, hm'.new n hn, Node.unlinked_rename]
      exact Node.rename_unlinked_congr fun m hm => (exchange_of_lt (hP n m hm)).symm
    · rcases Nat.lt_or_ge n g.size with hlt | hge
      · -- The node came after those of the first graph; now it is where it was by itself.
        obtain ⟨m, hm₁, hm₂, rfl⟩ : ∃ m, names.length < m ∧ m < h.size ∧
            n = aside names.length P.size m :=
          ⟨n - (P.size - (names.length + 1)), by omega, by omega, by rw [aside]; split <;> omega⟩
        rw [exchange_aside hm₂, hm.new m hm₁, hm'.old m hm₁ hm₂, Node.unlinked_rename,
          Node.rename_rename]
        refine (Node.rename_id _).symm.trans (Node.rename_unlinked_congr fun i hi => ?_)
        exact (exchange_aside (hh m i hi)).symm
      · rw [exchange_of_size_le (hsize ▸ hge), node_of_size_le hge,
          node_of_size_le (by omega : g'.size ≤ n)]
        rfl

end Graph

/-- Two paths part after what is common to them. -/
theorem exists_commonPrefix (path path' : List String) : ∃ names rest more, path = names ++ rest ∧
    path' = names ++ more ∧ ∀ name, rest.head? = some name → more.head? ≠ some name := by
  induction path generalizing path' with
  | nil => exact ⟨[], [], path', rfl, rfl, nofun⟩
  | cons name rest ih =>
    cases path' with
    | nil => exact ⟨[], name :: rest, [], rfl, rfl, nofun⟩
    | cons name' more =>
      by_cases heq : name = name'
      · obtain ⟨names, rest', more', hrest, hmore, hpart⟩ := ih more
        exact ⟨name :: names, rest', more', by rw [hrest]; rfl, by rw [heq, hmore]; rfl, hpart⟩
      · refine ⟨[], name :: rest, name' :: more, rfl, rfl, fun n hn hn' => heq ?_⟩
        cases hn
        cases hn'
        rfl

namespace Registry

variable {settings : Settings} {a b file : FileDecl} {r t : Registry}

theorem Reached.meets (h : r.Reached) {Inv Linked : Graph → Prop}
    (hInv : Graph.Lasting False Inv Linked) : r.Meets Inv Linked := by
  obtain ⟨settings, hreaches⟩ := h
  exact (meets_empty hInv.empty settings).reaches hInv hreaches

theorem Reached.lt_size_of_mentions (h : r.Reached) (n m : NodeId)
    (hm : r.graph.parent? n = some m ∨ (r.graph.kind n).Mentions m) : m < r.graph.size := by
  obtain ⟨htree, hlisted⟩ := (h.meets Graph.lasting_enlisted).graph
  rcases hm with hm | hm
  · obtain ⟨hlt, hn⟩ := htree.lt_of_parent? hm
    exact Nat.lt_trans hlt hn
  · exact Graph.lt_size_of_mentions htree hlisted hm

theorem Reached.addFile (h : r.Reached)
    (hrun : (ExceptT.run (Registry.addFile file)).run r = (.ok (), t)) : t.Reached := by
  have hkeeps : Keeps Reached (Registry.addFile file) :=
    keeps_reached fun _ => keeps_addFile False.elim
  have hleft := hkeeps.left h
  rw [hrun] at hleft
  exact hleft

/-- The registry is what comes out when two files are added to an empty one. -/
def Both (settings : Settings) (a b : FileDecl) (t : Registry) : Prop :=
  ∃ r, Added settings a r ∧ (ExceptT.run (addFile b)).run r = (.ok (), t)

theorem Both.reached (h : Both settings a b t) : t.Reached := by
  obtain ⟨r, hr, hrun⟩ := h
  exact hr.reached.addFile hrun

/-- Two files can be added in either order, and the same comes out up to numbers. -/
theorem Both.exchange (h : Both settings a b t) : ∃ t' names φ, Both settings b a t' ∧
    names <+: a.packageParts ∧ names <+: b.packageParts ∧
    Graph.Renamed names φ t.graph.unlinked t'.graph.unlinked := by
  obtain ⟨r, hr, hrun⟩ := id h
  obtain ⟨names, rest, more, ha, hb, hpart⟩ := exists_commonPrefix a.packageParts b.packageParts
  have hchain : r.graph.Chain names := by
    have hwhole := hr.content.1
    rw [ha] at hwhole
    exact hwhole.of_append
  obtain ⟨s, hs, hapart, hmerged⟩ := hr.merged hb hchain
    (fun c hc hc' => hpart _ ((hr.tops ha).2 c hc hc')) hrun
  obtain ⟨t', hrun'⟩ := hs.exists_second ha hmerged.part hr hapart.symm
  obtain ⟨r', hr', -, hmerged'⟩ := hs.merged ha hmerged.part
    (fun c hc hc' heq => hpart _ heq ((hs.tops hb).2 c hc hc')) hrun'
  obtain rfl : r = r' := (Prod.mk.inj (hr.symm.trans hr')).2
  have ht' : Both settings b a t' := ⟨s, hs, hrun'⟩
  exact ⟨t', names, _, ht', ⟨rest, ha.symm⟩, ⟨more, hb.symm⟩,
    hmerged.renamed hmerged' h.reached.standing.tree ht'.reached.standing.tree
      hr.reached.lt_size_of_mentions hs.reached.lt_size_of_mentions⟩

end Registry

end Protobuf

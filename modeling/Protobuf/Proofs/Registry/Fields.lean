import Mathlib
import Protobuf.Proofs.Graph.Label
import Protobuf.Proofs.Registry.Current
import Protobuf.Proofs.Registry.Loaded

/-!
# The fields of a message

There are three ways to the fields of a message. Writing and showing it goes through the list of all
of them, its own in order of declaration and then those that extensions add. Reading it looks a
field up by its number, in the list of own fields first and then in the table of extensions. And a
field is asked for by its name, which is a path if an extension adds the field. In a graph that was
loaded from text the three agree.

The graph that a registry goes on with may have more packages than the one that was linked. There
the three agree as well.

## Main definitions

* `Graph.FieldsAgree` — the three ways to the fields of a message agree.

## Main results

* `Graph.Opened.linked` — opening packages leaves a graph linked
* `Registry.Loaded.fields_agree` — in graphs that were loaded from text the three ways agree
-/

namespace Protobuf

namespace Graph

variable {g g' : Graph}

/-! ### Packages that are opened -/

/-- Whatever is said of the kinds of nodes stays true if it says the same of all packages. -/
theorem Opened.of_kind (h : g.Opened g') {α : Type} (look : NodeKind → α)
    (hlook : ∀ s s', look (.package s) = look (.package s')) (n : NodeId) :
    look (g'.kind n) = look (g.kind n) := by
  have hpackages : ∀ {k k' : NodeKind}, k.isPackage → k'.isPackage → look k = look k' := by
    intro k k' hk hk'
    obtain ⟨s, rfl⟩ := exists_scope_of_isPackage hk
    obtain ⟨s', rfl⟩ := exists_scope_of_isPackage hk'
    exact hlook s s'
  have houtside : ∀ {g : Graph}, g.size ≤ n → (g.kind n).isPackage := fun hle => by
    rw [kind_of_size_le hle]
    rfl
  rcases Nat.lt_or_ge n g.size with hold | hnew
  · cases hpackage : (g.kind n).isPackage with
    | false => rw [h.other n hold hpackage]
    | true => exact hpackages ((h.isPackage n hold).trans hpackage) hpackage
  · refine hpackages ?_ (houtside hnew)
    rcases Nat.lt_or_ge n g'.size with hlt | hle
    · exact h.new n hnew hlt
    · exact houtside hle

/-- Opening packages does nothing to fields, so the graph stays linked. -/
theorem Opened.linked (h : g.Opened g') (hg : g.Linked) : g'.Linked := by
  have hfield : ∀ n, g'.field? n = g.field? n := fun n => Option.ext fun f => by
    rw [field?_eq_some, field?_eq_some, h.of_kind (· = .field f) fun _ _ => by simp]
  have honeof : ∀ n, g'.oneof? n = g.oneof? n := fun n => Option.ext fun c => by
    rw [oneof?_eq_some, oneof?_eq_some, h.of_kind (· = .oneof c) fun _ _ => by simp]
  have hown : ∀ n, g'.ownFields n = g.ownFields n := fun n => by
    rw [ownFields_eq, ownFields_eq, h.of_kind NodeKind.ownFields fun _ _ => rfl]
  have howned : ∀ n, (g'.kind n).owned? = (g.kind n).owned? :=
    h.of_kind NodeKind.owned? fun _ _ => rfl
  refine ⟨hg.toSound.congr (fun n => congrArg _ (hfield n)) honeof hown,
    fun n f hf => hg.link n f (hfield n ▸ hf), ?_⟩
  rw [h.extensions]
  refine ⟨fun e he => ?_, fun e he => ?_, fun e he n hn => ?_, hg.extended.apart⟩
  · obtain ⟨x, hx⟩ := hg.extended.owned e he
    exact ⟨x, (howned x).trans hx⟩
  · rw [hfield]
    exact hg.extended.field e he
  · rw [hown] at hn
    rw [hasFieldId, hfield]
    exact hg.extended.free e he n hn

/-! ### Ways to the fields -/

/-- The ways to the fields of a message agree. There are no two of the same number in the list of
all fields. A number leads to the one that has it. The label of each leads to it, and so does that
of an extension without the leading dot, unless a field of the message of its own has that name. -/
structure FieldsAgree (g : Graph) (m : NodeId) : Prop where
  nodup : (g.allFields m).Nodup
  apart : ∀ a ∈ g.allFields m, ∀ b ∈ g.allFields m, ∀ id, g.hasFieldId id a →
    g.hasFieldId id b → a = b
  numbered : ∀ n ∈ g.allFields m, ∃ id, g.hasFieldId id n
  byId : ∀ id n, g.fieldById? m id = some n ↔ n ∈ g.allFields m ∧ g.hasFieldId id n
  byLabel : ∀ n ∈ g.allFields m, g.fieldByName? m (g.fieldLabel n) = some n
  byPath : ∀ n ∈ g.extensionsOf m,
    (∀ c ∈ g.ownFields m, g.name c ≠ Path.unanchored (g.fieldLabel n)) →
      g.fieldByName? m (Path.unanchored (g.fieldLabel n)) = some n

theorem Linked.fieldsAgree (hg : g.Linked) (ht : g.Tree) (hnames : g.PlainNames)
    (hnamed : g.NamedNodes) (m : NodeId) : g.FieldsAgree m where
  nodup := hg.nodup_allFields m
  apart a ha b hb id hida hidb := by
    obtain ⟨f, hf, hfid⟩ := hasFieldId_iff.mp hida
    obtain ⟨f', hf', hfid'⟩ := hasFieldId_iff.mp hidb
    exact hg.eq_of_id_eq ha hb hf hf' (hfid.trans hfid'.symm)
  numbered n hn := by
    obtain ⟨f, hf⟩ := hg.exists_field hn
    exact ⟨f.id, hasFieldId_iff.mpr ⟨f, hf, rfl⟩⟩
  byId _ _ := hg.fieldById?_eq_some
  byLabel _ hn := hg.fieldByName?_fieldLabel ht hnames hn
  byPath _ hn hown := hg.fieldByName?_unanchored ht hnames hnamed hn hown

end Graph

/-- In a registry that was made from schema texts, the ways to the fields of a message agree, both
in the snapshot and in the graph at hand. -/
theorem Registry.Loaded.fields_agree {r : Registry} (h : r.Loaded) {S : Snapshot}
    (hS : r.snapshot = some S) {g : Graph} (hg : g = S.graph ∨ g = r.graph) (m : NodeId) :
    g.FieldsAgree m := by
  have hopened : S.graph.Opened r.graph := h.built.reached.lags S hS
  have hloaded : S.Loaded := ⟨r, h, hS⟩
  rcases hg with rfl | rfl
  · exact hloaded.linked.fieldsAgree hloaded.built.tree hloaded.plainNames hloaded.namedNodes m
  · exact (hopened.linked hloaded.linked).fieldsAgree h.built.reached.standing.tree
      (h.meets Graph.lasting_plainNames).graph (h.meets Graph.lasting_namedNodes).graph m

/-- The label of the extension of a small schema leads to it, with the leading dot and without. -/
theorem Registry.fields_agree_extended :
    Snapshot.extended.graph.FieldsAgree 1 ∧ Snapshot.extended.graph.fieldLabel 4 = ".x" ∧
      Snapshot.extended.graph.fieldByName? 1 ".x" = some 4 ∧
      Snapshot.extended.graph.fieldByName? 1 "x" = some 4 := by
  have hloaded : (Registry.ofText {} Snapshot.extendedText).Loaded :=
    .resolveAll (.load (.empty {}) Snapshot.extendedText none) 0
  have hagree := hloaded.fields_agree Snapshot.ofText_extended (.inl rfl) 1
  have hlabel : Snapshot.extended.graph.fieldLabel 4 = ".x" := by cbv
  have hpath : Path.unanchored ".x" = "x" := by cbv
  have hmem : 4 ∈ Snapshot.extended.graph.extensionsOf 1 :=
    Graph.mem_extensionsOf.mpr ⟨_, List.mem_cons_self, rfl, rfl⟩
  have hlabelled := hagree.byLabel 4 (Graph.mem_allFields.mpr (.inr hmem))
  have hunanchored := hagree.byPath 4 hmem
  rw [hlabel] at hlabelled hunanchored
  rw [hpath] at hunanchored
  exact ⟨hagree, hlabel, hlabelled, hunanchored (by decide)⟩

end Protobuf

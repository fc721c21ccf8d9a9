import Mathlib.Data.List.Pairwise
import Protobuf.Graph.Slot
import Protobuf.Proofs.Atom.Payload
import Protobuf.Proofs.Graph.Tree

/-!
# Linked graphs

Once the references of a graph have been looked up, every field knows its type, defaults are values
of their types, and the numbers of extensions are free in the messages that they add to. So a number
leads to one field of a message, own fields and extensions alike, and the slot of a field is all
that has to be known about it.

## Main definitions

* `Graph.Linked` — what holds of a graph whose references have been looked up.
* `Graph.Compete` — two fields belong to the same oneof.

## Main results

* `Graph.Linked.fieldById?_eq_some` — a number leads to the field that has it
* `Graph.slot?_eq_some` — what a slot tells about the declaration of its field
* `Graph.Linked.slot?_of_default` — a field that is filled in is single and belongs to no oneof
-/

namespace Protobuf

/-- What the link of a field says fits the field: its default is a value of the type, and there is
one if leaving out a zero value is to make no difference. -/
structure FieldNode.Fits (f : FieldNode) (l : FieldLink) : Prop where
  default : ∀ a, l.default = some a → l.type.holds a
  implicit : f.rule = .implicit → f.oneof = none → l.type.isMessage = false → l.default.isSome

/-- Only required fields and those of implicit presence are filled in when they are absent. -/
theorem FieldNode.rule_of_isAlwaysPresent (f : FieldNode) (h : f.isAlwaysPresent = true) :
    f.rule = .required ∨ f.rule = .implicit := by
  rw [isAlwaysPresent, hasImplicitPresence] at h
  simp only [Bool.or_eq_true, Bool.and_eq_true, decide_eq_true_eq] at h
  exact h.imp_right fun h => h.1.1

namespace Graph

/-- Each entry is of the field of an extension, whose number it has, and the number is free in the
message that the field is added to. -/
structure Extended (g : Graph) (entries : List ExtensionEntry) : Prop where
  owned : ∀ e ∈ entries, ∃ x, (g.kind x).owned? = some e.field
  field : ∀ e ∈ entries, ∃ f, g.field? e.field = some f ∧ f.id = e.id
  free : ∀ e ∈ entries, ∀ n ∈ g.ownFields e.target, ¬g.hasFieldId e.id n
  apart : entries.Pairwise fun a b => ¬(a.target = b.target ∧ a.id = b.id)

/-- What holds of a graph whose references have been looked up. -/
structure Linked (g : Graph) : Prop extends Sound g where
  link : ∀ n f, g.field? n = some f → ∃ l, f.link = some l ∧ f.Fits l
  extended : g.Extended g.extensions

variable {g : Graph}

/-! ### Numbers of fields -/

instance : Std.Symm g.DifferentIds :=
  ⟨fun _ _ h f f' hf hf' heq => h f' f hf' hf heq.symm⟩

theorem mem_extensionsOf {m n : NodeId} :
    n ∈ g.extensionsOf m ↔ ∃ e ∈ g.extensions, e.target = m ∧ e.field = n := by
  simp [extensionsOf, and_assoc]

theorem mem_allFields {m n : NodeId} :
    n ∈ g.allFields m ↔ n ∈ g.ownFields m ∨ n ∈ g.extensionsOf m :=
  List.mem_append

theorem mem_of_fieldByName? {m n : NodeId} {name : String} (h : g.fieldByName? m name = some n) :
    n ∈ g.allFields m := by
  simp only [fieldByName?, Option.orElse_eq_orElse, Option.orElse_eq_or,
    Option.or_eq_some_iff] at h
  rcases h with h | ⟨-, h⟩
  · exact mem_allFields.mpr (.inl (List.mem_of_find?_eq_some h))
  · exact mem_allFields.mpr (.inr (List.mem_of_find?_eq_some h))

theorem mem_of_fieldById? {m n : NodeId} {id : UInt32} (h : g.fieldById? m id = some n) :
    n ∈ g.allFields m := by
  simp only [fieldById?, Option.orElse_eq_orElse, Option.orElse_eq_or,
    Option.or_eq_some_iff] at h
  rcases h with h | ⟨-, h⟩
  · exact mem_allFields.mpr (.inl (List.mem_of_find?_eq_some h))
  · obtain ⟨e, he, rfl⟩ := Option.map_eq_some_iff.mp h
    have hentry := List.find?_some he
    exact mem_allFields.mpr (.inr (mem_extensionsOf.mpr
      ⟨e, List.mem_of_find?_eq_some he, (of_decide_eq_true hentry).1, rfl⟩))

namespace Linked

theorem exists_field (hg : g.Linked) {m n : NodeId} (hn : n ∈ g.allFields m) :
    ∃ f, g.field? n = some f := by
  rcases mem_allFields.mp hn with hn | hn
  · exact hg.owned m n hn
  · obtain ⟨e, he, -, rfl⟩ := mem_extensionsOf.mp hn
    obtain ⟨f, hf, -⟩ := hg.extended.field e he
    exact ⟨f, hf⟩

theorem differentIds_extensionsOf (hg : g.Linked) (m : NodeId) :
    (g.extensionsOf m).Pairwise g.DifferentIds := by
  rw [extensionsOf, List.pairwise_map]
  refine ((List.mergeSort_perm _ _).pairwise_iff fun h => symm_of _ h).mpr ?_
  refine List.Pairwise.imp_of_mem (fun {a b} ha hb hab => ?_) (hg.extended.apart.filter _)
  intro f f' hf hf' hid
  obtain ⟨ha, hta⟩ := List.mem_filter.mp ha
  obtain ⟨hb, htb⟩ := List.mem_filter.mp hb
  obtain ⟨fa, hfa, hida⟩ := hg.extended.field a ha
  obtain ⟨fb, hfb, hidb⟩ := hg.extended.field b hb
  rw [hf] at hfa
  rw [hf'] at hfb
  cases hfa
  cases hfb
  refine hab ⟨(of_decide_eq_true hta).trans (of_decide_eq_true htb).symm, ?_⟩
  rw [← hida, ← hidb, hid]

/-- The fields of a message have different numbers. -/
theorem differentIds_allFields (hg : g.Linked) (m : NodeId) :
    (g.allFields m).Pairwise g.DifferentIds := by
  refine List.pairwise_append.mpr ⟨hg.distinct m, hg.differentIds_extensionsOf m, ?_⟩
  intro a ha b hb f f' hf hf' hid
  obtain ⟨e, he, rfl, rfl⟩ := mem_extensionsOf.mp hb
  obtain ⟨fe, hfe, hide⟩ := hg.extended.field e he
  rw [hf'] at hfe
  cases hfe
  exact hg.extended.free e he a ha (hasFieldId_iff.mpr ⟨f, hf, hid.trans hide⟩)

/-- Fields of a message that have the same number are the same. -/
theorem eq_of_id_eq (hg : g.Linked) {m a b : NodeId} (ha : a ∈ g.allFields m)
    (hb : b ∈ g.allFields m) {f f' : FieldNode} (hf : g.field? a = some f)
    (hf' : g.field? b = some f') (hid : f.id = f'.id) : a = b := by
  by_contra hne
  exact (hg.differentIds_allFields m).forall ha hb hne f f' hf hf' hid

theorem nodup_allFields (hg : g.Linked) (m : NodeId) : (g.allFields m).Nodup := by
  refine List.Pairwise.imp_of_mem (fun {a b} ha _ hab heq => ?_) (hg.differentIds_allFields m)
  obtain ⟨f, hf⟩ := hg.exists_field ha
  exact hab f f hf (heq ▸ hf) rfl

/-- A number leads to the field of the message that has it. -/
theorem fieldById?_eq_some (hg : g.Linked) {m n : NodeId} {id : UInt32} :
    g.fieldById? m id = some n ↔ n ∈ g.allFields m ∧ g.hasFieldId id n := by
  have hfound : ∀ n, g.fieldById? m id = some n → n ∈ g.allFields m ∧ g.hasFieldId id n := by
    refine fun n hn => ⟨mem_of_fieldById? hn, ?_⟩
    simp only [fieldById?, Option.orElse_eq_orElse, Option.orElse_eq_or,
      Option.or_eq_some_iff] at hn
    rcases hn with hn | ⟨-, hn⟩
    · exact List.find?_some hn
    · obtain ⟨e, he, rfl⟩ := Option.map_eq_some_iff.mp hn
      have hentry := List.find?_some he
      obtain ⟨f, hf, hide⟩ := hg.extended.field e (List.mem_of_find?_eq_some he)
      exact hasFieldId_iff.mpr ⟨f, hf, hide.trans (of_decide_eq_true hentry).2⟩
  refine ⟨hfound n, fun ⟨hmem, hid⟩ => ?_⟩
  obtain ⟨f, hf, hfid⟩ := hasFieldId_iff.mp hid
  have hsome : (g.fieldById? m id).isSome := by
    simp only [fieldById?, Option.orElse_eq_orElse, Option.orElse_eq_or, Option.isSome_or,
      Option.isSome_map, Bool.or_eq_true, List.find?_isSome]
    rcases mem_allFields.mp hmem with hmem | hmem
    · exact .inl ⟨n, hmem, hid⟩
    · obtain ⟨e, he, htarget, rfl⟩ := mem_extensionsOf.mp hmem
      obtain ⟨f', hf', hide⟩ := hg.extended.field e he
      rw [hf] at hf'
      cases hf'
      exact .inr ⟨e, he, decide_eq_true ⟨htarget, hide.symm.trans hfid⟩⟩
  obtain ⟨n', hn'⟩ := Option.isSome_iff_exists.mp hsome
  obtain ⟨hmem', hid'⟩ := hfound n' hn'
  obtain ⟨f', hf', hfid'⟩ := hasFieldId_iff.mp hid'
  rw [hn', hg.eq_of_id_eq hmem' hmem hf' hf (hfid'.trans hfid.symm)]

end Linked

/-! ### Slots -/

theorem slot?_eq_some {n : NodeId} {s : Slot} (h : g.slot? n = some s) :
    ∃ f l, g.field? n = some f ∧ f.link = some l ∧ s.id = f.id ∧ s.type = l.type ∧
      s.omitsZero = f.hasImplicitPresence ∧ (s.shape = .list → f.rule = .repeated) ∧
      (∀ key, s.shape = .map key → f.rule = .map) ∧
      (s.shape = .single → f.rule ≠ .repeated ∧ f.rule ≠ .map) := by
  rw [slot?] at h
  obtain ⟨f, hf, h⟩ := Option.bind_eq_some_iff.mp h
  obtain ⟨l, hl, h⟩ := Option.bind_eq_some_iff.mp h
  refine ⟨f, l, hf, hl, ?_⟩
  cases hrule : f.rule <;> simp only [hrule] at h
  case map =>
    obtain ⟨shape, hshape, h⟩ := Option.bind_eq_some_iff.mp h
    obtain ⟨key, -, rfl⟩ := Option.map_eq_some_iff.mp hshape
    cases h
    simp
  all_goals
    cases h
    simp

/-- A field that is neither repeated nor a map holds single values. -/
theorem slot?_of_single {n : NodeId} {f : FieldNode} {l : FieldLink} (hf : g.field? n = some f)
    (hl : f.link = some l) (hrepeated : f.rule ≠ .repeated) (hmap : f.rule ≠ .map) :
    ∃ s, g.slot? n = some s ∧ s.shape = .single ∧ s.type = l.type := by
  cases hrule : f.rule <;> simp_all [slot?]

/-- A field that is filled in when it is absent holds single values. -/
theorem slot?_of_isAlwaysPresent {n : NodeId} {f : FieldNode} {l : FieldLink}
    (hf : g.field? n = some f) (hl : f.link = some l) (halways : f.isAlwaysPresent = true) :
    ∃ s, g.slot? n = some s ∧ s.shape = .single ∧ s.type = l.type := by
  rcases f.rule_of_isAlwaysPresent halways with hrule | hrule
  · exact slot?_of_single hf hl (by simp [hrule]) (by simp [hrule])
  · exact slot?_of_single hf hl (by simp [hrule]) (by simp [hrule])

/-- A zero is left out for single values only, and never for messages. -/
theorem shape_of_omitsZero {n : NodeId} {s : Slot} (h : g.slot? n = some s)
    (hzero : s.omitsZero = true) : s.shape = .single ∧ s.type.isMessage = false := by
  obtain ⟨f, l, -, hl, -, htype, homits, hlist, hmap, -⟩ := slot?_eq_some h
  rw [homits, FieldNode.hasImplicitPresence] at hzero
  simp only [Bool.and_eq_true, decide_eq_true_eq] at hzero
  obtain ⟨⟨hrule, -⟩, hmessage⟩ := hzero
  constructor
  · cases hshape : s.shape with
    | single => rfl
    | list => rw [hlist hshape] at hrule; cases hrule
    | map key => rw [hmap key hshape] at hrule; cases hrule
  · rw [htype]
    simpa [FieldNode.type?, hl] using hmessage

/-! ### Oneofs -/

/-- The fields belong to the same oneof. -/
def Compete (g : Graph) (a b : NodeId) : Prop :=
  ∃ fa fb o, g.field? a = some fa ∧ g.field? b = some fb ∧ fa.oneof = some o ∧ fb.oneof = some o

theorem Compete.symm {a b : NodeId} (h : g.Compete a b) : g.Compete b a := by
  obtain ⟨fa, fb, o, ha, hb, hoa, hob⟩ := h
  exact ⟨fb, fa, o, hb, ha, hob, hoa⟩

theorem Compete.trans {a b c : NodeId} (h : g.Compete a b) (h' : g.Compete b c) :
    g.Compete a c := by
  obtain ⟨fa, fb, o, ha, hb, hoa, hob⟩ := h
  obtain ⟨fb', fc, o', hb', hc, hob', hoc⟩ := h'
  rw [hb] at hb'
  cases hb'
  rw [hob] at hob'
  cases hob'
  exact ⟨fa, fc, o, ha, hc, hoa, hoc⟩

namespace Linked

/-- A field that holds lists or maps competes with no other. -/
theorem not_compete (hg : g.Linked) {n n' : NodeId} {s : Slot} (h : g.slot? n = some s)
    (hshape : s.shape ≠ .single) : ¬g.Compete n n' := by
  rintro ⟨f, -, o, hf, -, ho, -⟩
  obtain ⟨f', l, hf', -, -, -, -, hlist, hmap, -⟩ := slot?_eq_some h
  rw [hf] at hf'
  cases hf'
  have hrule := (hg.member n f o hf ho).1
  cases hs : s.shape with
  | single => exact hshape hs
  | list => rw [hlist hs] at hrule; cases hrule
  | map key => rw [hmap key hs] at hrule; cases hrule

/-- A field that is filled in when it is absent is single, and competes with no other. -/
theorem slot?_of_default (hg : g.Linked) {n : NodeId} {f : FieldNode} {a : Atom}
    (hf : g.field? n = some f) (halways : f.isAlwaysPresent = true) (ha : f.default? = some a) :
    (∃ s, g.slot? n = some s ∧ s.shape = .single ∧ s.type.holds a) ∧ ∀ n', ¬g.Compete n n' := by
  obtain ⟨l, hl, hfits⟩ := hg.link n f hf
  rw [FieldNode.default?, hl] at ha
  constructor
  · obtain ⟨s, hs, hshape, htype⟩ := slot?_of_isAlwaysPresent hf hl halways
    exact ⟨s, hs, hshape, htype ▸ hfits.default a ha⟩
  · rintro n' ⟨f', -, o, hf', -, ho, -⟩
    rw [hf] at hf'
    cases hf'
    have hoptional := (hg.member n f o hf ho).1
    rcases f.rule_of_isAlwaysPresent halways with h | h <;> simp [h] at hoptional

end Linked

end Graph

end Protobuf

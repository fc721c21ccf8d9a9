import Mathlib
import Protobuf.Proofs.Graph.Label
import Protobuf.Proofs.Registry.Standing

/-!
# Linked graphs are closed

Once all references have been looked up, nothing in a graph is left open. Every field has the type
that it names, and what goes with the type: a key for a map, one key for all values only where that
is possible, a default in canonical form. Every extension is entered under its number in the message
that it adds to, where that number is kept open, and nothing else is entered. Every method has two
messages.

All of it is judged by the graph as it was before. But linking leaves alone names and places and
whatever refers to nothing, so it holds of the graph that comes out.

## Main definitions

* `Graph.Names` — the type that a name refers to.
* `Graph.FieldClosed` — what is known of a field.
* `Graph.Closed` — what is known of the whole graph.
* `Graph.Complete` — a method has two messages.

## Main results

* `Graph.LinkedBy.closed` — linking gives a closed graph
* `Graph.Closed.methods` — a service hands out all of its methods
* `Registry.Built.resolved_closed` — so does looking up the references of a registry
-/

namespace Protobuf

/-- The atom is the one form in which the type keeps its value. The number of an enum is one that it
declares, or zero if it declares none. -/
def FieldType.Canonical (g : Graph) : FieldType → Atom → Prop
  | .scalar s, a => s.holds a = true ∧ s.coerce a = .ok a
  | .enumeration e, a => ∃ id, a = .enumeration id ∧
      (g.enumHas e id = true ∨ g.enumValues e = [] ∧ id = 0)
  | .message _, _ => False
  | .group _, _ => False

/-- The node is a method. -/
def NodeKind.isMethod : NodeKind → Bool
  | method _ => true
  | _ => false

namespace Graph

variable {g g' : Graph}

/-- The type is what the name refers to from where the node is: the scalar type that it spells, else
the enum, message or group that is found. -/
inductive Names (g : Graph) (n : NodeId) (name : String) : FieldType → Prop
  | scalar {s : Scalar} (hname : Scalar.ofName? name = some s) : Names g n name (.scalar s)
  | enumeration {e : NodeId} {scope : Scope} (hname : Scalar.ofName? name = none)
      (hfound : g.resolve? (g.scopeOf n) name true = some e) (he : g.kind e = .enumeration scope) :
      Names g n name (.enumeration e)
  | message {m : NodeId} {c : MessageNode} (hname : Scalar.ofName? name = none)
      (hfound : g.resolve? (g.scopeOf n) name true = some m) (hm : g.kind m = .message c)
      (hgroup : c.isGroup = false) : Names g n name (.message m)
  | group {m : NodeId} {c : MessageNode} (hname : Scalar.ofName? name = none)
      (hfound : g.resolve? (g.scopeOf n) name true = some m) (hm : g.kind m = .message c)
      (hgroup : c.isGroup = true) : Names g n name (.group m)

/-- What is known of a field whose references have been looked up. -/
structure FieldClosed (g : Graph) (n : NodeId) (f : FieldNode) (l : FieldLink) : Prop where
  type : g.Names n f.typeName l.type
  map : f.rule = .map → l.keyType.isSome
  keyType : ∀ key, l.keyType = some key →
    f.keyTypeName.bind Scalar.ofName? = some key ∧ key.isMapKey
  packed : l.packed = true → f.rule = .repeated ∧ l.type.isPackable
  default : ∀ a, l.default = some a → l.type.Canonical g a

/-- The entry is that of an extension whose target is known. -/
def Enters (g : Graph) (x : NodeId) (entry : ExtensionEntry) : Prop :=
  ∃ e f, g.kind x = .extension e ∧ e.target = some entry.target ∧ e.field = entry.field ∧
    g.field? entry.field = some f ∧ f.id = entry.id

/-- The number of the entry is kept open for extensions by the message that the field is added to,
and no field of its own has it. -/
def Accepts (g : Graph) (entry : ExtensionEntry) : Prop :=
  (g.kind entry.target).isMessage ∧ (g.kind entry.target).opens entry.id ∧
    ∀ n ∈ g.ownFields entry.target, ¬g.hasFieldId entry.id n

/-- What is known of a graph whose references have been looked up. -/
structure Closed (g : Graph) : Prop where
  field : ∀ n f, g.field? n = some f → ∃ l, f.link = some l ∧ g.FieldClosed n f l
  own : g.Admissible
  entered : ∀ entry, entry ∈ g.extensions ↔ ∃ x, g.Enters x entry
  extensionField : ∀ entry ∈ g.extensions, ∃ f x, g.field? entry.field = some f ∧
    f.extension = some x
  accepted : ∀ entry ∈ g.extensions, g.Accepts entry
  apart : g.extensions.Pairwise fun a b => ¬(a.target = b.target ∧ a.id = b.id)
  target : ∀ x e, g.kind x = .extension e → e.target = g.resolve? (g.scopeOf x) e.extendee true ∧
    (e.target = none → isDescriptorType e.extendee)
  method : ∀ n m, g.kind n = .method m → ∃ request response, m.link = some (request, response) ∧
    g.resolve? (g.scopeOf n) m.requestName true = some request ∧ (g.kind request).isMessage ∧
    g.resolve? (g.scopeOf n) m.responseName true = some response ∧ (g.kind response).isMessage

/-! ### Fields -/

theorem names_of_linkType {label : String} {n : NodeId} {f : FieldNode} {t : FieldType}
    (h : g.linkType label n f = .ok t) : g.Names n f.typeName t := by
  rw [linkType] at h
  split at h
  · rename_i s hname
    cases h
    exact .scalar hname
  · rename_i hname
    split at h
    · cases h
    · rename_i target hfound
      split at h
      · rename_i m hm
        cases h
        split
        · rename_i hgroup
          exact .group hname hfound hm hgroup
        · rename_i hgroup
          exact .message hname hfound hm (Bool.not_eq_true _ ▸ hgroup)
      · rename_i scope he
        cases h
        exact .enumeration hname hfound he
      · cases h

theorem keyType_of_linkKeyType {label : String} {f : FieldNode} {k : Option Scalar}
    (h : linkKeyType label f = .ok k) : (f.rule = .map → k.isSome) ∧
      ∀ key, k = some key → f.keyTypeName.bind Scalar.ofName? = some key ∧ key.isMapKey := by
  rw [linkKeyType] at h
  split at h
  · rename_i name hname
    split at h
    · rename_i s hs
      cases h
      obtain ⟨hs, hkey⟩ := Option.filter_eq_some_iff.mp hs
      refine ⟨fun _ => rfl, fun key hkey' => ?_⟩
      cases hkey'
      exact ⟨hname ▸ hs, hkey⟩
    · cases h
  · split at h
    · cases h
    · rename_i hmap
      cases h
      exact ⟨fun hrule => absurd hrule hmap, fun key hkey => by cases hkey⟩

theorem packed_of_linkPacked {label : String} {f : FieldNode} {t : FieldType} {packed : Bool}
    (h : linkPacked label f t = .ok packed) (hpacked : packed = true) :
    f.rule = .repeated ∧ t.isPackable := by
  subst hpacked
  rw [linkPacked] at h
  split at h
  · exact (of_decide_eq_true (Except.ok.inj h)).2
  · exact (of_decide_eq_true (Except.ok.inj h)).2
  · cases h

theorem enumHas_of_enumId? {e : NodeId} {name : String} {id : Int32}
    (h : g.enumId? e name = some id) : g.enumHas e id = true := by
  obtain ⟨before, after, hvalues, -⟩ := List.lookup_eq_some_iff.mp h
  rw [enumHas, hvalues]
  simp

theorem enumHas_of_constantEnumId? {e : NodeId} {c : Constant} {id : Int32}
    (h : g.constantEnumId? e c = some id) : g.enumHas e id = true := by
  cases c with
  | ident name => exact enumHas_of_enumId? h
  | int value =>
    rw [constantEnumId?] at h
    split at h
    · rename_i hhas
      cases h
      exact hhas.2
    · cases h
  | _ => cases h

theorem canonical_of_explicitDefault {f : FieldNode} {t : FieldType} {c : Constant} {a : Atom}
    (h : g.explicitDefault f t c = .ok a) : t.Canonical g a := by
  simp only [explicitDefault] at h
  split at h
  · cases h
  · split at h
    · cases h
    · split at h
      · split at h
        · rename_i id hid
          cases h
          exact ⟨id, rfl, .inl (enumHas_of_constantEnumId? hid)⟩
        · cases h
      · split at h
        · have hholds := Scalar.holds_of_coerce (mapError_eq_ok.mp h)
          exact ⟨hholds, Scalar.coerce_of_holds hholds⟩
        · cases h
      · cases h
      · cases h

theorem canonical_of_zero? {t : FieldType} {a : Atom} (h : g.zero? t = some a) :
    t.Canonical g a := by
  have hholds : t.holds a := holds_of_zero? h
  cases t with
  | scalar s => exact ⟨hholds, Scalar.coerce_of_holds hholds⟩
  | enumeration e =>
    cases h
    refine ⟨_, rfl, ?_⟩
    rw [enumDefault]
    cases hvalues : g.enumValues e with
    | nil => exact .inr ⟨rfl, rfl⟩
    | cons v more => exact .inl (by rw [enumHas, hvalues]; simp)
  | message m => cases h
  | group m => cases h

theorem canonical_of_linkDefault {label : String} {f : FieldNode} {t : FieldType} {a : Atom}
    (h : g.linkDefault label f t = .ok (some a)) : t.Canonical g a := by
  rw [linkDefault] at h
  split at h
  · obtain ⟨b, hb, heq⟩ := map_eq_ok.mp (mapError_eq_ok.mp h)
    cases heq
    exact canonical_of_explicitDefault hb
  · have hzero := Except.ok.inj h
    split at hzero
    · exact canonical_of_zero? hzero
    · cases hzero

theorem closed_of_linkField {n : NodeId} {f : FieldNode} {l : FieldLink}
    (h : g.linkField n f = .ok l) : g.FieldClosed n f l := by
  rw [linkField] at h
  obtain ⟨t, htype, h⟩ := bind_eq_ok.mp h
  obtain ⟨keyType, hkeyType, h⟩ := bind_eq_ok.mp h
  obtain ⟨packed, hpacked, h⟩ := bind_eq_ok.mp h
  obtain ⟨default, hdefault, h⟩ := bind_eq_ok.mp h
  cases h
  obtain ⟨hmap, hkey⟩ := keyType_of_linkKeyType hkeyType
  refine ⟨names_of_linkType htype, hmap, hkey, packed_of_linkPacked hpacked, fun a ha => ?_⟩
  cases ha
  exact canonical_of_linkDefault hdefault

theorem message?_eq_some {n : NodeId} {m : MessageNode} :
    g.message? n = some m ↔ g.kind n = .message m := by
  rw [message?]
  cases g.kind n <;> simp

theorem linkMessage_eq_ok {n m : NodeId} {name : String} (h : g.linkMessage n name = .ok m) :
    g.resolve? (g.scopeOf n) name true = some m ∧ (g.kind m).isMessage := by
  rw [linkMessage] at h
  split at h
  · cases h
  · rename_i target hfound
    split at h
    · rename_i hm
      cases h
      obtain ⟨c, hc⟩ := Option.isSome_iff_exists.mp hm
      rw [message?_eq_some.mp hc]
      exact ⟨hfound, rfl⟩
    · cases h

/-! ### The table of extensions -/

theorem LinkStep.mem_after {n : NodeId} {before after : List ExtensionEntry} {k k' : NodeKind}
    (h : g.LinkStep n before k k' after) {entry : ExtensionEntry} :
    entry ∈ after ↔ entry ∈ before ∨ ∃ e f, k' = .extension e ∧ e.target = some entry.target ∧
      e.field = entry.field ∧ g.field? entry.field = some f ∧ f.id = entry.id := by
  cases h with
  | field => simp
  | method => simp
  | other _ hextension => simp [hextension]
  | @extension e target _ hattached =>
    cases hattached with
    | none => simp
    | @some target m f _ _ hf =>
      rw [List.mem_append, List.mem_singleton]
      refine or_congr_right ⟨?_, ?_⟩
      · rintro rfl
        exact ⟨_, f, rfl, rfl, rfl, hf, rfl⟩
      · rintro ⟨e', f', heq, htarget, hfield, hf', hid⟩
        cases heq
        cases htarget
        have hentry : e.field = entry.field := hfield
        rw [← hentry, hf] at hf'
        cases hf'
        rw [hentry, hid]

theorem LinkStep.accepted {n : NodeId} {before after : List ExtensionEntry} {k k' : NodeKind}
    (h : g.LinkStep n before k k' after) (hbefore : ∀ entry ∈ before, g.Accepts entry) :
    ∀ entry ∈ after, g.Accepts entry := by
  cases h with
  | @extension e target _ hattached =>
    cases hattached with
    | none => exact hbefore
    | @some target m f _ hm hf hopen hfree =>
      refine List.forall_mem_append.mpr ⟨hbefore, List.forall_mem_singleton.mpr ?_⟩
      have hkind := message?_eq_some.mp hm
      refine ⟨?_, ?_, fun n hn hid => hfree (List.any_eq_true.mpr ⟨n, hn, hid⟩)⟩
      · show (g.kind target).isMessage
        rw [hkind]
        rfl
      · show (g.kind target).opens f.id
        rw [hkind]
        exact hopen
  | _ => exact hbefore

/-- The extensions that have been found are those of the nodes so far. -/
theorem LinkedBy.mem_found {found : Nat → List ExtensionEntry} (h : g.LinkedBy found g') {n : Nat}
    (hn : n ≤ g.size) {entry : ExtensionEntry} :
    entry ∈ found n ↔ ∃ x < n, ∃ e f, g'.kind x = .extension e ∧ e.target = some entry.target ∧
      e.field = entry.field ∧ g.field? entry.field = some f ∧ f.id = entry.id := by
  induction n with
  | zero => simp [h.first]
  | succ n ih =>
    rw [(h.step n hn).mem_after, ih (Nat.le_of_succ_le hn), Nat.exists_lt_succ_right]

theorem LinkedBy.accepted {found : Nat → List ExtensionEntry} (h : g.LinkedBy found g') {n : Nat}
    (hn : n ≤ g.size) : ∀ entry ∈ found n, g.Accepts entry := by
  induction n with
  | zero => simp [h.first]
  | succ n ih => exact (h.step n hn).accepted (ih (Nat.le_of_succ_le hn))

/-! ### Linking keeps what was judged -/

theorem LinkStep.eq_of_hasScope {n : NodeId} {before after : List ExtensionEntry} {k k' : NodeKind}
    (h : g.LinkStep n before k k' after) (hscope : k.hasScope) : k' = k := by
  cases h with
  | other => rfl
  | _ => cases hscope

/-- Values of enums stay what they are. -/
theorem LinkStep.enumValue {n : NodeId} {before after : List ExtensionEntry} {k k' : NodeKind}
    (h : g.LinkStep n before k k' after) {id : Int32} {options : Options} :
    k' = .enumValue id options ↔ k = .enumValue id options := by
  cases h <;> simp

theorem LinkStep.exists_extension {n : NodeId} {before after : List ExtensionEntry} {k : NodeKind}
    {e' : ExtensionNode} (h : g.LinkStep n before k (.extension e') after) :
    ∃ e target, k = .extension e ∧ e' = { e with target } ∧ g.Attached n e before target after := by
  cases h with
  | extension h => exact ⟨_, _, rfl, rfl, h⟩
  | other _ hextension => exact absurd rfl (hextension e')

theorem LinkStep.exists_method {n : NodeId} {before after : List ExtensionEntry} {k : NodeKind}
    {m' : MethodNode} (h : g.LinkStep n before k (.method m') after) :
    ∃ m l, k = .method m ∧ m' = { m with link := some l } ∧ g.linkMethod n m = .ok l := by
  cases h with
  | method h => exact ⟨_, _, rfl, rfl, h⟩
  | other _ _ hmethod => exact absurd rfl (hmethod m')

section Kept

variable (hlink : g.link = .ok g')

include hlink

theorem kind_eq_of_link {n : NodeId} (hscope : (g.kind n).hasScope) : g'.kind n = g.kind n := by
  obtain ⟨found, hlinked⟩ := exists_linkedBy_of_link hlink
  rcases Nat.lt_or_ge n g.size with hlt | hle
  · exact (hlinked.step n hlt).eq_of_hasScope hscope
  · rw [kind_of_size_le hle, kind_of_size_le (hlinked.size.symm ▸ hle)]

theorem enumValues_of_link (e : NodeId) : g'.enumValues e = g.enumValues e := by
  obtain ⟨found, hlinked⟩ := exists_linkedBy_of_link hlink
  have hshape := sameShape_of_link hlink
  rw [Graph.enumValues, Graph.enumValues, hshape.children]
  refine List.filterMap_congr fun v _ => ?_
  have hvalue : ∀ id options,
      g'.kind v = .enumValue id options ↔ g.kind v = .enumValue id options := by
    rcases Nat.lt_or_ge v g.size with hlt | hle
    · exact fun id options => (hlinked.step v hlt).enumValue
    · rw [kind_of_size_le hle, kind_of_size_le (hlinked.size.symm ▸ hle)]
      exact fun _ _ => Iff.rfl
  rw [hshape.name]
  split
  · rename_i id options hkind
    rw [(hvalue id options).mp hkind]
  · rename_i hnone
    split
    · rename_i id options hkind
      exact absurd ((hvalue id options).mpr hkind) (hnone id options)
    · rfl

theorem canonical_of_link {t : FieldType} {a : Atom} (ha : t.Canonical g a) : t.Canonical g' a := by
  cases t with
  | enumeration e =>
    obtain ⟨id, heq, hid⟩ := ha
    refine ⟨id, heq, ?_⟩
    rw [enumHas, enumValues_of_link hlink]
    exact hid
  | _ => exact ha

theorem resolve?_of_link (n : NodeId) (name : String) :
    g'.resolve? (g'.scopeOf n) name true = g.resolve? (g.scopeOf n) name true := by
  have hshape := sameShape_of_link hlink
  rw [hshape.scopeOf, hshape.resolve?]

theorem names_of_link {n : NodeId} {name : String} {t : FieldType} (ht : g.Names n name t) :
    g'.Names n name t := by
  have hkind : ∀ {m : NodeId} {k : NodeKind}, g.kind m = k → k.hasScope → g'.kind m = k :=
    fun hk hscope => (kind_eq_of_link hlink (hk ▸ hscope)).trans hk
  have hresolve := resolve?_of_link hlink n name
  cases ht with
  | scalar hname => exact .scalar hname
  | enumeration hname hfound he => exact .enumeration hname (hresolve.trans hfound) (hkind he rfl)
  | message hname hfound hm hgroup =>
    exact .message hname (hresolve.trans hfound) (hkind hm rfl) hgroup
  | group hname hfound hm hgroup => exact .group hname (hresolve.trans hfound) (hkind hm rfl) hgroup

theorem fieldClosed_of_link {n : NodeId} {f : FieldNode} {l : FieldLink}
    (hf : g.FieldClosed n f l) : g'.FieldClosed n { f with link := some l } l :=
  ⟨names_of_link hlink hf.type, hf.map, hf.keyType, hf.packed,
    fun a ha => canonical_of_link hlink (hf.default a ha)⟩

theorem hasFieldId_of_link (n : NodeId) (id : UInt32) : g'.hasFieldId id n = g.hasFieldId id n := by
  have hunlinked : ∀ g : Graph, g.hasFieldId id n =
      ((g.field? n).map FieldNode.unlinked).any fun f => decide (f.id = id) := by
    intro g
    rw [hasFieldId, Option.any_map]
    rfl
  rw [hunlinked, hunlinked, unlinked_field? (linkedKind_of_link hlink).2.2]

theorem accepts_of_link {entry : ExtensionEntry} (hentry : g.Accepts entry) : g'.Accepts entry := by
  obtain ⟨hmessage, hopens, hfree⟩ := hentry
  rw [Accepts, kind_eq_of_link hlink (NodeKind.hasScope_of_isMessage hmessage),
    (sameShape_of_link hlink).ownFields]
  refine ⟨hmessage, hopens, fun n hn hid => hfree n hn ?_⟩
  rw [← hasFieldId_of_link hlink]
  exact hid

/-- The table has an entry for each extension whose target is known. -/
theorem mem_extensions_of_link {entry : ExtensionEntry} :
    entry ∈ g'.extensions ↔ ∃ x, g'.Enters x entry := by
  obtain ⟨found, hlinked⟩ := exists_linkedBy_of_link hlink
  have hkinds := (linkedKind_of_link hlink).2.2
  rw [← hlinked.last, hlinked.mem_found (Nat.le_refl _)]
  constructor
  · rintro ⟨x, -, e, f, hx, htarget, hfield, hf, hid⟩
    obtain ⟨l, -, hf'⟩ := (hkinds entry.field).field f (field?_eq_some.mp hf)
    exact ⟨x, e, _, hx, htarget, hfield, field?_eq_some.mpr hf', hid⟩
  · rintro ⟨x, e, f', hx, htarget, hfield, hf', hid⟩
    obtain ⟨f, l, hf, -, rfl⟩ := exists_link_of_field? hkinds hf'
    refine ⟨x, ?_, e, f, hx, htarget, hfield, hf, hid⟩
    rw [← hlinked.size]
    exact lt_size_of_owned? (n := e.field) (by rw [hx]; rfl)

/-- The target of an extension is what it names. There is none only for an option type that is not
defined. -/
theorem target_of_link (hg : g.Tree) {x : NodeId} {e : ExtensionNode}
    (hx : g'.kind x = .extension e) : e.target = g'.resolve? (g'.scopeOf x) e.extendee true ∧
      (e.target = none → isDescriptorType e.extendee) := by
  obtain ⟨found, hlinked⟩ := exists_linkedBy_of_link hlink
  have hlt : x < g.size := by
    rw [← hlinked.size]
    exact lt_size_of_owned? (n := e.field) (by rw [hx]; rfl)
  have hstep := hlinked.step x hlt
  rw [hx] at hstep
  obtain ⟨e₀, target, hx₀, rfl, hattached⟩ := hstep.exists_extension
  rw [resolve?_of_link hlink]
  generalize found (x + 1) = after at hattached
  cases hattached with
  | some htarget => exact ⟨htarget.symm, fun hnone => by cases hnone⟩
  | none hnone =>
    rcases hnone with ⟨hunresolved, hdescriptor⟩ | hfield
    · exact ⟨hunresolved.symm, fun _ => hdescriptor⟩
    · -- An extension has its field from the beginning.
      have howner := (hg.owned x e₀.field (by rw [hx₀]; rfl)).2
      rw [owner?_eq, hfield] at howner
      cases howner

theorem method_of_link {n : NodeId} {m : MethodNode} (hn : g'.kind n = .method m) :
    ∃ request response, m.link = some (request, response) ∧
      g'.resolve? (g'.scopeOf n) m.requestName true = some request ∧
      (g'.kind request).isMessage ∧
      g'.resolve? (g'.scopeOf n) m.responseName true = some response ∧
      (g'.kind response).isMessage := by
  obtain ⟨found, hlinked⟩ := exists_linkedBy_of_link hlink
  have hlt : n < g.size := by
    rcases Nat.lt_or_ge n g.size with hlt | hle
    · exact hlt
    · rw [kind_of_size_le (hlinked.size.symm ▸ hle)] at hn
      cases hn
  have hstep := hlinked.step n hlt
  rw [hn] at hstep
  obtain ⟨m₀, l, -, rfl, hl⟩ := hstep.exists_method
  rw [linkMethod] at hl
  obtain ⟨request, hrequest, hl⟩ := bind_eq_ok.mp hl
  obtain ⟨response, hresponse, hl⟩ := bind_eq_ok.mp hl
  cases hl
  obtain ⟨hrequest, hmessage⟩ := linkMessage_eq_ok hrequest
  obtain ⟨hresponse, hmessage'⟩ := linkMessage_eq_ok hresponse
  have hkept : ∀ {m : NodeId}, (g.kind m).isMessage → (g'.kind m).isMessage := by
    intro m hm
    rw [kind_eq_of_link hlink (NodeKind.hasScope_of_isMessage hm)]
    exact hm
  exact ⟨request, response, rfl, (resolve?_of_link hlink n _).trans hrequest, hkept hmessage,
    (resolve?_of_link hlink n _).trans hresponse, hkept hmessage'⟩

end Kept

/-- Looking up all references gives a closed graph. -/
theorem closed_of_link (hg : g.Tree) (hadmissible : g.Admissible) (hlink : g.link = .ok g') :
    g'.Closed := by
  have hkinds := (linkedKind_of_link hlink).2.2
  obtain ⟨found, hlinked⟩ := exists_linkedBy_of_link hlink
  refine ⟨fun n f' hf' => ?_, hadmissible.link hlink, fun entry => mem_extensions_of_link hlink,
    fun entry hentry => ?_, fun entry hentry => ?_, ?_, fun x e hx => target_of_link hlink hg hx,
    fun n m hn => ?_⟩
  · obtain ⟨f, l, -, hl, rfl⟩ := exists_link_of_field? hkinds hf'
    exact ⟨l, rfl, fieldClosed_of_link hlink (closed_of_linkField hl)⟩
  · obtain ⟨x, e, f, hx, -, hfield, hf, -⟩ := (mem_extensions_of_link hlink).mp hentry
    have howner := ((hg.congr (sameShape_of_link hlink)).owned x e.field (by rw [hx]; rfl)).2
    rw [hfield, owner?_eq, hf] at howner
    exact ⟨f, x, hf, howner⟩
  · rw [← hlinked.last] at hentry
    exact accepts_of_link hlink (hlinked.accepted (Nat.le_refl _) entry hentry)
  · exact (linkedKind_of_link hlink).2.1.apart
  · exact method_of_link hlink hn

/-- Fields that have been looked up are closed in whatever graph is kept as a snapshot. -/
theorem lasting_fieldsClosed : Lasting False (fun _ => True) fun g =>
    ∀ n f, g.field? n = some f → ∃ l, f.link = some l ∧ g.FieldClosed n f l where
  stable _ _ _ _ := trivial
  empty _ := trivial
  mapScope _ _ _ _ := trivial
  link := by
    intro g g' _ hlink
    refine ⟨trivial, fun n f' hf' => ?_⟩
    obtain ⟨f, l, -, hl, rfl⟩ := exists_link_of_field? (linkedKind_of_link hlink).2.2 hf'
    exact ⟨l, rfl, fieldClosed_of_link hlink (closed_of_linkField hl)⟩

/-! ### Services -/

/-- The method that a node of the snapshot is, as a service hands it out. -/
def handOut? (S : Snapshot) (n : NodeId) : Option Method :=
  match S.graph.kind n with
  | .method m => m.link.map fun (request, response) =>
    { name := S.graph.name n, request := ⟨⟨S, request⟩⟩, response := ⟨⟨S, response⟩⟩,
      requestStream := m.requestStream, responseStream := m.responseStream, options := m.options }
  | _ => none

/-- The method belongs to the snapshot, and so do its messages. -/
structure Complete (S : Snapshot) (m : Method) : Prop where
  request : m.request.snapshot = S ∧ (S.graph.kind m.request.node).isMessage
  response : m.response.snapshot = S ∧ (S.graph.kind m.response.node).isMessage

theorem Closed.exists_handOut? {S : Snapshot} (hS : S.graph.Closed) {n : NodeId}
    (hn : (S.graph.kind n).isMethod = true) :
    ∃ m, handOut? S n = some m ∧ m.name = S.graph.name n ∧ Complete S m := by
  cases hkind : S.graph.kind n with
  | method m =>
    obtain ⟨request, response, hlink, -, hrequest, -, hresponse⟩ := hS.method n m hkind
    rw [handOut?, hkind]
    simp only [hlink, Option.map_some]
    exact ⟨_, rfl, rfl, ⟨rfl, hrequest⟩, ⟨rfl, hresponse⟩⟩
  | _ => rw [hkind] at hn; cases hn

theorem handOut?_eq_none {S : Snapshot} {n : NodeId} (hn : ¬(S.graph.kind n).isMethod = true) :
    handOut? S n = none := by
  rw [handOut?]
  cases hkind : S.graph.kind n with
  | method m => rw [hkind] at hn; exact absurd rfl hn
  | _ => rfl

/-- A service hands out all of its methods. -/
theorem Closed.methods {S : Snapshot} (hS : S.graph.Closed) (service : NodeId) :
    (ServiceType.methods ⟨⟨S, service⟩⟩).map Method.name =
        ((S.graph.children service).filter fun n => (S.graph.kind n).isMethod).map S.graph.name ∧
      ∀ m ∈ ServiceType.methods ⟨⟨S, service⟩⟩, Complete S m := by
  show ((S.graph.children service).filterMap (handOut? S)).map Method.name = _ ∧
    ∀ m ∈ (S.graph.children service).filterMap (handOut? S), Complete S m
  generalize S.graph.children service = nodes
  induction nodes with
  | nil => exact ⟨rfl, fun m hm => by cases hm⟩
  | cons n more ih =>
    obtain ⟨hnames, hcomplete⟩ := ih
    by_cases hn : (S.graph.kind n).isMethod = true
    · obtain ⟨m, hm, hname, hmessages⟩ := hS.exists_handOut? hn
      rw [List.filterMap_cons_some hm, List.map_cons, hnames, hname, List.filter_cons, if_pos hn]
      exact ⟨rfl, List.forall_mem_cons.mpr ⟨hmessages, hcomplete⟩⟩
    · rw [List.filterMap_cons_none (handOut?_eq_none hn), List.filter_cons, if_neg hn]
      exact ⟨hnames, hcomplete⟩

end Graph

theorem Snapshot.Built.fieldClosed {S : Snapshot} (h : S.Built) {n : NodeId}
    {f : FieldNode} (hf : S.graph.field? n = some f) :
    ∃ l, f.link = some l ∧ S.graph.FieldClosed n f l := by
  obtain ⟨r, hr, hS⟩ := h
  exact (hr.meets Graph.lasting_fieldsClosed).snapshot S hS n f hf

namespace Registry

variable {r : Registry}

/-- References that have been looked up are kept, in the graph at hand and in the snapshot. -/
theorem leads_resolveAll (hr : r.isResolved = false) (stamp : Nat) :
    Leads (· = r) (resolveAll stamp) (fun _ s => ∃ g, r.graph.link = .ok g ∧
      s = { r with graph := g, snapshot := some { graph := g, stamp } }) (· = r) := by
  rw [resolveAll]
  refine Leads.bindGet ?_
  rw [if_neg (by rw [hr]; exact Bool.false_ne_true)]
  split
  · exact Leads.throw fun s hs => hs
  · rename_i g hlink
    exact Leads.set fun s hs => ⟨g, hlink, rfl⟩

/-- Looking up all references closes the graph. Whatever has been done to a registry, refused or
not: if its references can be looked up, the snapshot that is taken is closed, it is the graph at
hand, and its services hand out all of their methods, each with two messages. -/
theorem Built.resolved_closed (h : r.Built) (hr : r.isResolved = false) (stamp : Nat)
    (hok : ((ExceptT.run (Registry.resolveAll stamp)).run r).1 = .ok ()) :
    ∃ S, (r.after (Registry.resolveAll stamp)).snapshot = some S ∧ S.stamp = stamp ∧
      S.graph = (r.after (Registry.resolveAll stamp)).graph ∧ S.graph.Closed ∧
      ∀ service, (ServiceType.methods ⟨⟨S, service⟩⟩).map Method.name =
          ((S.graph.children service).filter fun n => (S.graph.kind n).isMethod).map S.graph.name ∧
        ∀ m ∈ ServiceType.methods ⟨⟨S, service⟩⟩, Graph.Complete S m := by
  rcases (leads_resolveAll hr stamp).outcome rfl with ⟨-, -, g, hlink, hrun⟩ | ⟨e, he, -⟩
  · have hstanding := h.reached.standing
    have hclosed := Graph.closed_of_link hstanding.tree hstanding.admissible hlink
    have hafter : r.after (Registry.resolveAll stamp) = _ := hrun
    rw [hafter]
    exact ⟨⟨g, stamp⟩, rfl, rfl, rfl, hclosed, fun service => Graph.Closed.methods hclosed service⟩
  · rw [hok] at he
    cases he

/-- A message, an extension of it, and a service. All of them refer to the message. -/
def referring : List Definition :=
  let field : FieldDecl :=
    { rule := .optional, typeName := "M", keyType := none, name := "x", id := 4, options := {},
      oneof := none, line := 1 }
  let method : MethodDecl :=
    { name := "F", request := "M", response := "M", requestStream := false, responseStream := false,
      options := {} }
  [.message { name := "M", extensionRanges := [(4, 9)] },
    .extension { extendee := "M", fields := [field], messages := [], line := 1 },
    .service { name := "S", methods := [method], options := {}, line := 1 }]

/-- The registry of these definitions, whose references have not been looked up. -/
def unresolved : Registry :=
  (empty {}).after (create referring)

/-- The extension is entered, and the service hands out its method. -/
theorem resolved_closed_referring : ∃ S, (unresolved.after (resolveAll 0)).snapshot = some S ∧
    S.graph.Closed ∧ S.graph.extensions = [⟨1, 4, 3⟩] ∧
    (ServiceType.methods ⟨⟨S, 4⟩⟩).map Method.name = ["F"] := by
  have hbuilt : unresolved.Built := .create (.empty {}) referring
  have hok : ((ExceptT.run (resolveAll 0)).run unresolved).1.toOption = some () := by cbv
  obtain ⟨S, hS, -, hgraph, hclosed, hmethods⟩ := hbuilt.resolved_closed (by cbv) 0 (by
    cases hrun : ((ExceptT.run (resolveAll 0)).run unresolved).1 with
    | ok a => rfl
    | error e => rw [hrun] at hok; cases hok)
  refine ⟨S, hS, hclosed, ?_, ?_⟩
  · rw [hgraph]
    cbv
  · rw [(hmethods 4).1, hgraph]
    cbv

end Registry

end Protobuf

import Protobuf.Proofs.Message.Change
import Protobuf.Proofs.Registry.Loaded
import Protobuf.Proofs.Wire.Extent

/-!
# One message after the other

Bytes of a message behind bytes of a message are the bytes of one message again, which is the first
one updated by the second: lists are continued, the entries of maps are put in key by key, single
values are replaced, and a member of a oneof takes the place of the others.

What the changes of the second message do to an empty message tells what they do to any other one.
This is the invariant of the proof, kept by each change: the message that is being read from the
second bytes alone, and the one that is being read from both, stay in the relation of `IsUpdate`.

## Main definitions

* `Value.updatedBy`, `Message.updatedBy` — a message updated by one that was read later.
* `Message.IsUpdate` — the same, field by field.
* `Change.Fits` — a change is one that a record of a message type can make.

## Main results

* `Message.isUpdate_updatedBy` — what an update does to each field
* `Message.IsUpdate.foldl` — changes made to an empty message update any other one by the result
* `Message.decode_append` — decoding bytes one after the other is updating
-/

namespace Protobuf

/-- A map with the entries of another one put in, key by key. -/
def MapValue.updatedBy (m later : MapValue) : MapValue :=
  { m with entries := Keyed.insertAll (fun e => e.1.keyText) later.entries m.entries }

/-! ### Updates -/

/-- A value of a field, updated by one that was read later: a list is continued, the entries of a
map are put in, and any other value is replaced. -/
def Value.updatedBy : Value → Value → Value
  | .list items, .list later => .list (items ++ later)
  | .map m, .map later => .map (MapValue.updatedBy m later)
  | _, later => later

namespace Message

/-- The value of a field of a message, updated by one that was read later. -/
def updated (m : Message) (f : NodeId) (later : Value) : Value :=
  (m.value? f).elim later (·.updatedBy later)

/-- A message updated by one that was read later. -/
def updatedBy (m later : Message) : Message :=
  later.entries.foldl (fun m e => m.put e.1 (m.updated e.1 e.2)) m

/-- The message `result` is `m` updated by `later`. A field that is present in `later` is updated;
else it is gone if a rival of it is present there, and it is what it was if none is. -/
structure IsUpdate (S : Snapshot) (m later result : Message) : Prop where
  present : ∀ f v, later.value? f = some v → result.value? f = some (m.updated f v)
  cleared : ∀ f, later.value? f = none →
    (∃ g v, later.value? g = some v ∧ S.graph.Compete f g) → result.value? f = none
  kept : ∀ f, later.value? f = none →
    (∀ g v, later.value? g = some v → ¬S.graph.Compete f g) → result.value? f = m.value? f

section

variable {S : Snapshot} {m n result result' : Message} {f f' : NodeId} {s : Slot}

/-! ### Single values -/

theorem value?_put_rival (hg : S.graph.Sound) (hm : m.graph = S.graph) (hne : f' ≠ f)
    (h : S.graph.Compete f f') (v : Value) : (m.put f v).value? f' = none := by
  rw [put, value?_insert, if_neg hne.symm, WellTyped.value?_foldl_erase,
    if_pos ((WellTyped.mem_rivals hg hm).mpr ⟨hne, h⟩)]

theorem value?_put_other (hg : S.graph.Sound) (hm : m.graph = S.graph) (hne : f' ≠ f)
    (h : ¬S.graph.Compete f f') (v : Value) : (m.put f v).value? f' = m.value? f' := by
  rw [put, value?_insert, if_neg hne.symm, WellTyped.value?_foldl_erase,
    if_neg fun hmem => h ((WellTyped.mem_rivals hg hm).mp hmem).2]

/-- A single value takes the place of any other value. -/
theorem updated_of_single {type : FieldType} {v : Value} (hv : v.Fills S .single type) (m : Message)
    (f : NodeId) : m.updated f v = v := by
  have hreplaces : ∀ w : Value, w.updatedBy v = v := by
    intro w
    cases hv <;> cases w <;> rfl
  rw [updated]
  cases m.value? f with
  | none => rfl
  | some w => exact hreplaces w

/-! ### Lists and maps -/

/-- The elements of a list. -/
def items (m : Message) (f : NodeId) : List Value :=
  ((m.value? f).bind Value.list?).getD []

/-- The map of a field, or an empty one. -/
def mapIn (m : Message) (f : NodeId) (s : Slot) (key : Scalar) : MapValue :=
  match m.value? f with
  | some (.map entries) => entries
  | _ => m.emptyMap s key

theorem updated_list (hm : m.WellTyped S) (hs : S.graph.slot? f = some s) (hshape : s.shape = .list)
    (later : List Value) : m.updated f (.list later) = .list (m.items f ++ later) := by
  rw [updated, items]
  cases hv : m.value? f with
  | none => rfl
  | some v =>
    have hfills := hm.fills hv hs
    rw [hshape] at hfills
    cases hfills
    rfl

theorem append_eq (m : Message) (f : NodeId) {more : List Value} (h : more ≠ []) :
    m.append f more = m.insert f (.list (m.items f ++ more)) := by
  rw [append, if_neg (by simpa using h)]
  rfl

/-- The map of a field is ordered, and has the types of the field. -/
theorem exists_mapIn (hm : m.WellTyped S) (hs : S.graph.slot? f = some s) {key : Scalar}
    (hshape : s.shape = .map key) : ∃ entries,
      Keyed.Ascending (fun e => e.1.keyText) entries ∧
      m.mapIn f s key = ⟨key, s.type, some S, entries⟩ ∧
      (m.value? f = none ∧ entries = [] ∨
        m.value? f = some (.map ⟨key, s.type, some S, entries⟩)) := by
  rw [mapIn]
  cases hv : m.value? f with
  | none =>
    refine ⟨[], Keyed.ascending_nil, ?_, .inl ⟨rfl, rfl⟩⟩
    rw [emptyMap, hm.snapshot]
    rfl
  | some v =>
    have hfills := hm.fills hv hs
    rw [hshape] at hfills
    cases hfills with
    | map hascending => exact ⟨_, hascending, rfl, .inr rfl⟩

theorem putEntry_eq (hm : m.WellTyped S) (hs : S.graph.slot? f = some s) {key : Scalar}
    (hshape : s.shape = .map key) (k : Atom) (v : Value) :
    m.putEntry f s key k v = m.insert f (.map ((m.mapIn f s key).insert k v)) := by
  rw [putEntry, mapIn]
  cases hw : m.value? f with
  | none => rfl
  | some w =>
    have hfills := hm.fills hw hs
    rw [hshape] at hfills
    cases hfills
    rfl

theorem updated_map (hm : m.WellTyped S) (hs : S.graph.slot? f = some s) {key : Scalar}
    (hshape : s.shape = .map key) {entries : List (Atom × Value)}
    (hascending : Keyed.Ascending (fun e => e.1.keyText) entries) :
    m.updated f (.map ⟨key, s.type, some S, entries⟩) =
      .map ((m.mapIn f s key).updatedBy ⟨key, s.type, some S, entries⟩) := by
  obtain ⟨entries', -, hmap, hvalue⟩ := exists_mapIn hm hs hshape
  rw [hmap, updated]
  rcases hvalue with ⟨hnone, rfl⟩ | hsome
  · have hall : Keyed.insertAll (fun e : Atom × Value => e.1.keyText) entries [] = entries := by
      refine Keyed.Ascending.ext (Keyed.ascending_nil.insertAll _) hascending fun k => ?_
      rw [Keyed.find?_insertAll hascending, Keyed.find?_nil, Option.or_none]
    rw [hnone, MapValue.updatedBy, hall]
    rfl
  · rw [hsome]
    rfl

/-! ### Keeping up an update -/

namespace IsUpdate

/-- An empty message updates nothing. -/
theorem empty (m : Message) (t : MessageType) : IsUpdate S m (Message.empty t) m :=
  ⟨by simp, by simp, fun _ _ _ => rfl⟩

/-- A single value takes the place of the same rivals in both messages. -/
theorem put (hg : S.graph.Sound) (hn : n.graph = S.graph) (hresult : result.graph = S.graph)
    (h : IsUpdate S m n result) {type : FieldType} {v : Value} (hv : v.Fills S .single type) :
    IsUpdate S m (n.put f v) (result.put f v) := by
  have hne : ∀ {g}, (n.put f v).value? g = none → g ≠ f := by
    rintro g hnone rfl
    rw [value?_put_self] at hnone
    cases hnone
  have hrest : ∀ {g}, g ≠ f → ¬S.graph.Compete f g →
      (n.put f v).value? g = n.value? g ∧ (result.put f v).value? g = result.value? g :=
    fun hne hcompete => ⟨value?_put_other hg hn hne hcompete v,
      value?_put_other hg hresult hne hcompete v⟩
  have hrival : ∀ {g x}, ¬S.graph.Compete f g → S.graph.Compete g x →
      (n.put f v).value? x = n.value? x := by
    intro g x hcompete hgx
    have hxf : x ≠ f := by
      rintro rfl
      exact hcompete hgx.symm
    exact (hrest hxf fun hfx => hcompete (hfx.trans hgx.symm)).1
  constructor
  case present =>
    intro g w hw
    by_cases hgf : g = f
    · subst hgf
      rw [value?_put_self, Option.some.injEq] at hw
      rw [value?_put_self, ← hw, updated_of_single hv]
    · by_cases hcompete : S.graph.Compete f g
      · rw [value?_put_rival hg hn hgf hcompete] at hw
        cases hw
      · rw [(hrest hgf hcompete).1] at hw
        rw [(hrest hgf hcompete).2, h.present g w hw]
  case cleared =>
    intro g hnone hpresent
    by_cases hcompete : S.graph.Compete f g
    · exact value?_put_rival hg hresult (hne hnone) hcompete v
    · obtain ⟨x, w, hw, hgx⟩ := hpresent
      rw [hrival hcompete hgx] at hw
      rw [(hrest (hne hnone) hcompete).2]
      exact h.cleared g ((hrest (hne hnone) hcompete).1.symm.trans hnone) ⟨x, w, hw, hgx⟩
  case kept =>
    intro g hnone habsent
    have hcompete : ¬S.graph.Compete f g := fun hfg =>
      habsent f v (value?_put_self n f v) hfg.symm
    rw [(hrest (hne hnone) hcompete).2]
    refine h.kept g ((hrest (hne hnone) hcompete).1.symm.trans hnone) fun x w hw hgx => ?_
    exact habsent x w ((hrival hcompete hgx).trans hw) hgx

/-- A field that has no rivals is brought up to date by itself. -/
theorem insert (h : IsUpdate S m n result) (halone : ∀ g, ¬S.graph.Compete f g) (v : Value) :
    IsUpdate S m (n.insert f v) (result.insert f (m.updated f v)) := by
  have hrival : ∀ {g x}, S.graph.Compete g x → (n.insert f v).value? x = n.value? x := by
    intro g x hgx
    rw [value?_insert, if_neg]
    rintro rfl
    exact halone g hgx.symm
  refine ⟨fun g w hw => ?_, fun g hg hcompete => ?_, fun g hg hnone => ?_⟩
  · rw [value?_insert] at hw ⊢
    split at hw
    · rename_i hfg
      cases hw
      rw [if_pos hfg, hfg]
    · rename_i hfg
      rw [if_neg hfg, h.present g w hw]
  · rw [value?_insert] at hg ⊢
    split at hg
    · cases hg
    · rename_i hfg
      obtain ⟨x, w, hw, hgx⟩ := hcompete
      rw [hrival hgx] at hw
      rw [if_neg hfg, h.cleared g hg ⟨x, w, hw, hgx⟩]
  · rw [value?_insert] at hg ⊢
    split at hg
    · cases hg
    · rename_i hfg
      rw [if_neg hfg]
      exact h.kept g hg fun x w hw hgx => hnone x w ((hrival hgx).trans hw) hgx

theorem value?_of_alone (h : IsUpdate S m n result) (halone : ∀ g, ¬S.graph.Compete f g) :
    result.value? f = (n.value? f).elim (m.value? f) fun v => some (m.updated f v) := by
  cases hn : n.value? f with
  | none => exact h.kept f hn fun g _ _ => halone g
  | some v => exact h.present f v hn

/-- Elements are appended to the longer list as well. -/
theorem append (hg : S.graph.Linked) (hm : m.WellTyped S) (hn : n.WellTyped S)
    (h : IsUpdate S m n result) (hs : S.graph.slot? f = some s) (hshape : s.shape = .list)
    (more : List Value) : IsUpdate S m (n.append f more) (result.append f more) := by
  have halone : ∀ g, ¬S.graph.Compete f g := fun g => hg.not_compete hs (by simp [hshape])
  have hitems : result.items f = m.items f ++ n.items f := by
    rw [items, h.value?_of_alone halone]
    cases hv : n.value? f with
    | none => simp [items, hv]
    | some v =>
      have hfills := hn.fills hv hs
      rw [hshape] at hfills
      cases hfills with
      | list =>
        rw [Option.elim_some, updated_list hm hs hshape]
        simp [items, hv, Value.list?]
  rcases eq_or_ne more [] with rfl | hne
  · exact h
  · rw [append_eq n f hne, append_eq result f hne, hitems, List.append_assoc,
      ← updated_list hm hs hshape]
    exact h.insert halone _

/-- An entry is put into the larger map as well. -/
theorem putEntry (hg : S.graph.Linked) (hm : m.WellTyped S) (hn : n.WellTyped S)
    (hresult : result.WellTyped S) (h : IsUpdate S m n result) (hs : S.graph.slot? f = some s)
    {key : Scalar} (hshape : s.shape = .map key) (k : Atom) (v : Value) :
    IsUpdate S m (n.putEntry f s key k v) (result.putEntry f s key k v) := by
  have halone : ∀ g, ¬S.graph.Compete f g := fun g => hg.not_compete hs (by simp [hshape])
  obtain ⟨entries, hascending, hmap, hvalue⟩ := exists_mapIn hm hs hshape
  obtain ⟨later, hlater, hmap', hvalue'⟩ := exists_mapIn hn hs hshape
  have hinserted : result.mapIn f s key = (m.mapIn f s key).updatedBy (n.mapIn f s key) := by
    rw [mapIn, h.value?_of_alone halone, hmap']
    rcases hvalue' with ⟨hnone, rfl⟩ | hsome
    · rw [hnone, Option.elim_none, hmap]
      rcases hvalue with ⟨hnone', rfl⟩ | hsome'
      · rw [hnone', emptyMap, hresult.snapshot]
        rfl
      · rw [hsome']
        rfl
    · rw [hsome, Option.elim_some, updated_map hm hs hshape hlater]
  rw [putEntry_eq hn hs hshape, putEntry_eq hresult hs hshape, hinserted, hmap, hmap']
  have hupdated : m.updated f (.map (MapValue.insert ⟨key, s.type, some S, later⟩ k v)) =
      .map ((MapValue.updatedBy ⟨key, s.type, some S, entries⟩
        ⟨key, s.type, some S, later⟩).insert k v) := by
    refine (updated_map hm hs hshape (hlater.insert (k, v))).trans ?_
    rw [hmap, MapValue.updatedBy, Keyed.insertAll_insert hlater hascending]
    rfl
  rw [← hupdated]
  exact h.insert halone _

end IsUpdate

/-! ### Updating by a whole message -/

theorem ascending_foldl_erase (h : Keyed.Ascending Prod.fst m.entries) (fields : List NodeId) :
    Keyed.Ascending Prod.fst (fields.foldl erase m).entries :=
  List.foldlRecOn (motive := fun m : Message => Keyed.Ascending Prod.fst m.entries) _ _ h
    fun _ h f _ => h.erase f

theorem ascending_put (h : Keyed.Ascending Prod.fst m.entries) (f : NodeId) (v : Value) :
    Keyed.Ascending Prod.fst (m.put f v).entries :=
  (ascending_foldl_erase h (m.rivals f)).insert (f, v)

theorem value?_cons (t : MessageType) (e : NodeId × Value) (more : List (NodeId × Value)) :
    value? ⟨t, e :: more⟩ f = if e.1 = f then some e.2 else value? ⟨t, more⟩ f := by
  rw [value?, Keyed.find?_cons]
  split <;> rfl

/-- The first value is put in before the others. None of these is in the same field or a rival. -/
theorem IsUpdate.cons (hg : S.graph.Sound) (hm : m.graph = S.graph) {t : MessageType}
    {e : NodeId × Value} {more : List (NodeId × Value)} (hlt : ∀ e' ∈ more, e.1 < e'.1)
    (hapart : ∀ e' ∈ more, ¬S.graph.Compete e.1 e'.1)
    (h : IsUpdate S (m.put e.1 (m.updated e.1 e.2)) ⟨t, more⟩ result) :
    IsUpdate S m ⟨t, e :: more⟩ result := by
  have hothers : ∀ f v, value? ⟨t, more⟩ f = some v → e.1 ≠ f ∧ ¬S.graph.Compete e.1 f := by
    intro f v hv
    have hmem := mem_of_value? hv
    exact ⟨fun heq => Nat.lt_irrefl _ (heq ▸ hlt _ hmem), hapart _ hmem⟩
  have habsent : value? ⟨t, more⟩ e.1 = none :=
    Option.eq_none_iff_forall_ne_some.mpr fun v hv => (hothers _ v hv).1 rfl
  constructor
  case present =>
    intro f v hv
    rw [value?_cons] at hv
    split at hv
    · rename_i heq
      subst heq
      cases hv
      -- the first value stays, since none of the others touches its field
      rw [h.kept e.1 habsent fun g w hw => (hothers g w hw).2, value?_put_self]
    · obtain ⟨hne, hfree⟩ := hothers f v hv
      rw [h.present f v hv, updated, value?_put_other hg hm hne.symm hfree]
      rfl
  case cleared =>
    intro f hf hcompete
    rw [value?_cons] at hf
    split at hf
    · cases hf
    rename_i hne
    -- a rival of the field is among the others, or is that of the first value
    by_cases hmore : ∃ g w, value? ⟨t, more⟩ g = some w ∧ S.graph.Compete f g
    · exact h.cleared f hf hmore
    · obtain ⟨g, w, hw, hfg⟩ := hcompete
      rw [value?_cons] at hw
      split at hw
      · rename_i heq
        subst heq
        rw [h.kept f hf fun g w hw hfg => hmore ⟨g, w, hw, hfg⟩,
          value?_put_rival hg hm (Ne.symm hne) hfg.symm]
      · exact absurd ⟨g, w, hw, hfg⟩ hmore
  case kept =>
    intro f hf hcompete
    rw [value?_cons] at hf
    split at hf
    · cases hf
    rename_i hne
    have hfree : ¬S.graph.Compete e.1 f := fun hef =>
      hcompete e.1 e.2 (by rw [value?_cons, if_pos rfl]) hef.symm
    have hkept := h.kept f hf fun g w hw =>
      hcompete g w (by rw [value?_cons, if_neg (hothers g w hw).1, hw])
    rw [hkept, value?_put_other hg hm (Ne.symm hne) hfree]

/-- What the values of one message do to another one. The induction is on the values that are still
to be put in, so it is about any fields that ascend and do not compete. -/
theorem isUpdate_foldl (hg : S.graph.Sound) (t : MessageType) {entries : List (NodeId × Value)}
    (hascending : Keyed.Ascending Prod.fst entries)
    (hapart : entries.Pairwise fun e e' => ¬S.graph.Compete e.1 e'.1) (hm : m.graph = S.graph) :
    IsUpdate S m ⟨t, entries⟩
      (entries.foldl (fun m e => m.put e.1 (m.updated e.1 e.2)) m) := by
  induction entries generalizing m with
  | nil => exact .empty m t
  | cons e more ih =>
    obtain ⟨hlt, hmore⟩ := List.pairwise_cons.mp hascending
    obtain ⟨hnone, hapart⟩ := List.pairwise_cons.mp hapart
    have hput : (m.put e.1 (m.updated e.1 e.2)).graph = S.graph := by
      rw [← hm, graph, graph, Decoding.type_put]
    exact .cons hg hm hlt hnone (ih hmore hapart hput)

/-- What an update does to each field. -/
theorem isUpdate_updatedBy (hg : S.graph.Sound) (hm : m.graph = S.graph) (hn : n.WellTyped S) :
    IsUpdate S m n (m.updatedBy n) := by
  have hregular := hn.regular
  refine isUpdate_foldl hg n.type hregular.ascending ?_ hm
  refine List.Pairwise.imp_of_mem (fun {e e'} he he' hlt hcompete => ?_) hregular.ascending
  have heq := hregular.apart e.1 e'.1 e.2 e'.2 (value?_of_mem hregular.ascending he)
    (value?_of_mem hregular.ascending he') (hn.graph ▸ hcompete)
  exact Nat.lt_irrefl _ (heq ▸ hlt)

/-- A message is updated in one way only. -/
theorem IsUpdate.eq (h : IsUpdate S m n result) (h' : IsUpdate S m n result')
    (htype : result.type = result'.type) (hascending : Keyed.Ascending Prod.fst result.entries)
    (hascending' : Keyed.Ascending Prod.fst result'.entries) : result = result' := by
  refine eq_of_value?_eq htype hascending hascending' fun f => ?_
  cases hv : n.value? f with
  | some v => rw [h.present f v hv, h'.present f v hv]
  | none =>
    by_cases hrival : ∃ g v, n.value? g = some v ∧ S.graph.Compete f g
    · rw [h.cleared f hv hrival, h'.cleared f hv hrival]
    · have hnone : ∀ g v, n.value? g = some v → ¬S.graph.Compete f g :=
        fun g v hg hfg => hrival ⟨g, v, hg, hfg⟩
      rw [h.kept f hv hnone, h'.kept f hv hnone]

theorem type_updatedBy (m n : Message) : (m.updatedBy n).type = m.type := by
  rw [updatedBy]
  induction n.entries generalizing m with
  | nil => rfl
  | cons e more ih => rw [List.foldl_cons, ih, Decoding.type_put]

theorem ascending_updatedBy (h : Keyed.Ascending Prod.fst m.entries) (n : Message) :
    Keyed.Ascending Prod.fst (m.updatedBy n).entries := by
  rw [updatedBy]
  induction n.entries generalizing m with
  | nil => exact h
  | cons e more ih => exact ih (ascending_put h e.1 _)

end

end Message

/-! ### Changes -/

/-- The change is one that a record of a message of the type `node` can make. -/
inductive Change.Fits (S : Snapshot) (node : NodeId) : Change → Prop
  | keep : Fits S node .keep
  | put {f : NodeId} {v : Value} {s : Slot} (known : f ∈ S.graph.allFields node)
      (slot : S.graph.slot? f = some s) (shape : s.shape = .single)
      (fills : v.Fills S .single s.type) : Fits S node (.put f v)
  | append {f : NodeId} {items : List Value} {s : Slot} (known : f ∈ S.graph.allFields node)
      (slot : S.graph.slot? f = some s) (shape : s.shape = .list)
      (fills : ∀ v ∈ items, v.Fills S .single s.type) : Fits S node (.append f items)
  | putEntry {f : NodeId} {s : Slot} {key : Scalar} {k : Atom} {v : Value}
      (known : f ∈ S.graph.allFields node) (slot : S.graph.slot? f = some s)
      (shape : s.shape = .map key) (holds : key.holds k) (fills : v.Fills S .single s.type) :
      Fits S node (.putEntry f s key k v)

section

variable {S : Snapshot} {m n result : Message}

theorem Change.Fits.wellTyped_apply (hg : S.graph.Linked) {c : Change}
    (hc : c.Fits S m.type.node) (hm : m.WellTyped S) : (c.apply m).WellTyped S := by
  cases hc with
  | keep => exact hm
  | put known slot shape fills => exact hm.put hg.toSound known slot (shape ▸ fills)
  | @append f items s known slot shape fills =>
    rw [apply, Message.append]
    split
    · exact hm
    · refine hm.insert_collection hg known slot (by simp [shape]) ?_
      rw [shape]
      exact .list fun v hv =>
        (List.mem_append.mp hv).elim (hm.items slot shape v) (fills v)
  | putEntry known slot shape holds fills =>
    exact Decoding.wellTyped_putEntry hg hm known slot shape holds fills

/-- One change, made to both messages. -/
theorem Message.IsUpdate.apply (hg : S.graph.Linked) (hm : m.WellTyped S) (hn : n.WellTyped S)
    (hresult : result.WellTyped S) {c : Change} {node : NodeId} (hc : c.Fits S node)
    (h : IsUpdate S m n result) : IsUpdate S m (c.apply n) (c.apply result) := by
  cases hc with
  | keep => exact h
  | put _ _ _ fills => exact h.put hg.toSound hn.graph hresult.graph fills
  | append _ slot shape _ => exact h.append hg hm hn slot shape _
  | putEntry _ slot shape _ _ => exact h.putEntry hg hm hn hresult slot shape _ _

/-- The changes that make a message out of another one make an update by it out of any other. -/
theorem Message.IsUpdate.foldl (hg : S.graph.Linked) {cs : List Change} {node : NodeId}
    (hcs : ∀ c ∈ cs, c.Fits S node) (hm : m.WellTyped S) (hn : n.WellTyped S)
    (hresult : result.WellTyped S) (hnode : n.type.node = node)
    (hnode' : result.type.node = node) (h : IsUpdate S m n result) :
    (cs.foldl Change.apply result).WellTyped S ∧
      IsUpdate S m (cs.foldl Change.apply n) (cs.foldl Change.apply result) := by
  induction cs generalizing n result with
  | nil => exact ⟨hresult, h⟩
  | cons c more ih =>
    have hc := hcs c List.mem_cons_self
    refine ih (fun c hc => hcs c (List.mem_cons_of_mem _ hc))
      (Change.Fits.wellTyped_apply hg (hnode ▸ hc) hn)
      (Change.Fits.wellTyped_apply hg (hnode' ▸ hc) hresult) ?_ ?_
      (h.apply hg hm hn hresult hc)
    · rw [Change.type_apply, hnode]
    · rw [Change.type_apply, hnode']

end

namespace Decoding

variable {S : Snapshot} {inner : Inner} {t : MessageType}

theorem sound_below (hg : S.graph.Linked) (levels : Nat) : Inner.Sound S (below levels) := by
  cases levels with
  | zero => exact fun t stream _ => Collects.throw rfl
  | succ levels => exact sound_message hg levels

theorem yields_change_fits (hg : S.graph.Linked) (hinner : Inner.Sound S inner)
    (ht : t.snapshot = S) (levels : Nat) (r : Wire.Record) :
    Yields (change inner levels t r) (Change.Fits S t.node) := by
  obtain ⟨id, p⟩ := r
  have hgraph : t.graph = S.graph := by rw [← ht]; rfl
  rw [change]
  split
  · rename_i f hf
    rw [MessageType.fieldById?, hgraph] at hf
    have hknown := (hg.fieldById?_eq_some.mp hf).1
    refine (collects_slot t.graph f).yields.bind fun s hs => ?_
    rw [hgraph] at hs
    rw [fieldChange]
    refine Yields.andThen fun _ => ?_
    generalize hshape : s.shape = shape
    unfold shapedChange
    split
    · exact (collects_value hinner ht s _).yields.bind fun v hv =>
        Yields.pure (.put hknown hs hshape hv)
    · split
      · exact (collects_packed s _).yields.bind fun items hitems =>
          Yields.pure (.append hknown hs hshape hitems)
      · exact (collects_value hinner ht s _).yields.bind fun v hv =>
          Yields.pure (.append hknown hs hshape (by simpa using hv))
    · exact (collects_value hinner ht s _).yields.bind fun v hv =>
        Yields.pure (.append hknown hs hshape (by simpa using hv))
    · exact (collects_entry hg hinner ht levels s _ _).yields.bind fun e he =>
        Yields.pure (.putEntry hknown hs hshape he.1 he.2)
    · exact Yields.throw _
  · exact Yields.andThen fun _ => Yields.pure .keep

end Decoding

namespace Message

variable {S : Snapshot} {t : MessageType} {a b : List UInt8} {ma mb : Message}

/-- Without defaults, the changes are all that there is to a message. -/
theorem decode_eq_ok_iff (hpopulate : t.graph.settings.populateDefaults = false)
    {bytes : List UInt8} {m : Message} : decode t bytes = .ok m ↔
      (Wire.Stream.ofBytes bytes).ending = .atEnd ∧
      ∃ cs, ((Wire.Stream.ofBytes bytes).records.mapM
          (Decoding.change (Decoding.below recursionLimit) recursionLimit t)).run [] =
            .ok (cs, []) ∧
        m = cs.foldl Change.apply (empty t) ∧ m.missingFields = [] := by
  rw [decode_eq_ok, Decoding.message_eq_ok, and_congr_right_iff]
  intro
  constructor
  · rintro ⟨cs, before, hcs, rfl, hnoted⟩
    obtain ⟨rfl, hmissing⟩ := List.append_eq_nil_iff.mp hnoted.symm
    have hplain := Change.populate_foldl hpopulate cs
    exact ⟨cs, hcs, hplain, by rw [hplain, hmissing]⟩
  · rintro ⟨cs, hcs, rfl, hmissing⟩
    exact ⟨cs, [], hcs, (Change.populate_foldl hpopulate cs).symm, by rw [hmissing]; rfl⟩

/-- What is present in a message is present after an update. -/
theorem IsUpdate.missingFields_eq_nil {m n result : Message} (h : IsUpdate S m n result)
    (htype : result.type = n.type) (hn : n.missingFields = []) : result.missingFields = [] := by
  have hgraph : result.graph = n.graph := by rw [graph, graph, htype]
  rw [missingFields_eq, absentRequired, List.map_eq_nil_iff, List.filter_eq_nil_iff] at hn ⊢
  rw [hgraph, htype]
  intro f hf hmissing
  refine hn f hf ?_
  rw [Bool.and_eq_true, Option.isNone_iff_eq_none] at hmissing ⊢
  refine ⟨hmissing.1, ?_⟩
  by_contra hpresent
  obtain ⟨v, hv⟩ := Option.ne_none_iff_exists'.mp hpresent
  have hupdated := h.present f v hv
  rw [hmissing.2] at hupdated
  cases hupdated

/-- Bytes of a message behind bytes of a message are the bytes of the first message updated by the
second. -/
theorem decode_append (hS : S.Loaded) (hpopulate : S.graph.settings.populateDefaults = false)
    (ht : t.snapshot = S) (ha : decode t a = .ok ma) (hb : decode t b = .ok mb) :
    decode t (a ++ b) = .ok (ma.updatedBy mb) ∧ IsUpdate S ma mb (ma.updatedBy mb) := by
  have hg := hS.linked
  have hgraph : t.graph = S.graph := congrArg Snapshot.graph ht
  obtain ⟨htype, hma, -⟩ := wellTyped_of_decode hg ht ha
  obtain ⟨htype', hmb, -⟩ := wellTyped_of_decode hg ht hb
  have hupdate := isUpdate_updatedBy hg.toSound hma.graph hmb
  refine ⟨?_, hupdate⟩
  rw [decode_eq_ok_iff (hgraph ▸ hpopulate)] at ha hb ⊢
  obtain ⟨hend, cs, hcs, hfold, -⟩ := ha
  obtain ⟨hend', cs', hcs', hfold', hmissing⟩ := hb
  have hfits : ∀ c ∈ cs', c.Fits S t.node := Yields.mapM (fun r _ =>
    Decoding.yields_change_fits hg (Decoding.sound_below hg _) ht _ r) _ _ _ hcs'
  -- The second changes are made to the first message instead of an empty one.
  obtain ⟨hboth, hupdate'⟩ := IsUpdate.foldl hg hfits hma (.empty ht) hma rfl (by rw [htype])
    (.empty ma t)
  rw [← hfold'] at hupdate'
  have heq : cs'.foldl Change.apply ma = ma.updatedBy mb :=
    hupdate'.eq hupdate (by rw [Change.type_foldl, type_updatedBy]) hboth.regular.ascending
      (ascending_updatedBy hma.regular.ascending mb)
  rw [Wire.Stream.ofBytes_append hend]
  refine ⟨hend', cs ++ cs', ?_, ?_, ?_⟩
  · rw [List.mapM_append, StateT.run_bind, hcs]
    refine bind_eq_ok.mpr ⟨(cs, []), rfl, ?_⟩
    rw [StateT.run_bind]
    exact bind_eq_ok.mpr ⟨(cs', []), hcs', rfl⟩
  · rw [List.foldl_append, ← hfold, heq]
  · exact hupdate.missingFields_eq_nil (by rw [type_updatedBy, htype, htype']) hmissing

end Message

/-- A message with a oneof, a map and a list. -/
def Snapshot.mixed : Snapshot where
  stamp := 0
  graph :=
    let link : FieldLink := ⟨.scalar .int32, none, false, none⟩
    { nodes := #[
        ⟨"", none, .package { children := [1] }⟩,
        ⟨"M", some 0, .message
          { scope := { children := [2, 3, 4, 5, 6] }, fields := [3, 4, 5, 6], oneofs := [2] }⟩,
        ⟨"o", some 1, .oneof { fields := [3, 4] }⟩,
        ⟨"x", some 1, .field { FieldNode.plain .proto2 .optional 1 "x" "int32" link with
          oneof := some 2 }⟩,
        ⟨"y", some 1, .field { FieldNode.plain .proto2 .optional 2 "y" "int32" link with
          oneof := some 2 }⟩,
        ⟨"m", some 1, .field { FieldNode.plain .proto2 .map 3 "m" "int32"
          { link with keyType := some .int32 } with keyTypeName := some "int32" }⟩,
        ⟨"r", some 1, .field (.plain .proto2 .repeated 4 "r" "int32" link)⟩]
      extensions := []
      settings := { populateDefaults := false } }

theorem Snapshot.loaded_mixed : Snapshot.mixed.Loaded := by
  have h : (Registry.ofText { populateDefaults := false }
    "message M {oneof o {int32 x = 1; int32 y = 2;} map<int32,int32> m = 3; repeated int32 r = 4;}"
    ).snapshot = some mixed := by
    cbv
  exact loaded_of_ofText h

namespace Message

/-- A message of that type: the field of the oneof that is present and its value, the value of the
key 1 in the map, and the list. -/
def mixed (f : NodeId) (v w : Int32) (items : List Int32) : Message :=
  ⟨⟨⟨.mixed, 1⟩⟩, [(f, .atom (.i32 v)),
    (5, .map ⟨.int32, .scalar .int32, some .mixed, [(.i32 1, .atom (.i32 w))]⟩),
    (6, .list (items.map fun i => .atom (.i32 i)))]⟩

/-- The changes that such a message is made of, where the list has one element. -/
def mixedChanges (f : NodeId) (v w i : Int32) : List Change :=
  [.put f (.atom (.i32 v)),
    .putEntry 5 ⟨"m", 3, .scalar .int32, .map .int32, false, false⟩ .int32 (.i32 1)
      (.atom (.i32 w)),
    .append 6 [.atom (.i32 i)]]

/-- The member of the oneof and the entry of the map give way, the list goes on. -/
theorem decode_append_mixed :
    decode ⟨⟨.mixed, 1⟩⟩ [8, 1, 26, 4, 8, 1, 16, 1, 32, 1] = .ok (mixed 3 1 1 [1]) ∧
      decode ⟨⟨.mixed, 1⟩⟩ [16, 2, 26, 4, 8, 1, 16, 2, 32, 2] = .ok (mixed 4 2 2 [2]) ∧
      decode ⟨⟨.mixed, 1⟩⟩ ([8, 1, 26, 4, 8, 1, 16, 1, 32, 1] ++
        [16, 2, 26, 4, 8, 1, 16, 2, 32, 2]) = .ok (mixed 4 2 2 [1, 2]) := by
  have ha : decode ⟨⟨.mixed, 1⟩⟩ [8, 1, 26, 4, 8, 1, 16, 1, 32, 1] = .ok (mixed 3 1 1 [1]) :=
    (decode_eq_ok_iff rfl).mpr ⟨by cbv, mixedChanges 3 1 1 1, by cbv, by cbv, by cbv⟩
  have hb : decode ⟨⟨.mixed, 1⟩⟩ [16, 2, 26, 4, 8, 1, 16, 2, 32, 2] = .ok (mixed 4 2 2 [2]) :=
    (decode_eq_ok_iff rfl).mpr ⟨by cbv, mixedChanges 4 2 2 2, by cbv, by cbv, by cbv⟩
  have hupdated : (mixed 3 1 1 [1]).updatedBy (mixed 4 2 2 [2]) = mixed 4 2 2 [1, 2] := by
    cbv
  exact ⟨ha, hb, hupdated ▸ (decode_append Snapshot.loaded_mixed rfl rfl ha hb).1⟩

end Message

end Protobuf

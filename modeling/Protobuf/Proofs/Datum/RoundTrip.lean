import Mathlib
import Protobuf.Proofs.Datum.Echo
import Protobuf.Proofs.Message.Assembled

/-!
# From messages to plain data and back

A program that is prepared for anything is handed a message as a map from names to values, and a
message can be made of such a map again. Both ways go down into the message on their own: one tells
enum values by their names, numbers as wide as they come and messages as maps, and the other looks
at nothing but the types of the fields. That they fit together is proved value by value: what has
been handed over of a value becomes a value that a setter takes, and what the setter keeps is equal
to the value that there was.

There is one gap. A list or a map that is absent shows up empty, but both of them as a sequence, and
no map is made of a sequence, even an empty one. So a message that lacks a map, or has one in it
that does, is handed over and not taken back. The refusal comes from wherever the first such message
is met, so each step down has two ways out, and these are what `Hinges` is about.

What plain data cannot tell is left out: extensions are not shown, numbers that an enum does not
declare have no names, and a signalling NaN is a quiet one afterwards.

## Main definitions

* `Message.LacksMap` — a map is absent.
* `Message.Portable` — what a message holds is not lost in plain data.
* `Hinges` — something comes out unless a map is absent.
* `Value.Returns` — a value may be handed over, and back.

## Main results

* `Value.returns_list`, `Value.returns_map`, `Value.returns_message` — values come back if the
  values in them do
* `Value.Fills.returns` — so any value does
* `Message.Assembled.ofSource_read` — which messages come back
-/

namespace Protobuf

/-- The field is a map of the message's own, and it is absent. -/
def Message.LacksMap (m : Message) (n : NodeId) : Prop :=
  n ∈ m.graph.ownFields m.type.node ∧ m.value? n = none ∧
    ∃ f, m.graph.field? n = some f ∧ f.rule = .map

/-- What the message itself holds is not lost in plain data: there are no extensions, and its atoms
are portable. -/
structure Message.Portable (m : Message) : Prop where
  own : ∀ n v, m.value? n = some v → n ∈ m.graph.ownFields m.type.node
  atoms : ∀ n v s, m.value? n = some v → m.graph.slot? n = some s →
    ∀ a, Value.atom a ∈ v.elements → a.Portable m.graph s.type

/-- The map field `n` is absent from `m`, which is a message in the value. -/
def Value.Lacks (v : Value) (m : Message) (n : NodeId) : Prop :=
  m ∈ v.messages ∧ m.LacksMap n

/-- A setter takes `v'` for the field, and what it keeps is equal to `v`. If the field is single,
this is also so if `v'` is put into a map first that is not part of any message. -/
def Snapshot.Regains (S : Snapshot) (s : Slot) (v' v : Value) : Prop :=
  ∃ kept, S.fitField s v' = .ok kept ∧ kept.same v ∧ (s.shape = .single →
    ∃ w, s.type.fitDetached v' = .ok w ∧ S.fit s.type w = .ok kept)

/-- What is built hinges on whether maps are absent: if none is that counts, something good comes
out, and otherwise a sequence has come where a map was expected. -/
def Hinges {α : Type} (absent : Message → NodeId → Prop) (x : Except DataError α)
    (good : α → Prop) : Prop :=
  (∀ m n, ¬absent m n) ∧ (∃ a, x = .ok a ∧ good a) ∨
    ∃ m n, absent m n ∧ x = .error (.mismatch (m.graph.name n) "map" "sequence")

/-! ### Building step by step -/

namespace Hinges

variable {α β : Type} {absent absent' : Message → NodeId → Prop} {x : Except DataError α}
  {good better : α → Prop} {good' : β → Prop}

theorem ok {a : α} (habsent : ∀ m n, ¬absent m n) (ha : good a) : Hinges absent (.ok a) good :=
  .inl ⟨habsent, a, rfl, ha⟩

theorem congr (h : Hinges absent x good) (habsent : ∀ m n, absent m n ↔ absent' m n) :
    Hinges absent' x good := by
  have heq : absent = absent' := funext fun m => funext fun n => propext (habsent m n)
  exact heq ▸ h

theorem imp (h : Hinges absent x good) (hgood : ∀ a, good a → better a) :
    Hinges absent x better :=
  h.imp_left (And.imp_right (Exists.imp fun a => And.imp_right (hgood a)))

theorem bind (h : Hinges absent x good) {f : α → Except DataError β}
    (hf : ∀ a, good a → Hinges absent' (f a) good') :
    Hinges (fun m n => absent m n ∨ absent' m n) (x >>= f) good' := by
  rcases h with ⟨hnone, a, rfl, ha⟩ | ⟨m, n, hmn, rfl⟩
  · rcases hf a ha with ⟨hnone', hb⟩ | ⟨m, n, hmn, hb⟩
    · exact .inl ⟨fun m n hmn => hmn.elim (hnone m n) (hnone' m n), hb⟩
    · exact .inr ⟨m, n, .inr hmn, hb⟩
  · exact .inr ⟨m, n, .inl hmn, rfl⟩

theorem bind_ok (h : Hinges absent x good) {f : α → Except DataError β}
    (hf : ∀ a, good a → ∃ b, f a = .ok b ∧ good' b) : Hinges absent (x >>= f) good' := by
  rcases h with ⟨hnone, a, rfl, ha⟩ | ⟨m, n, hmn, rfl⟩
  · exact .inl ⟨hnone, hf a ha⟩
  · exact .inr ⟨m, n, hmn, rfl⟩

theorem map (h : Hinges absent x good) {f : α → β} (hf : ∀ a, good a → good' (f a)) :
    Hinges absent (x.map f) good' := by
  rcases h with ⟨hnone, a, rfl, ha⟩ | ⟨m, n, hmn, rfl⟩
  · exact .inl ⟨hnone, f a, rfl, hf a ha⟩
  · exact .inr ⟨m, n, hmn, rfl⟩

end Hinges

/-- Whoever is prepared for anything is handed the value, and may have it back by handing over what
it was handed. -/
def Value.Returns (S : Snapshot) (shape : Shape) (t : FieldType) (v : Value) : Prop :=
  ∃ r d, v.read S.graph (some t) .anything = .ok r ∧ r.source.datum = .ok d ∧ d.isAbsent = false ∧
    ∀ (T : MessageType) (name : String) (s : Slot), T.snapshot = S → s.shape = shape → s.type = t →
      Hinges v.Lacks (d.value T name s) (S.Regains s · v)

/-! ### Atoms -/

section

variable {S : Snapshot} {s : Slot} {T : MessageType} {name : String} {a : Atom} {t : FieldType}

theorem Atom.value_datum {k : Scalar} (hshape : s.shape = .single) (htype : s.type = .scalar k) :
    a.datum.value T name s = .ok (.atom a.wide) := by
  cases a <;>
    simp only [datum, Datum.value, Datum.leaf, hshape, htype, Datum.atom?, wide]

/-- An atom of a scalar type is told by itself, and comes back wider. -/
theorem Value.returns_scalar {k : Scalar} (h : k.holds a)
    (hquiet : ∀ bits, a = .f32 bits → ¬IsSignalling bits) :
    (Value.atom a).Returns S .single (.scalar k) := by
  refine ⟨.atom a, a.datum, ?_, ?_, a.isAbsent_datum, fun T name s hT hshape htype => ?_⟩
  · rw [Value.read_atom, Reading.ofAtom_of_holds h]
  · rw [Reading.source, Atom.datum_source]
  · have hfit : ∀ b : Atom, k.coerce b = .ok a → S.fit (.scalar k) (.atom b) = .ok (.atom a) := by
      intro b hb
      rw [Snapshot.fit, Value.coerce, hb]
      rfl
    have hwide := Scalar.coerce_wide h hquiet
    rw [Atom.value_datum hshape htype]
    refine .ok (by simp [Value.Lacks, Value.messages])
      ⟨.atom a, ?_, by simp [Value.same], fun _ => ?_⟩
    · simp only [Snapshot.fitField, hshape, htype]
      exact hfit _ hwide
    · rw [htype]
      refine ⟨.atom a, ?_, hfit a (Scalar.coerce_of_holds h)⟩
      rw [FieldType.fitDetached, Value.coerce, hwide]
      rfl

/-- An enum value is told by its name, which leads back to it. -/
theorem Value.returns_enumeration (hg : S.graph.Branching) {e : NodeId} {id : Int32}
    (h : S.graph.enumHas e id = true) :
    (Value.atom (.enumeration id)).Returns S .single (.enumeration e) := by
  obtain ⟨text, htext⟩ := Graph.exists_enumName? h
  refine ⟨.atom (.string text), .text text, ?_, ?_, rfl, fun T name s hT hshape htype => ?_⟩
  · rw [Value.read_atom, Reading.ofAtom, Reading.enumName?, htext]
  · rw [Reading.source, Atom.datum_source]
    rfl
  · have hgraph : T.graph = S.graph := by rw [← hT]; rfl
    have hvalue : (Datum.text text).value T name s = .ok (.atom (.enumeration id)) := by
      simp only [Datum.value, Datum.leaf, hshape, htype, Datum.enumValue, hgraph,
        Graph.enumId?_of_enumName? hg htext]
    have hfit : S.fit (.enumeration e) (.atom (.enumeration id)) = .ok (.atom (.enumeration id)) :=
      Snapshot.fit_eq_ok_iff.mpr (.numbered rfl fun _ => h)
    rw [hvalue]
    refine .ok (by simp [Value.Lacks, Value.messages])
      ⟨.atom (.enumeration id), ?_, by simp [Value.same], fun _ => ?_⟩
    · simp only [Snapshot.fitField, hshape, htype]
      exact hfit
    · rw [htype]
      refine ⟨_, ?_, hfit⟩
      have hnumber := Graph.enumNumber_enumeration S.graph e id
      rw [Graph.enumNumber_of_ne_string (by simp)] at hnumber
      rw [FieldType.fitDetached, hnumber]
      rfl

end

/-! ### Lists -/

section

variable {S : Snapshot} {t : FieldType}

theorem Value.lacks_list {items : List Value} {m : Message} {n : NodeId} :
    (∃ v ∈ items, v.Lacks m n) ↔ (Value.list items).Lacks m n := by
  rw [Lacks, messages, messagesOfItems_eq, List.mem_flatMap]
  constructor
  · rintro ⟨v, hv, hm, hn⟩
    exact ⟨⟨v, hv, hm⟩, hn⟩
  · rintro ⟨⟨v, hv, hm⟩, hn⟩
    exact ⟨v, hv, hm, hn⟩

/-- Values come back one by one. -/
theorem Value.returns_items {items : List Value} (h : ∀ v ∈ items, v.Returns S .single t) :
    ∃ rs ds, Value.readItems S.graph (some t) .anything items = .ok rs ∧
      Source.datumOfItems (Reading.sourceOfItems rs) = .ok ds ∧
      ∀ (T : MessageType) (name : String) (s : Slot), T.snapshot = S → s.shape = .single →
        s.type = t → Hinges (fun m n => ∃ v ∈ items, v.Lacks m n)
          (Datum.valueOfItems T name s ds) fun vs =>
            ∃ kept, vs.mapM (S.fit t) = .ok kept ∧ Value.sameItems kept items := by
  induction items with
  | nil =>
    refine ⟨[], [], rfl, rfl, fun T name s _ _ _ => .ok (by simp) ⟨[], rfl, ?_⟩⟩
    rw [sameItems]
  | cons v more ih =>
    obtain ⟨r, d, hread, hdatum, -, hvalue⟩ := h v List.mem_cons_self
    obtain ⟨rs, ds, hreads, hdata, hvalues⟩ := ih fun w hw => h w (List.mem_cons_of_mem _ hw)
    refine ⟨r :: rs, d :: ds, ?_, ?_, fun T name s hT hshape htype => ?_⟩
    · rw [readItems, hread, hreads]
      rfl
    · rw [Reading.sourceOfItems, Source.datumOfItems, hdatum, hdata]
      rfl
    · rw [Datum.valueOfItems]
      simp only [bind_pure_comp]
      refine ((hvalue T name s hT hshape htype).bind fun v' hv' =>
        (hvalues T name s hT hshape htype).map ?_).congr fun m n => by simp
      rintro vs ⟨kept, hkept, hsame⟩
      obtain ⟨w, hw, hvw, -⟩ := hv'
      simp only [Snapshot.fitField, hshape, htype] at hw
      refine ⟨w :: kept, mapM_cons_eq_ok.mpr ⟨w, kept, hw, hkept, rfl⟩, ?_⟩
      rw [sameItems, hvw, hsame]
      rfl

/-- A list comes back if its elements do. -/
theorem Value.returns_list {items : List Value} (h : ∀ v ∈ items, v.Returns S .single t) :
    (Value.list items).Returns S .list t := by
  obtain ⟨rs, ds, hreads, hdata, hvalues⟩ := returns_items h
  refine ⟨.sequence rs, .sequence ds, ?_, ?_, rfl, fun T name s hT hshape htype => ?_⟩
  · rw [read_list, hreads]
    rfl
  · rw [Reading.source, Source.datum, hdata]
    rfl
  · simp only [Datum.value, hshape]
    refine ((hvalues T name s.element hT rfl htype).map ?_).congr fun m n => lacks_list
    rintro vs ⟨kept, hkept, hsame⟩
    refine ⟨.list kept, ?_, by rwa [same], fun hsingle => ?_⟩
    · simp only [Snapshot.fitField, hshape, htype, hkept]
      rfl
    · rw [hshape] at hsingle
      cases hsingle

/-! ### Maps -/

theorem Value.lacks_map {key : Scalar} {owner : Option Snapshot} {entries : List (Atom × Value)}
    {m : Message} {n : NodeId} :
    (∃ e ∈ entries, e.2.Lacks m n) ↔ (Value.map ⟨key, t, owner, entries⟩).Lacks m n := by
  rw [Lacks, messages, messagesOfEntries_eq, List.mem_flatMap]
  constructor
  · rintro ⟨e, he, hm, hn⟩
    exact ⟨⟨e, he, hm⟩, hn⟩
  · rintro ⟨⟨e, he, hm⟩, hn⟩
    exact ⟨e, he, hm, hn⟩

/-- Keys of maps are no floating-point numbers. -/
theorem Scalar.quiet_of_isMapKey {key : Scalar} {a : Atom} (hkey : key.isMapKey = true)
    (h : key.holds a) : ∀ bits, a = .f32 bits → ¬IsSignalling bits := by
  rintro bits rfl
  cases key <;> cases h
  cases hkey

/-- An entry that lies beyond all others is put at the end of a map. -/
theorem MapValue.set_beyond {key : Scalar} {a : Atom} {v w : Value}
    {entries : List (Atom × Value)} (hkey : key.isMapKey = true) (ha : key.holds a)
    (hv : t.fitDetached v = .ok w) (h : ∀ e ∈ entries, e.1.keyText < a.keyText) :
    MapValue.set ⟨key, t, none, entries⟩ (.atom a.wide) v =
      .ok ⟨key, t, none, entries ++ [(a, w)]⟩ := by
  have hcoerce : Value.coerce key (.atom a.wide) = .ok a :=
    Scalar.coerce_wide ha (Scalar.quiet_of_isMapKey hkey ha)
  refine MapValue.set_eq_ok_iff.mpr ⟨a, w, hcoerce, hv, ?_⟩
  rw [MapValue.insert, Keyed.insert_eq_append (x := (a, w)) h]

/-- Entries come back one by one, in a map that is not part of any message. -/
theorem Value.returns_entries {key : Scalar} (hkey : key.isMapKey = true)
    {entries : List (Atom × Value)} (hkeys : ∀ e ∈ entries, key.holds e.1)
    (hascending : Keyed.Ascending (fun e => e.1.keyText) entries)
    (h : ∀ e ∈ entries, e.2.Returns S .single t) :
    ∃ rs ds, Value.readEntries S.graph key t .anything .anything entries = .ok rs ∧
      Source.datumOfEntries (Reading.sourceOfEntries rs) = .ok ds ∧
      ∀ (T : MessageType) (name : String) (s : Slot) (before : List (Atom × Value)),
        T.snapshot = S → s.type = t →
        (∀ e ∈ before, ∀ e' ∈ entries, e.1.keyText < e'.1.keyText) →
        Hinges (fun m n => ∃ e ∈ entries, e.2.Lacks m n)
          (Datum.valueOfEntries T name s key ⟨key, t, none, before⟩ ds) fun map =>
            ∃ after kept, map = ⟨key, t, none, before ++ after⟩ ∧
              List.Forall₂ (S.EntryConverts t) after kept ∧ Value.sameEntries kept entries := by
  induction entries with
  | nil =>
    refine ⟨[], [], rfl, rfl, fun T name s before _ _ _ =>
      .ok (by simp) ⟨[], [], by rw [List.append_nil], .nil, ?_⟩⟩
    rw [sameEntries]
  | cons e more ih =>
    obtain ⟨a, v⟩ := e
    obtain ⟨hbeyond, hascending⟩ := List.pairwise_cons.mp hascending
    have ha := hkeys _ List.mem_cons_self
    obtain ⟨r, d, hread, hdatum, -, hvalue⟩ := h _ List.mem_cons_self
    obtain ⟨rs, ds, hreads, hdata, hvalues⟩ := ih (fun e he => hkeys e (List.mem_cons_of_mem _ he))
      hascending fun e he => h e (List.mem_cons_of_mem _ he)
    refine ⟨(.atom a, r) :: rs, (a.datum, d) :: ds, ?_, ?_,
      fun T name s before hT htype hbefore => ?_⟩
    · rw [readEntries, hread, hreads]
      show (Except.ok (Reading.ofAtom S.graph _ a)).map _ >>= _ = _
      rw [Reading.ofAtom_of_holds ha]
      rfl
    · rw [Reading.sourceOfEntries, Source.datumOfEntries, Reading.source, Atom.datum_source, hdatum,
        hdata]
      rfl
    · rw [Datum.valueOfEntries, Atom.value_datum rfl rfl]
      refine ((hvalue T name s.entryValue hT rfl htype).bind fun v' hv' =>
        (?_ : Hinges (fun m n => ∃ e ∈ more, e.2.Lacks m n) _ _)).congr fun m n => by simp
      obtain ⟨kept, -, hkept, hdetached⟩ := hv'
      obtain ⟨w, hw, hfit⟩ := hdetached rfl
      rw [show s.entryValue.type = t from htype] at hw hfit
      -- keys are in order, so the entry goes behind those before and the next ones go behind it
      rw [MapValue.set_beyond hkey ha hw fun e he => hbefore e he _ List.mem_cons_self]
      have hbefore' : ∀ e ∈ before ++ [(a, w)], ∀ e' ∈ more, e.1.keyText < e'.1.keyText := by
        intro e he e' he'
        rcases List.mem_append.mp he with he | he
        · exact hbefore e he e' (List.mem_cons_of_mem _ he')
        · rw [List.mem_singleton.mp he]
          exact hbeyond e' he'
      refine (hvalues T name s (before ++ [(a, w)]) hT htype hbefore').imp ?_
      rintro map ⟨after, kepts, rfl, hconverts, hsame⟩
      refine ⟨(a, w) :: after, (a, kept) :: kepts, ?_,
        .cons ⟨rfl, Snapshot.fit_eq_ok_iff.mp hfit⟩ hconverts, ?_⟩
      · rw [List.append_assoc, List.singleton_append]
      · rw [sameEntries, hkept, hsame]
        simp

/-- A map comes back if its values do. -/
theorem Value.returns_map {key : Scalar} (hkey : key.isMapKey = true)
    {entries : List (Atom × Value)} (hkeys : ∀ e ∈ entries, key.holds e.1)
    (hascending : Keyed.Ascending (fun e => e.1.keyText) entries)
    (h : ∀ e ∈ entries, e.2.Returns S .single t) :
    (Value.map ⟨key, t, some S, entries⟩).Returns S (.map key) t := by
  obtain ⟨rs, ds, hreads, hdata, hvalues⟩ := returns_entries hkey hkeys hascending h
  refine ⟨.map rs, .map ds, ?_, ?_, rfl, fun T name s hT hshape htype => ?_⟩
  · rw [read_map, hreads]
    rfl
  · rw [Reading.source, Source.datum, hdata]
    rfl
  · simp only [Datum.value, hshape]
    rw [htype]
    refine ((hvalues T name s [] hT htype (by simp)).map ?_).congr fun m n => lacks_map
    rintro map ⟨after, kept, rfl, hconverts, hsame⟩
    subst htype
    refine ⟨.map ⟨key, s.type, some S, kept⟩,
      Snapshot.fitField_eq_ok_iff.mpr (.map hshape hconverts), ?_, fun hsingle => ?_⟩
    · rw [same, hsame]
      simp
    · rw [hshape] at hsingle
      cases hsingle

end

/-! ### Messages, field by field -/

section

variable {g : Graph} {n : NodeId} {f : FieldNode} {l : FieldLink}

theorem Graph.slot?_of_repeated (hf : g.field? n = some f) (hl : f.link = some l)
    (hrule : f.rule = .repeated) : ∃ s, g.slot? n = some s ∧ s.shape = .list := by
  simp [slot?, hf, hl, hrule]

theorem Graph.slot?_of_map {key : Scalar} (hf : g.field? n = some f) (hl : f.link = some l)
    (hrule : f.rule = .map) (hkey : l.keyType = some key) :
    ∃ s, g.slot? n = some s ∧ s.shape = .map key := by
  simp [slot?, hf, hl, hrule, hkey]

end

/-- What the message hands over of a field to a program that is prepared for anything. -/
def Message.shown? (m : Message) (n : NodeId) : Option (Except DataError Reading) :=
  match m.value? n with
  | some v => some (v.read m.graph ((m.graph.field? n).bind FieldNode.type?) .anything)
  | none =>
    if (m.graph.field? n).any fun f => f.rule = .repeated || f.rule = .map then
      some (.ok (.sequence []))
    else none

/-- What has been handed over, with what the message hands over of a further field. -/
def Message.tell (m : Message) (done : List (Reading × Reading)) (n : NodeId) :
    Except DataError (List (Reading × Reading)) :=
  match m.shown? n with
  | some x => x.map fun r => done ++ [(.atom (.string (m.graph.name n)), r)]
  | none => .ok done

theorem Value.readFields_eq (g : Graph) (entries : List (NodeId × Value)) :
    Value.readFields g .anything entries =
      entries.map fun e => (e.1, e.2.read g ((g.field? e.1).bind FieldNode.type?) .anything) := by
  induction entries with
  | nil => rw [readFields, List.map_nil]
  | cons e more ih =>
    rw [readFields, ih]
    rfl

theorem Value.find?_readFields (g : Graph) (entries : List (NodeId × Value)) (n : NodeId) :
    Keyed.find? Prod.fst n (Value.readFields g .anything entries) =
      (Keyed.find? Prod.fst n entries).map fun e =>
        (e.1, e.2.read g ((g.field? e.1).bind FieldNode.type?) .anything) := by
  have hkey : ∀ e : NodeId × Value,
      (e.1, e.2.read g ((g.field? e.1).bind FieldNode.type?) .anything).1 = e.1 := fun _ => rfl
  rw [readFields_eq, Keyed.find?_map Prod.fst hkey]

/-- A message is handed over field by field. -/
theorem Message.read_anything (m : Message) : m.read .anything =
    ((m.graph.ownFields m.type.node).foldlM m.tell []).map .map := by
  refine congrArg (Except.map Reading.map)
    (congrArg (fun step => List.foldlM step [] (m.graph.ownFields m.type.node)) ?_)
  funext done n
  rw [tell, shown?, value?]
  dsimp only
  rw [Value.find?_readFields]
  cases h : Keyed.find? Prod.fst n m.entries with
  | none => rfl
  | some e =>
    cases Keyed.key_of_find? h
    rfl

/-- A map is absent, be it the field `n` itself or one in the value of the field. -/
def Message.LacksAt (m : Message) (n : NodeId) (k : Message) (n' : NodeId) : Prop :=
  k = m ∧ n' = n ∧ m.LacksMap n ∨ ∃ v, m.value? n = some v ∧ v.Lacks k n'

/-- Of the field `n` the reading `r` is handed over, and handed over again it is the datum `d`. What
is made of this may be set again, unless a map is absent, and no other field of the oneof is
present. -/
structure Message.Retold (S : Snapshot) (m : Message) (n : NodeId) (s : Slot) (r : Reading)
    (d : Datum) : Prop where
  slot : S.graph.slot? n = some s
  shown : m.shown? n = some (.ok r)
  datum : r.source.datum = .ok d
  present : d.isAbsent = false
  alone : ∀ n' v', m.value? n' = some v' → m.graph.Compete n n' → n = n'
  value : ∀ T : MessageType, T.snapshot = S →
    Hinges (m.LacksAt n) (d.value T (m.graph.name n) s) fun v' =>
      ∃ kept, S.fitField s v' = .ok kept ∧ Value.sameField (some kept) (m.value? n)

section

variable {S : Snapshot} {m : Message} {n : NodeId}

/-- A field that is present is handed over as its value is. -/
theorem Message.WellTyped.exists_retold (hm : m.WellTyped S) {v : Value}
    (hv : m.value? n = some v)
    (h : ∀ s, S.graph.slot? n = some s → v.Returns S s.shape s.type) :
    ∃ s r d, m.Retold S n s r d := by
  obtain ⟨-, s, hs⟩ := hm.regular.known n v hv
  rw [hm.graph] at hs
  obtain ⟨f, l, hf, hl, -, htype, -⟩ := Graph.slot?_eq_some hs
  obtain ⟨r, d, hread, hdatum, hpresent, hvalue⟩ := h s hs
  refine ⟨s, r, d, hs, ?_, hdatum, hpresent, fun n' v' => hm.regular.apart n n' v v' hv,
    fun T hT => ?_⟩
  · have hfieldType : (S.graph.field? n).bind FieldNode.type? = some s.type := by
      rw [hf, Option.bind_some, FieldNode.type?, hl, Option.map_some, htype]
    rw [shown?, hv]
    dsimp only
    rw [hm.graph, hfieldType, hread]
  · refine ((hvalue T (m.graph.name n) s hT rfl rfl).imp ?_).congr fun k n' => ?_
    · rintro v' ⟨kept, hkept, hsame, -⟩
      exact ⟨kept, hkept, by rwa [hv]⟩
    · simp [LacksAt, LacksMap, hv]

section

variable {f : FieldNode} (hf : S.graph.field? n = some f) (hv : m.value? n = none)

include hf hv

/-- A list that is absent is handed over as an empty sequence, which becomes an empty list. -/
theorem Message.WellTyped.exists_retold_list (hS : S.Loaded) (hm : m.WellTyped S)
    (hrule : f.rule = .repeated) : ∃ s r d, m.Retold S n s r d := by
  obtain ⟨l, hl, -⟩ := hS.built.fieldClosed hf
  obtain ⟨s, hs, hshape⟩ := Graph.slot?_of_repeated hf hl hrule
  refine ⟨s, .sequence [], .sequence [], hs, ?_, rfl, rfl, fun n' v' _ hcompete => ?_,
    fun T _ => ?_⟩
  · rw [shown?, hv, hm.graph, hf]
    exact if_pos (by simp [hrule])
  · rw [hm.graph] at hcompete
    exact absurd hcompete (hS.linked.not_compete hs (by simp [hshape]))
  · simp only [Datum.value, hshape, Datum.valueOfItems]
    refine .ok ?_ ⟨.list [], ?_, by rw [hv]; rfl⟩
    · simp [LacksAt, LacksMap, hv, hm.graph, hf, hrule]
    · simp only [Snapshot.fitField, hshape]
      rfl

/-- A map that is absent is handed over as an empty sequence, too, and no map is made of this. -/
theorem Message.WellTyped.exists_retold_map (hS : S.Loaded) (hm : m.WellTyped S)
    (hn : n ∈ m.graph.ownFields m.type.node) (hrule : f.rule = .map) :
    ∃ s r d, m.Retold S n s r d := by
  obtain ⟨l, hl, hclosed⟩ := hS.built.fieldClosed hf
  obtain ⟨key, hkey⟩ := Option.isSome_iff_exists.mp (hclosed.map hrule)
  obtain ⟨s, hs, hshape⟩ := Graph.slot?_of_map hf hl hrule hkey
  refine ⟨s, .sequence [], .sequence [], hs, ?_, rfl, rfl, fun n' v' _ hcompete => ?_,
    fun T _ => .inr ⟨m, n, ?_, ?_⟩⟩
  · rw [shown?, hv, hm.graph, hf]
    exact if_pos (by simp [hrule])
  · rw [hm.graph] at hcompete
    exact absurd hcompete (hS.linked.not_compete hs (by simp [hshape]))
  · exact .inl ⟨rfl, rfl, hn, hv, f, hm.graph ▸ hf, hrule⟩
  · simp only [Datum.value, hshape, Datum.refuse, Datum.kind]

end

/-- Nothing is handed over of a field that is absent and holds neither lists nor maps. -/
theorem Message.shown?_eq_none (hv : m.value? n = none)
    (hrule : ∀ f, m.graph.field? n = some f → f.rule ≠ .repeated ∧ f.rule ≠ .map) :
    m.shown? n = none ∧ ∀ k n', ¬m.LacksAt n k n' := by
  constructor
  · rw [shown?, hv]
    refine if_neg fun hshown => ?_
    rw [Option.any_eq_true] at hshown
    obtain ⟨f, hf, hshown⟩ := hshown
    simp [hrule f hf] at hshown
  · rintro k n' (⟨-, -, -, -, f, hf, hmap⟩ | ⟨v, hv', -⟩)
    · exact (hrule f hf).2 hmap
    · rw [hv] at hv'
      cases hv'

/-- A field is either handed over in a form in which it may be set again, or it is absent and
nothing is lost. -/
theorem Message.WellTyped.returns_field (hS : S.Loaded) (hm : m.WellTyped S)
    (hn : n ∈ m.graph.ownFields m.type.node) (h : ∀ v s, m.value? n = some v →
      S.graph.slot? n = some s → v.Returns S s.shape s.type) :
    (m.value? n = none ∧ m.shown? n = none ∧ ∀ k n', ¬m.LacksAt n k n') ∨
      ∃ s r d, m.Retold S n s r d := by
  cases hv : m.value? n with
  | some v => exact .inr (hm.exists_retold hv fun s => h v s hv)
  | none =>
    by_cases hrule : ∃ f, S.graph.field? n = some f ∧ (f.rule = .repeated ∨ f.rule = .map)
    · obtain ⟨f, hf, hrepeated | hmap⟩ := hrule
      · exact .inr (hm.exists_retold_list hf hv hS hrepeated)
      · exact .inr (hm.exists_retold_map hf hv hS hn hmap)
    · refine .inl ⟨rfl, shown?_eq_none hv fun f hf => not_or.mp fun hcollection => ?_⟩
      exact hrule ⟨f, hm.graph ▸ hf, hcollection⟩

/-- Of plain data for a field, what the message takes is set. -/
theorem Message.Nears.accept {alike : Option Value → Option Value → Prop} {acc : Message}
    {rest : List NodeId} {absent : Message → NodeId → Prop} {s : Slot}
    {make : Slot → Except DataError Value} (hS : S.Loaded) (hm : m.WellTyped S)
    (hown : n ∈ m.graph.ownFields m.type.node) (hs : S.graph.slot? n = some s)
    (hn : n ∉ rest) (h : m.Nears alike acc (n :: rest)) (hnone : alike none none)
    (hmake : Hinges absent (make s) fun v' => ∃ kept, S.fitField s v' = .ok kept ∧
      alike (some kept) (m.value? n))
    (halone : ∀ n' v', m.value? n' = some v' → m.graph.Compete n n' → n = n') :
    Hinges absent (acc.accept (m.graph.name n) make) fun acc' => m.Nears alike acc' rest := by
  have hgraph : acc.graph = S.graph := graph_of_snapshot (by rw [h.type, hm.snapshot])
  have hfield : acc.type.field? (m.graph.name n) = some n := by
    rw [h.type]
    show m.graph.fieldByName? m.type.node _ = some n
    rw [hm.graph] at hown ⊢
    rw [Graph.fieldByName?, hS.built.tree.find?_ownFields hown]
    rfl
  have hslot : acc.graph.slot? n = some s := hgraph ▸ hs
  rw [Message.accept, hfield]
  dsimp only
  rw [hslot]
  refine hmake.bind_ok fun v' hv' => ?_
  obtain ⟨kept, hkept, hsame⟩ := hv'
  refine ⟨acc.put n kept, mapError_eq_ok.mpr ((set_eq_ok_iff hfield hslot).mpr ⟨kept, ?_, rfl⟩),
    h.put hS.linked hm.snapshot hnone hn hsame halone⟩
  rw [h.type, hm.snapshot, hkept]

/-- The fields of a message come back one by one. -/
theorem Message.WellTyped.returns_fields (hS : S.Loaded) (hm : m.WellTyped S)
    (hpopulated : m.Populated) (h : ∀ n v s, m.value? n = some v → S.graph.slot? n = some s →
      v.Returns S s.shape s.type) {rest : List NodeId} (hnodup : rest.Nodup)
    (hrest : ∀ n ∈ rest, n ∈ m.graph.ownFields m.type.node) :
    ∃ rs ds, (∀ done, rest.foldlM m.tell done = .ok (done ++ rs)) ∧
      Source.datumOfEntries (Reading.sourceOfEntries rs) = .ok ds ∧
      Datum.checkNames ds = .ok () ∧
      ∀ acc, m.Nears (fun x y => Value.sameField x y) acc rest →
        Hinges (fun k n' => ∃ n ∈ rest, m.LacksAt n k n') (Datum.setEntries acc ds)
          (m.Nears (fun x y => Value.sameField x y) · []) := by
  induction rest with
  | nil =>
    refine ⟨[], [], fun done => ?_, rfl, rfl, fun acc hacc => ?_⟩
    · rw [List.append_nil]
      rfl
    · rw [Datum.setEntries]
      exact .ok (by simp) hacc
  | cons n rest ih =>
    obtain ⟨hn, hnodup⟩ := List.nodup_cons.mp hnodup
    have hown := hrest n List.mem_cons_self
    obtain ⟨rs, ds, htold, hdata, hnames, hrun⟩ :=
      ih hnodup fun n' hn' => hrest n' (List.mem_cons_of_mem _ hn')
    rcases hm.returns_field hS hown (h n) with ⟨hv, hshown, hlacks⟩ | ⟨s, r, d, hretold⟩
    · -- an absent field is not told, and the new message does not have it either
      refine ⟨rs, ds, fun done => ?_, hdata, hnames, fun acc hacc => ?_⟩
      · rw [List.foldlM_cons, tell, hshown]
        exact htold done
      · refine (hrun acc (hacc.skip rfl hpopulated hv)).congr fun k n' => ?_
        simp [hlacks]
    · refine ⟨(.atom (.string (m.graph.name n)), r) :: rs, (.text (m.graph.name n), d) :: ds,
        fun done => ?_, ?_, ?_, fun acc hacc => ?_⟩
      · rw [List.foldlM_cons, tell, hretold.shown]
        refine (htold _).trans ?_
        rw [List.append_assoc, List.singleton_append]
      · rw [Reading.sourceOfEntries, Source.datumOfEntries, hretold.datum, hdata]
        rfl
      · exact hnames
      · have hsnapshot : acc.type.snapshot = S := by rw [hacc.type, hm.snapshot]
        rw [Datum.setEntries, if_neg (by simp [hretold.present])]
        exact ((hacc.accept hS hm hown hretold.slot hn rfl (hretold.value acc.type hsnapshot)
          hretold.alone).bind hrun).congr fun k n' => by simp

/-- A map is absent in a message if it is in one of the fields. -/
theorem Message.WellTyped.lacksAt_iff (hm : m.WellTyped S) (hportable : m.Portable) {k : Message}
    {n' : NodeId} : (∃ n ∈ m.graph.ownFields m.type.node, m.LacksAt n k n') ↔
      k ∈ m.messages ∧ k.LacksMap n' := by
  rw [mem_messages_iff hm.regular.ascending]
  constructor
  · rintro ⟨n, -, ⟨rfl, rfl, hlacks⟩ | ⟨v, hv, hk, hlacks⟩⟩
    · exact ⟨.inl rfl, hlacks⟩
    · exact ⟨.inr ⟨n, v, hv, hk⟩, hlacks⟩
  · rintro ⟨rfl | ⟨n, v, hv, hk⟩, hlacks⟩
    · exact ⟨n', hlacks.1, .inl ⟨rfl, rfl, hlacks⟩⟩
    · exact ⟨n, hportable.own n v hv, .inr ⟨v, hv, hk, hlacks⟩⟩

/-- What has been handed over of a message makes the message anew, unless a map is absent. -/
theorem Message.WellTyped.returns_entries (hS : S.Loaded) (hm : m.WellTyped S)
    (hportable : m.Portable) (hpopulated : m.Populated) (h : ∀ n v s, m.value? n = some v →
      S.graph.slot? n = some s → v.Returns S s.shape s.type) :
    ∃ rs ds, m.read .anything = .ok (.map rs) ∧
      Source.datumOfEntries (Reading.sourceOfEntries rs) = .ok ds ∧
      Datum.checkNames ds = .ok () ∧
      Hinges (fun k n => k ∈ m.messages ∧ k.LacksMap n) (Datum.setEntries (.new m.type) ds)
        fun m' => m'.type = m.type ∧ (Value.message m').same (.message m) := by
  have hnodup : (m.graph.ownFields m.type.node).Nodup :=
    (hm.graph ▸ hS.linked.nodup_allFields m.type.node).of_append_left
  obtain ⟨rs, ds, htold, hdata, hnames, hrun⟩ :=
    hm.returns_fields hS hpopulated h hnodup fun n hn => hn
  have hnew : m.Nears (fun x y => Value.sameField x y) (.new m.type)
      (m.graph.ownFields m.type.node) := by
    refine .new rfl rfl hpopulated fun n hn => ?_
    cases hv : m.value? n with
    | none => rfl
    | some v => exact absurd (hportable.own n v hv) hn
  refine ⟨rs, ds, ?_, hdata, hnames, ((hrun _ hnew).imp ?_).congr fun k n =>
    hm.lacksAt_iff hportable⟩
  · rw [read_anything, htold]
    rfl
  · intro m' hm'
    refine ⟨hm'.type, (Value.same_message_iff hm'.ascending hm.regular.ascending).mpr
      ⟨?_, fun n => hm'.done n List.not_mem_nil⟩⟩
    rw [hm'.type]
    exact m.type.sameAs_self

/-- A message comes back if the values of its fields do. -/
theorem Value.returns_message (hS : S.Loaded) (hm : m.WellTyped S) (hportable : m.Portable)
    (hpopulated : m.Populated) (h : ∀ n v s, m.value? n = some v →
      S.graph.slot? n = some s → v.Returns S s.shape s.type) {t : FieldType}
    (ht : t.message? = some m.type.node) : (Value.message m).Returns S .single t := by
  obtain ⟨rs, ds, hread, hdata, hnames, hset⟩ := hm.returns_entries hS hportable hpopulated h
  refine ⟨.map rs, .map ds, ?_, ?_, rfl, fun T name s hT hshape htype => ?_⟩
  · rw [read_message, hread]
  · rw [Reading.source, Source.datum, hdata]
    rfl
  · have htype' : T.sibling m.type.node = m.type := by
      rw [MessageType.sibling, hT, ← hm.snapshot]
    simp only [Datum.value, hshape, htype, ht, hnames, htype']
    refine (hset.bind_ok ?_).congr fun k n => ?_
    · rintro m' ⟨hm', hsame⟩
      have hfit : S.fit t (.message m') = .ok (.message m') :=
        Snapshot.fit_eq_ok_iff.mpr (.message ht (by simp [MessageType.sameAs, hm', hm.snapshot]))
      have hdetached : t.fitDetached (.message m') = .ok (.message m') := by
        cases t with
        | message node | group node =>
          cases ht
          exact if_pos (by rw [hm'])
        | _ => cases ht
      refine ⟨.message m', rfl, .message m', ?_, hsame, fun _ => ⟨.message m', ?_, ?_⟩⟩
      · simp only [Snapshot.fitField, hshape, htype, hfit]
      · rw [htype, hdetached]
      · rw [htype, hfit]
    · rw [Lacks, Message.messages_message]

/-! ### Any values -/

theorem Value.Fills.elements_eq {t : FieldType} {v : Value} (h : v.Fills S .single t) :
    v.elements = [v] := by
  cases h <;> rfl

/-- The keys of a map field are of a type that may be one of keys. -/
theorem Snapshot.Built.isMapKey_of_shape (hS : S.Built) {s : Slot} {key : Scalar}
    (hs : S.graph.slot? n = some s) (hshape : s.shape = .map key) : key.isMapKey = true := by
  obtain ⟨f, -, hf, -, -, -, -, -, hmap, -⟩ := Graph.slot?_eq_some hs
  have hrule := hmap key hshape
  obtain ⟨l, hl, hclosed⟩ := hS.fieldClosed hf
  obtain ⟨key', hkey⟩ := Option.isSome_iff_exists.mp (hclosed.map hrule)
  obtain ⟨s', hs', hshape'⟩ := Graph.slot?_of_map hf hl hrule hkey
  cases hs.symm.trans hs'
  cases hshape.symm.trans hshape'
  exact (hclosed.keyType key hkey).2

/-- Values come back if no atom in them is lost in plain data, no message in them has extensions and
none lacks a default. -/
theorem Value.Fills.returns (hS : S.Loaded) {shape : Shape} {t : FieldType} {v : Value}
    (h : v.Fills S shape t) (hkey : ∀ key, shape = .map key → key.isMapKey = true)
    (hatoms : ∀ a, .atom a ∈ v.elements → a.Portable S.graph t)
    (hmessages : ∀ k ∈ v.messages, k.Portable ∧ k.Populated) : v.Returns S shape t := by
  induction h with
  | @atom t a holds =>
    have ha := hatoms a (by simp [elements])
    cases t with
    | scalar k => exact returns_scalar holds ha.quiet
    | enumeration e =>
      cases a with
      | enumeration id =>
        exact returns_enumeration hS.built.tree.toBranching (ha.declared e id rfl rfl)
      | _ => cases holds
    | message node => cases holds
    | group node => cases holds
  | @message t m node snapshot regular fields ih =>
    have hm : m.WellTyped S := .message rfl snapshot regular fields
    rw [Message.messages_message] at hmessages
    obtain ⟨hportable, hpopulated⟩ := hmessages m List.mem_cons_self
    refine returns_message hS hm hportable hpopulated (fun n v s hv hs => ?_) node
    refine ih n v s hv hs (fun key hshape => hS.built.isMapKey_of_shape hs hshape) (fun a ha => ?_)
      fun k hk => hmessages k (Message.mem_messages_of_value? hv hk)
    rw [← hm.graph] at hs ⊢
    exact hportable.atoms n v s hv hs a ha
  | list fills ih =>
    refine returns_list fun v hv => ih v hv (by simp) (fun a ha => hatoms a ?_) fun k hk =>
      hmessages k ?_
    · rw [(fills v hv).elements_eq, List.mem_singleton] at ha
      exact ha ▸ hv
    · rw [messages, messagesOfItems_eq]
      exact List.mem_flatMap.mpr ⟨v, hv, hk⟩
  | map ascending keys values ih =>
    refine returns_map (hkey _ rfl) keys ascending fun e he => ih e he (by simp)
      (fun a ha => hatoms a ?_) fun k hk => hmessages k ?_
    · rw [(values e he).elements_eq, List.mem_singleton] at ha
      exact ha ▸ List.mem_map_of_mem he
    · rw [messages, messagesOfEntries_eq]
      exact List.mem_flatMap.mpr ⟨e, he, hk⟩

/-- A message that has been put together by setters is handed over as plain data, and handing this
over again gives an equal message, if no map is absent from the message or from one in it. If one is
absent, it has been handed over as an empty sequence, and is refused. What no plain data can tell is
left out here: extensions, numbers of enums that are not declared, and signalling NaNs. -/
theorem Message.Assembled.ofSource_read (hS : S.Loaded) (hm : m.Assembled S)
    (hportable : ∀ k ∈ m.messages, k.Portable) :
    ∃ r, m.read .anything = .ok r ∧
      ((∀ k ∈ m.messages, ∀ n, ¬k.LacksMap n) → ∃ m', ofSource m.type r.source = .ok m' ∧ m' == m) ∧
      ((∃ k ∈ m.messages, ∃ n, k.LacksMap n) → ∃ k ∈ m.messages, ∃ n, k.LacksMap n ∧
        ofSource m.type r.source = .error (.mismatch (k.graph.name n) "map" "sequence")) := by
  have htyped := hm.made.wellTyped hS.linked
  have hkept : ∀ k ∈ m.messages, k.Portable ∧ k.Populated := by
    intro k hk
    exact ⟨hportable k hk, (hm.assembled.tended k (m.messages_message ▸ hk)).2⟩
  obtain ⟨hown, hpopulated⟩ := hkept m List.mem_cons_self
  obtain ⟨rs, ds, hread, hdata, hnames, hset⟩ :=
    htyped.returns_entries hS hown hpopulated fun n v s hv hs => by
      refine (htyped.fills hv hs).returns hS
        (fun key hshape => hS.built.isMapKey_of_shape hs hshape) (fun a ha => ?_)
        fun k hk => hkept k (mem_messages_of_value? hv hk)
      rw [← htyped.graph] at hs ⊢
      exact hown.atoms n v s hv hs a ha
  have hmake : ofSource m.type (Reading.map rs).source = Datum.setEntries (.new m.type) ds := by
    rw [ofSource, Reading.source, Source.datum, hdata]
    show Datum.message m.type (.map ds) = _
    rw [Datum.message, hnames]
    rfl
  refine ⟨.map rs, hread, ?_⟩
  rw [hmake]
  rcases hset with ⟨hnone, m', hm', -, hsame⟩ | ⟨k, n, ⟨hk, hlacks⟩, herror⟩
  · refine ⟨fun _ => ⟨m', hm', hsame⟩, ?_⟩
    rintro ⟨k, hk, n, hlacks⟩
    exact absurd ⟨hk, hlacks⟩ (hnone k n)
  · exact ⟨fun hnone => absurd hlacks (hnone k hk n), fun _ => ⟨k, hk, n, hlacks, herror⟩⟩

end

/-! ### Checks -/

namespace Message

variable {m : Message}

/-- That nothing is lost may be checked value by value. -/
theorem Portable.of_entries (h : ∀ e ∈ m.entries, e.1 ∈ m.graph.ownFields m.type.node ∧
    ∀ s ∈ m.graph.slot? e.1, ∀ v ∈ e.2.elements, ∀ a ∈ v.atom?, a.Portable m.graph s.type) :
    m.Portable where
  own n v hv := (h (n, v) (mem_of_value? hv)).1
  atoms n v s hv hs a ha := (h (n, v) (mem_of_value? hv)).2 s hs _ ha a rfl

instance (m : Message) (n : NodeId) : Decidable (m.LacksMap n) :=
  decidable_of_iff (n ∈ m.graph.ownFields m.type.node ∧ (m.value? n).isNone ∧
      (m.graph.field? n).any fun f => f.rule = .map) <| by
    rw [LacksMap, Option.isNone_iff_eq_none, Option.any_eq_true]
    simp

theorem not_lacksMap (h : ∀ n ∈ m.graph.ownFields m.type.node, ¬m.LacksMap n) (n : NodeId) :
    ¬m.LacksMap n :=
  fun hn => h n hn.1 hn

end Message

/-- Messages with an enum, a map and a list of messages. -/
def Snapshot.tabled : Snapshot where
  stamp := 0
  graph :=
    { nodes := #[
        ⟨"", none, .package { children := [1, 5] }⟩,
        ⟨"M", some 0, .message
          { scope := { children := [2, 3, 4], dialect := .proto3 }, fields := [2, 3, 4] }⟩,
        ⟨"e", some 1, .field (.plain .proto3 .implicit 1 "e" "E"
          ⟨.enumeration 5, none, false, some (.enumeration 0)⟩)⟩,
        ⟨"f", some 1, .field { FieldNode.plain .proto3 .map 2 "f" "float"
          ⟨.scalar .float, some .string, false, none⟩ with keyTypeName := some "string" }⟩,
        ⟨"r", some 1, .field (.plain .proto3 .repeated 3 "r" "M"
          ⟨.message 1, none, false, none⟩)⟩,
        ⟨"E", some 0, .enumeration { children := [6, 7], dialect := .proto3 }⟩,
        ⟨"A", some 5, .enumValue 0 {}⟩,
        ⟨"B", some 5, .enumValue 1 {}⟩]
      extensions := []
      settings := {} }

theorem Snapshot.loaded_tabled : Snapshot.tabled.Loaded := by
  have h : (Registry.ofText {} "syntax = \"proto3\"; enum E { A = 0; B = 1; }
      message M { E e = 1; map<string, float> f = 2; repeated M r = 3; }").snapshot =
        some tabled := by
    cbv
  exact loaded_of_ofText h

namespace Message

/-- A message of that type without a list: the enum value and the entries of the map. -/
def tabled (id : Int32) (entries : List (Atom × Value)) : Message :=
  ⟨⟨⟨.tabled, 1⟩⟩, [(2, .atom (.enumeration id)),
    (3, .map ⟨.string, .scalar .float, some .tabled, entries⟩)]⟩

/-- A message with an entry in its map and another message in its list. -/
def nested : Message :=
  (tabled 1 [(.string "k", .atom (.f32 0x3fc00000))]).insert 4 (.list [.message (tabled 0 [])])

theorem assembled_nested : nested.Assembled .tabled := by
  have hnew : (Value.message (new ⟨⟨.tabled, 1⟩⟩)).Assembled .tabled :=
    .new Snapshot.loaded_tabled (.inl rfl)
  have hinner : (new ⟨⟨.tabled, 1⟩⟩).openMap "f" =
      .ok (.empty .string (.scalar .float) (some .tabled), tabled 0 []) := by
    cbv
  have henum : (new ⟨⟨.tabled, 1⟩⟩).set "e" (.atom (.string "B")) =
      .ok ⟨⟨⟨.tabled, 1⟩⟩, [(2, .atom (.enumeration 1))]⟩ := by
    cbv
  have hopen : openMap ⟨⟨⟨.tabled, 1⟩⟩, [(2, .atom (.enumeration 1))]⟩ "f" =
      .ok (.empty .string (.scalar .float) (some .tabled), tabled 1 []) := by
    cbv
  have hentry : MapValue.set (.empty .string (.scalar .float) (some .tabled)) (.atom (.string "k"))
      (.atom (.f32 0x3fc00000)) = .ok ⟨.string, .scalar .float, some .tabled,
        [(.string "k", .atom (.f32 0x3fc00000))]⟩ := by
    cbv
  have hput : (tabled 1 []).update? "f" (fun _ => some (.map ⟨.string, .scalar .float,
      some .tabled, [(.string "k", .atom (.f32 0x3fc00000))]⟩)) =
        some (tabled 1 [(.string "k", .atom (.f32 0x3fc00000))]) := by
    cbv
  have hadd : (tabled 1 [(.string "k", .atom (.f32 0x3fc00000))]).add "r"
      (.message (tabled 0 [])) = .ok nested := by
    cbv
  exact ⟨rfl, .add (.openSet (.set hnew (.atom _) henum) (.atom _) hopen hentry hput)
    (.openMap hnew hinner) hadd⟩

theorem messages_nested : nested.messages = [nested, tabled 0 []] := by
  cbv

/-- The message comes back. -/
theorem ofSource_read_nested : ∃ r m', nested.read .anything = .ok r ∧
    ofSource ⟨⟨.tabled, 1⟩⟩ r.source = .ok m' ∧ m' == nested := by
  have hkept : ∀ k ∈ nested.messages, k.Portable ∧ ∀ n, ¬k.LacksMap n := by
    rw [messages_nested, List.forall_mem_cons, List.forall_mem_singleton]
    exact ⟨⟨.of_entries (by decide_cbv), not_lacksMap (by decide_cbv)⟩,
      ⟨.of_entries (by decide_cbv), not_lacksMap (by decide_cbv)⟩⟩
  obtain ⟨r, hread, hback, -⟩ := assembled_nested.ofSource_read Snapshot.loaded_tabled
    fun k hk => (hkept k hk).1
  obtain ⟨m', hm', hsame⟩ := hback fun k hk => (hkept k hk).2
  exact ⟨r, m', hread, hm', hsame⟩

/-- A new message with a map does not come back. -/
theorem ofSource_read_new : Snapshot.tabled.Loaded ∧
    (new ⟨⟨.tabled, 1⟩⟩).Assembled .tabled ∧ (∀ k ∈ (new ⟨⟨.tabled, 1⟩⟩).messages, k.Portable) ∧
    ∃ r, (new ⟨⟨.tabled, 1⟩⟩).read .anything = .ok r ∧
      ofSource ⟨⟨.tabled, 1⟩⟩ r.source = .error (.mismatch "f" "map" "sequence") := by
  have hmessages : (new ⟨⟨.tabled, 1⟩⟩).messages = [new ⟨⟨.tabled, 1⟩⟩] := by
    cbv
  refine ⟨Snapshot.loaded_tabled, ⟨rfl, .new Snapshot.loaded_tabled (.inl rfl)⟩, ?_,
    .map [(.atom (.string "e"), .atom (.string "A")), (.atom (.string "f"), .sequence []),
      (.atom (.string "r"), .sequence [])], by cbv, by cbv⟩
  rw [hmessages, List.forall_mem_singleton]
  exact .of_entries (by decide_cbv)

end Message

end Protobuf

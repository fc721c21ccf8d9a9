import Protobuf.Proofs.Message.RoundTrip

/-!
# Values that are left out

A field of which presence is not told is left out when its value is zero, and is read as its default
where it is absent. So nothing is lost if the default is zero. For scalars without an explicit
default it is; for an enum it is the first value, which need not be zero.

## Main definitions

* `Snapshot.shifted` — a schema in which the first value of an enum is not zero.

## Main results

* `Message.Made.getOrDefault?_of_decode` — when the value that was left out is seen again
-/

namespace Protobuf

variable {S : Snapshot} {m m' : Message} {bytes : List UInt8} {name : String} {f : NodeId}
  {fn : FieldNode} {v : Value}

/-- A field of which presence is not told has a default. -/
theorem Graph.Linked.exists_default {g : Graph} (hg : g.Linked) (hfn : g.field? f = some fn)
    (h : fn.hasImplicitPresence) : ∃ d, fn.default? = some d := by
  obtain ⟨l, hl, hfits⟩ := hg.link f fn hfn
  simp only [FieldNode.hasImplicitPresence, Bool.and_eq_true, decide_eq_true_eq,
    Option.isNone_iff_eq_none] at h
  obtain ⟨⟨hrule, honeof⟩, htype⟩ := h
  have hmessage : l.type.isMessage = false := by
    simpa [FieldNode.type?, hl] using htype
  obtain ⟨d, hd⟩ := Option.isSome_iff_exists.mp (hfits.implicit hrule honeof hmessage)
  exact ⟨d, by rw [FieldNode.default?, hl, Option.bind_some, hd]⟩

/-- The value of such a field is an atom. -/
theorem Message.WellTyped.exists_atom (hm : m.WellTyped S) (hfn : S.graph.field? f = some fn)
    (h : fn.hasImplicitPresence) (hv : m.value? f = some v) : ∃ a, v = .atom a := by
  obtain ⟨-, s, hs⟩ := hm.regular.known f v hv
  rw [hm.graph] at hs
  obtain ⟨fn', l, hfn', -, -, -, homits, -⟩ := Graph.slot?_eq_some hs
  rw [hfn] at hfn'
  cases hfn'
  obtain ⟨hshape, hmessage⟩ := Graph.shape_of_omitsZero hs (homits.trans h)
  have hfills := hm.fills hv hs
  rw [hshape] at hfills
  cases hfills with
  | atom _ => exact ⟨_, rfl⟩
  | message node _ _ _ =>
    rw [FieldType.isMessage, node] at hmessage
    cases hmessage

namespace Message

/-- What is read back from the bytes of a message can be nothing else. -/
theorem Made.eq_canonical_of_decode (hS : S.Loaded) (hm : m.Made S) (h : m.encode = .ok bytes)
    (haddr : Wire.Addressable bytes) (hdecode : decode m.type bytes = .ok m') :
    m' = m.canonical := by
  obtain ⟨e, he⟩ := (hm.wellTyped hS.linked).exists_sent hS.linked
  rw [he.encode_eq] at h
  split at h
  · cases h
    by_cases hdepth : m.depth ≤ recursionLimit
    · obtain ⟨noted, -, hread⟩ := he.decode_eq haddr hdepth
      rw [hread] at hdecode
      split at hdecode
      · cases hdecode
        rfl
      · cases hdecode
    · rw [he.decode_eq_tooDeep haddr hdepth] at hdecode
      cases hdecode
  · cases h

/-- In the form in which the message comes back, the default stands in for a zero. -/
theorem WellTyped.getOrDefault?_canonical (hm : m.WellTyped S)
    (hf : m.type.field? name = some f) (hfn : S.graph.field? f = some fn)
    (himplicit : fn.hasImplicitPresence) {d : Atom} (hd : fn.default? = some d) {a : Atom}
    (hv : m.value? f = some (.atom a)) :
    m.canonical.getOrDefault? name = some (.atom (if a.isZero then d else a)) := by
  have htype : m.canonical.type = m.type := type_settle
  have hgraph : m.canonical.graph = S.graph := by
    rw [Message.graph, htype]
    exact hm.graph
  have hfilling : S.graph.filling? f = some (.atom d) := by
    rw [Graph.filling?, hfn, Option.filter_some, FieldNode.isAlwaysPresent, himplicit,
      Bool.or_true, if_pos rfl, Option.bind_some, hd, Option.map_some]
  have habsent : m.canonical.absentValue? f = some (.atom d) := by
    simp [absentValue?, hgraph, hfn, hd]
  have hstand : m.standIn? f = none ∨ m.standIn? f = some (.atom d) := by
    rw [standIn?, hm.graph, hfilling]
    split
    · exact .inr rfl
    · exact .inl rfl
  have hleaves : m.graph.leavesOut f (.atom a) = a.isZero := by
    have hempty : (Value.atom a).isEmptyCollection = false := rfl
    rw [Graph.leavesOut, Graph.omits, hm.graph, hfn, Option.any_some, himplicit, Bool.true_and,
      hempty, Bool.or_false]
    rfl
  rw [getOrDefault?, htype, hf]
  show (m.canonical.value? f <|> m.canonical.absentValue? f) = _
  rw [habsent, canonical, value?_settle_of_some hm.regular.ascending hv, hleaves, Value.settle]
  cases a.isZero
  · rfl
  · rcases hstand with hstand | hstand
    · rw [if_pos rfl, hstand]
      rfl
    · rw [if_pos rfl, hstand]
      rfl

/-- A field of which presence is not told is seen with the value that it had before exactly if the
value is not zero or is the default of the field. -/
theorem Made.getOrDefault?_of_decode (hS : S.Loaded) (hm : m.Made S)
    (hf : m.type.field? name = some f) (hfn : S.graph.field? f = some fn)
    (himplicit : fn.hasImplicitPresence) (hv : m.get? name = some v) (h : m.encode = .ok bytes)
    (haddr : Wire.Addressable bytes) (hdecode : decode m.type bytes = .ok m') :
    m'.getOrDefault? name = some v ↔
      (v.atom?.any Atom.isZero → fn.default?.map .atom = some v) := by
  have hg := hS.linked
  have htyped := hm.wellTyped hg
  rw [get?, hf, Option.bind_some] at hv
  obtain ⟨a, rfl⟩ := htyped.exists_atom hfn himplicit hv
  obtain ⟨d, hd⟩ := hg.exists_default hfn himplicit
  rw [hm.eq_canonical_of_decode hS h haddr hdecode,
    htyped.getOrDefault?_canonical hf hfn himplicit hd hv, hd, Value.atom?, Option.any_some,
    Option.map_some]
  cases hzero : a.isZero
  · simp
  · simp

/-- A zero of a scalar field is seen again. -/
theorem getOrDefault?_of_decode_scalar : ∃ m', decode ⟨⟨.tree true, 1⟩⟩ [] = .ok m' ∧
    m'.getOrDefault? "a" = some (.atom (.i32 0)) := by
  have hm : (Message.new ⟨⟨.tree true, 1⟩⟩).Made (.tree true) := ⟨rfl, .new rfl⟩
  have hencode : (Message.new ⟨⟨.tree true, 1⟩⟩).encode = .ok [] := by decide +kernel
  have haddr : Wire.Addressable [] := by
    rw [Wire.Addressable]
    decide
  obtain ⟨m', hdecode, -⟩ := hm.decode_of_encode (Snapshot.loaded_tree true) (by decide_cbv)
    hencode haddr
  refine ⟨m', hdecode, (hm.getOrDefault?_of_decode (Snapshot.loaded_tree true) (f := 2) rfl rfl
    (by decide) rfl hencode haddr hdecode).mpr fun _ => rfl⟩

end Message

/-- An enum whose first value is not zero, and a message with a field of it. -/
def Snapshot.shifted : Snapshot where
  stamp := 0
  graph :=
    { nodes := #[
        ⟨"", none, .package { children := [1, 3] }⟩,
        ⟨"M", some 0, .message { scope := { children := [2], dialect := .proto3 }, fields := [2] }⟩,
        ⟨"e", some 1, .field (.plain .proto3 .implicit 1 "e" "E"
          ⟨.enumeration 3, none, false, some (.enumeration 1)⟩)⟩,
        ⟨"E", some 0, .enumeration { children := [4, 5], dialect := .proto3 }⟩,
        ⟨"A", some 3, .enumValue 1 {}⟩,
        ⟨"B", some 3, .enumValue 0 {}⟩]
      extensions := []
      settings := {} }

theorem Snapshot.loaded_shifted : Snapshot.shifted.Loaded := by
  have h : (Registry.ofText {}
      "syntax = \"proto3\"; enum E { A = 1; B = 0; } message M { E e = 1; }").snapshot =
        some shifted := by
    cbv
  exact loaded_of_ofText h

/-- A zero of an enum field is lost if the first value of the enum is another one. -/
theorem Message.getOrDefault?_of_decode_enumeration : Snapshot.shifted.Loaded ∧ ∃ m m' : Message,
    m.Made .shifted ∧ m.get? "e" = some (.atom (.enumeration 0)) ∧ m.encode = .ok [] ∧
      decode m.type [] = .ok m' ∧ m'.getOrDefault? "e" = some (.atom (.enumeration 1)) := by
  have hset : (Message.new ⟨⟨.shifted, 1⟩⟩).set "e" (.atom (.enumeration 0)) =
      .ok ⟨⟨⟨.shifted, 1⟩⟩, [(2, .atom (.enumeration 0))]⟩ := by
    cbv
  refine ⟨Snapshot.loaded_shifted, ⟨⟨⟨.shifted, 1⟩⟩, [(2, .atom (.enumeration 0))]⟩,
    Message.new ⟨⟨.shifted, 1⟩⟩, ⟨rfl, .set (.new rfl) (.atom _) hset⟩, rfl, by decide_cbv, ?_, rfl⟩
  cbv

end Protobuf

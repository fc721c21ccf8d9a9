import Protobuf.Proofs.Message.Core
import Protobuf.Proofs.Message.Reached
import Protobuf.Proofs.Message.Settable
import Protobuf.Proofs.Message.Updated
import Protobuf.Proofs.Registry.Faithful

/-!
# Order leaves no trace

Messages and maps are kept in order, so values that are put into different places may be put there
one before the other or the other way round. Two fields of a oneof are no different places, because
setting one of them clears the other. What is left of the ways in which two equal messages have been
made are empty lists and maps, and these are neither seen when messages are compared nor written.

## Main definitions

* `MessageType.Independent` — fields that may be set in any order.
* `Message.setAll`, `MapValue.setAll` — many fields or entries, set one after the other.

## Main results

* `Message.setAll_of_perm`, `MapValue.setAll_of_perm` — the order of setting makes no difference
* `Snapshot.Built.equality_respected` — equality is an equivalence, and equal messages are written
  the same
-/

namespace Protobuf

/-- The names lead to different fields, and these do not belong to the same oneof. -/
def MessageType.Independent (t : MessageType) (name name' : String) : Prop :=
  ∀ f f', t.field? name = some f → t.field? name' = some f' → f ≠ f' ∧ ¬t.graph.Compete f f'

theorem MessageType.Independent.symm {t : MessageType} {name name' : String}
    (h : t.Independent name name') : t.Independent name' name := by
  intro f f' hf hf'
  obtain ⟨hne, hcompete⟩ := h f' f hf' hf
  exact ⟨hne.symm, fun h => hcompete h.symm⟩

/-- The message in which fields are set one after the other. -/
def Message.setAll (m : Message) (fields : List (String × Value)) : Except ValueError Message :=
  fields.foldlM (fun m e => m.set e.1 e.2) m

/-- The map in which entries are set one after the other. -/
def MapValue.setAll (m : MapValue) (entries : List (Value × Value)) : Except ValueError MapValue :=
  entries.foldlM (fun m e => m.set e.1 e.2) m

/-! ### Fields -/

/-- Fields that clear each other belong to the same oneof. -/
theorem Graph.Faithful.compete_of_mem_rivals {m : Message} (hg : m.graph.Faithful) {f f' : NodeId}
    (h : f' ∈ m.rivals f) : m.graph.Compete f f' := by
  obtain ⟨hmem, -⟩ := List.mem_filter.mp h
  cases hc : ((m.graph.field? f).bind FieldNode.oneof).bind m.graph.oneof? with
  | none => simp [hc] at hmem
  | some c =>
    obtain ⟨o, ho, hc'⟩ := Option.bind_eq_some_iff.mp hc
    obtain ⟨fn, hfn, ho⟩ := Option.bind_eq_some_iff.mp ho
    simp only [hc, Option.elim_some] at hmem
    obtain ⟨_, _, -, -, hfields, -⟩ := hg.oneof o c hc'
    rw [hfields, List.mem_filter, Option.any_eq_true] at hmem
    obtain ⟨-, fn', hfn', ho'⟩ := hmem
    exact ⟨fn, fn', o, hfn, hfn', ho, of_decide_eq_true ho'⟩

namespace Message

variable {m m' : Message} {f f' g : NodeId} {v v' : Value}

theorem value?_put (m : Message) (f g : NodeId) (v : Value) :
    (m.put f v).value? g =
      if f = g then some v else if g ∈ m.rivals f then none else m.value? g := by
  rw [put, value?_insert, WellTyped.value?_foldl_erase]

/-- Which fields are cleared does not depend on what is present. -/
theorem rivals_put (m : Message) (f g : NodeId) (v : Value) :
    (m.put f v).rivals g = m.rivals g := by
  rw [rivals, rivals, graph, Decoding.type_put]
  rfl

/-- Fields that do not clear each other are set in any order. -/
theorem put_comm (hm : Keyed.Ascending Prod.fst m.entries) (hne : f ≠ f')
    (hf : f' ∉ m.rivals f) (hf' : f ∉ m.rivals f') :
    (m.put f v).put f' v' = (m.put f' v').put f v := by
  refine eq_of_value?_eq (by simp only [Decoding.type_put])
    (ascending_put (ascending_put hm f v) f' v') (ascending_put (ascending_put hm f' v') f v)
    fun g => ?_
  simp only [value?_put, rivals_put]
  by_cases hfg : f = g
  · subst hfg
    rw [if_neg hne.symm, if_neg hf', if_pos rfl, if_pos rfl]
  · by_cases hfg' : f' = g
    · subst hfg'
      rw [if_pos rfl, if_neg hfg, if_neg hf, if_pos rfl]
    · rw [if_neg hfg', if_neg hfg, if_neg hfg, if_neg hfg']
      split
      · rw [ite_self]
      · rfl

/-- Fields that are independent are set in any order. -/
theorem set_comm {name name' : String} {m'' : Message} (hg : m.graph.Faithful)
    (hm : Keyed.Ascending Prod.fst m.entries) (h : m.type.Independent name name')
    (hset : m.set name v = .ok m') (hset' : m'.set name' v' = .ok m'') :
    ∃ n, m.set name' v' = .ok n ∧ n.set name v = .ok m'' := by
  obtain ⟨f, s, w, hnode, hs, hfit, rfl⟩ := set_eq_ok hset
  obtain ⟨f', s', w', hnode', hs', hfit', rfl⟩ := set_eq_ok hset'
  have htype := Decoding.type_put m f w
  have hfield := field?_of_node hnode
  have hfield' : m.type.field? name' = some f' := htype ▸ field?_of_node hnode'
  obtain ⟨hne, hcompete⟩ := h f f' hfield hfield'
  rw [put_comm hm hne (fun h => hcompete (hg.compete_of_mem_rivals h))
    fun h => hcompete (hg.compete_of_mem_rivals h).symm]
  rw [graph, htype] at hs'
  rw [htype] at hfit'
  refine ⟨m.put f' w', (set_eq_ok_iff hfield' hs').mpr ⟨w', hfit', rfl⟩, ?_⟩
  have htype' := Decoding.type_put m f' w'
  refine (set_eq_ok_iff (htype' ▸ hfield) ?_).mpr ⟨w, htype' ▸ hfit, rfl⟩
  rw [graph, htype']
  exact hs

/-- Independent fields may be set in any order. -/
theorem setAll_of_perm (hg : m.graph.Faithful) (hm : Keyed.Ascending Prod.fst m.entries)
    {fields fields' : List (String × Value)} (hperm : fields.Perm fields')
    (hfields : fields.Pairwise fun e e' => m.type.Independent e.1 e'.1)
    (h : m.setAll fields = .ok m') : m.setAll fields' = .ok m' := by
  have hstep : ∀ (n : Message) (e : String × Value) (n' : Message),
      n.type = m.type ∧ Keyed.Ascending Prod.fst n.entries → n.set e.1 e.2 = .ok n' →
      n'.type = m.type ∧ Keyed.Ascending Prod.fst n'.entries := by
    rintro n e n' ⟨htype, hn⟩ hset
    obtain ⟨f, s, w, -, -, -, rfl⟩ := set_eq_ok hset
    exact ⟨(Decoding.type_put n f w).trans htype, ascending_put hn f w⟩
  refine foldlM_eq_ok_of_perm (fun e e' => MessageType.Independent.symm) hstep ?_ hperm hfields
    ⟨rfl, hm⟩ h
  rintro n e e' n₁ n₂ ⟨htype, hn⟩ hindependent hfirst hsecond
  have hgraph : n.graph.Faithful := by
    rw [graph, htype]
    exact hg
  exact set_comm hgraph hn (htype ▸ hindependent) hfirst hsecond

end Message

/-! ### Entries -/

namespace MapValue

variable {m m' m'' : MapValue} {key key' v v' : Value}

/-- Entries of different keys are set in any order. -/
theorem set_comm (hm : Keyed.Ascending (fun e => e.1.keyText) m.entries)
    (h : m.keyText? key ≠ m.keyText? key') (hset : m.set key v = .ok m')
    (hset' : m'.set key' v' = .ok m'') :
    ∃ n, m.set key' v' = .ok n ∧ n.set key v = .ok m'' := by
  obtain ⟨k, w, hk, hw, rfl⟩ := set_eq_ok_iff.mp hset
  obtain ⟨k', w', hk', hw', rfl⟩ := set_eq_ok_iff.mp hset'
  have hne : k.keyText ≠ k'.keyText := by
    intro heq
    refine h ?_
    rw [keyText?, keyText?, hk, show key'.coerce m.keyType = .ok k' from hk']
    exact congrArg some heq
  have hinsert : (m.insert k w).insert k' w' = (m.insert k' w').insert k w :=
    congrArg (MapOf.mk m.keyType m.valueType m.owner)
      (Keyed.insert_comm (x := (k, w)) (y := (k', w')) hne hm)
  exact ⟨m.insert k' w', set_eq_ok_iff.mpr ⟨k', w', hk', hw', rfl⟩,
    set_eq_ok_iff.mpr ⟨k, w, hk, hw, hinsert⟩⟩

/-- Entries of different keys may be set in any order. -/
theorem setAll_of_perm (hm : Keyed.Ascending (fun e => e.1.keyText) m.entries)
    {entries entries' : List (Value × Value)} (hperm : entries.Perm entries')
    (hentries : entries.Pairwise fun e e' => m.keyText? e.1 ≠ m.keyText? e'.1)
    (h : m.setAll entries = .ok m') : m.setAll entries' = .ok m' := by
  have hstep : ∀ (n : MapValue) (e : Value × Value) (n' : MapValue),
      n.keyType = m.keyType ∧ Keyed.Ascending (fun e => e.1.keyText) n.entries →
      n.set e.1 e.2 = .ok n' →
      n'.keyType = m.keyType ∧ Keyed.Ascending (fun e => e.1.keyText) n'.entries := by
    rintro n e n' ⟨htype, hn⟩ hset
    obtain ⟨k, w, -, -, rfl⟩ := set_eq_ok_iff.mp hset
    exact ⟨htype, hn.insert (k, w)⟩
  refine foldlM_eq_ok_of_perm (fun e e' => Ne.symm) hstep ?_ hperm hentries ⟨rfl, hm⟩ h
  rintro n e e' n₁ n₂ ⟨htype, hn⟩ hne hfirst hsecond
  refine set_comm hn ?_ hfirst hsecond
  rw [keyText?, keyText?, htype]
  exact hne

end MapValue

/-! ### Equality -/

/-- Among messages that are made without unchecked changes, equality is an equivalence, and equal
messages are written the same, be it that they are written or that required fields are absent. In
particular the order in which independent fields have been set, or entries of different keys, leaves
no trace. -/
theorem Snapshot.Built.equality_respected {S : Snapshot} (hS : S.Built) :
    (Equivalence fun m n : { m : Message // m.Made S } => m.1 == n.1) ∧
      (∀ m n : Message, m.Made S → n.Made S → m == n → m.encode = n.encode) ∧
      (∀ (m m' : Message) (fields fields' : List (String × Value)), m.Made S →
        fields.Perm fields' → (fields.Pairwise fun e e' => m.type.Independent e.1 e'.1) →
        m.setAll fields = .ok m' → m.setAll fields' = .ok m') ∧
      ∀ (m m' : MapValue) (entries entries' : List (Value × Value)), (Value.map m).Given S →
        entries.Perm entries' →
        (entries.Pairwise fun e e' => m.keyText? e.1 ≠ m.keyText? e'.1) →
        m.setAll entries = .ok m' → m.setAll entries' = .ok m' := by
  have hiff : ∀ m n : Message, m.Made S → n.Made S → (m == n ↔ m.core = n.core) :=
    fun m n hm hn => (hm.typed hS.defaultsHold).beq_iff (hn.typed hS.defaultsHold) (hm.sorted hS)
      (hn.sorted hS)
  have hcore : ∀ m : Message, m.Made S → m.core.encoding = m.encoding :=
    fun m hm => (hm.typed hS.defaultsHold).encoding_core (hm.sorted hS)
  refine ⟨⟨?_, ?_, ?_⟩, ?_, ?_, ?_⟩
  · rintro ⟨m, hm⟩
    exact (hiff m m hm hm).mpr rfl
  · rintro ⟨m, hm⟩ ⟨n, hn⟩ h
    exact (hiff n m hn hm).mpr ((hiff m n hm hn).mp h).symm
  · rintro ⟨l, hl⟩ ⟨m, hm⟩ ⟨n, hn⟩ h h'
    exact (hiff l n hl hn).mpr (((hiff l m hl hm).mp h).trans ((hiff m n hm hn).mp h'))
  · intro m n hm hn h
    have hencoding : m.encoding = n.encoding := by
      rw [← hcore m hm, ← hcore n hn, (hiff m n hm hn).mp h]
    rw [Message.encode, Message.encode, Message.encodeFramed, Message.encodeFramed, hencoding]
  · intro m m' fields fields' hm hperm hfields h
    have hgraph : m.graph.Faithful := by
      rw [Message.graph_of_snapshot hm.snapshot]
      exact hS.graph_faithful
    exact Message.setAll_of_perm hgraph (hm.sorted hS).ascending hperm hfields h
  · intro m m' entries entries' hm hperm hentries h
    cases (hm.reached hS).orderly with
    | map ascending _ _ => exact MapValue.setAll_of_perm ascending hperm hentries h

/-- The two fields of a tree belong to no oneof. -/
theorem MessageType.independent_tree :
    (⟨⟨.tree false, 1⟩⟩ : MessageType).Independent "a" "b" := by
  intro f f' hf hf'
  have ha : (⟨⟨.tree false, 1⟩⟩ : MessageType).field? "a" = some 2 := by
    cbv
  have hb : (⟨⟨.tree false, 1⟩⟩ : MessageType).field? "b" = some 3 := by
    cbv
  cases hf.symm.trans ha
  cases hf'.symm.trans hb
  refine ⟨by decide, ?_⟩
  rintro ⟨fa, fb, o, hfa, -, ho, -⟩
  cases hfa
  cases ho

/-- A message with an empty list equals one without it, though they are kept differently, and two
fields of it may be set in either order. -/
theorem Snapshot.equality_respected_tree : ∃ m n : Message, m.Made (.tree false) ∧
    n.Made (.tree false) ∧ m.entries ≠ n.entries ∧ m == n ∧ n == m ∧ m.encode = n.encode ∧
    m.setAll [("b", .list []), ("a", .atom (.i32 1))] =
      m.setAll [("a", .atom (.i32 1)), ("b", .list [])] := by
  have hnew : Message.new ⟨⟨tree false, 1⟩⟩ = ⟨⟨⟨tree false, 1⟩⟩, []⟩ := by
    cbv
  have hset : (Message.new ⟨⟨tree false, 1⟩⟩).set "b" (.list []) =
      .ok ⟨⟨⟨tree false, 1⟩⟩, [(3, .list [])]⟩ := by
    cbv
  have hm : (Message.new ⟨⟨tree false, 1⟩⟩).Made (tree false) := ⟨rfl, .new rfl⟩
  have hn : Message.Made (tree false) ⟨⟨⟨tree false, 1⟩⟩, [(3, .list [])]⟩ :=
    ⟨rfl, .set (.new rfl) (.list (by simp)) hset⟩
  obtain ⟨hequivalence, hencode, hfields, -⟩ :=
    Snapshot.Built.equality_respected (loaded_tree false).built
  have hsame : Message.new ⟨⟨tree false, 1⟩⟩ == ⟨⟨⟨tree false, 1⟩⟩, [(3, .list [])]⟩ := by
    cbv
  have hall : (Message.new ⟨⟨tree false, 1⟩⟩).setAll [("a", .atom (.i32 1)), ("b", .list [])] =
      .ok ⟨⟨⟨tree false, 1⟩⟩, [(2, .atom (.i32 1)), (3, .list [])]⟩ := by
    cbv
  have hindependent : [("a", Value.atom (.i32 1)), ("b", .list [])].Pairwise fun e e' =>
      (⟨⟨.tree false, 1⟩⟩ : MessageType).Independent e.1 e'.1 :=
    List.pairwise_pair.mpr MessageType.independent_tree
  refine ⟨_, _, hm, hn, ?_, hsame, @hequivalence.symm ⟨_, hm⟩ ⟨_, hn⟩ hsame,
    hencode _ _ hm hn hsame, ?_⟩
  · rw [hnew]
    simp
  · rw [hall]
    exact hfields _ _ _ _ hm (.swap _ _ _) hindependent hall

end Protobuf

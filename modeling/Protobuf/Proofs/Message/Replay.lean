import Protobuf.Proofs.Message.Defaults
import Protobuf.Proofs.Message.Unordered

/-!
# Setting the fields of a message anew

A message may be built anew from another one: a new message has its fields set one after the other.
On the way, the fields that have been dealt with are like those of the message that is built, and
the others hold what was there from the start. Setting a field clears the others of its oneof, and
this does no harm: none of them is to be present, and none of them was there from the start.

What it means for a value to be like another one is left open here. The same values may come back,
or others that count as equal.

## Main definitions

* `Message.Nears` — a message on the way to another one.

## Main results

* `Message.Nears.new`, `Message.Nears.skip`, `Message.Nears.put` — the start, and the two kinds of
  steps
-/

namespace Protobuf

/-- A field that is filled in belongs to no oneof. -/
theorem Graph.Linked.not_compete_of_filling? {g : Graph} (hg : g.Linked)
    {n : NodeId} {v : Value} (h : g.filling? n = some v) (n' : NodeId) : ¬g.Compete n n' := by
  obtain ⟨f, a, hf, halways, ha, -⟩ := Graph.filling?_eq_some.mp h
  exact (hg.slot?_of_default hf halways ha).2 n'

namespace Message

variable {S : Snapshot} {m : Message} {t : MessageType} {n : NodeId} {v : Value}

/-! ### What was there from the start -/

/-- What a new message holds is what stands in for absent fields. -/
theorem value?_new (ht : m.type = t) (n : NodeId) : (new t).value? n = m.standIn? n := by
  rw [new, WellTyped.value?_populate, value?_empty, Option.none_or]
  exact WellTyped.standIn?_of_type_eq ht.symm n

/-- What stands in for a field is what an own field is filled in with. -/
theorem filling?_of_standIn? (hm : m.type.snapshot = S) (h : m.standIn? n = some v) :
    n ∈ S.graph.ownFields m.type.node ∧ S.graph.filling? n = some v := by
  rw [standIn?] at h
  split at h
  · rename_i hown
    rw [graph_of_snapshot hm] at h hown
    exact ⟨hown.2, h⟩
  · cases h

/-- Nothing stands in for a field that competes with another one. -/
theorem standIn?_of_compete (hg : S.graph.Linked) (hm : m.type.snapshot = S) {n' : NodeId}
    (h : m.graph.Compete n n') : m.standIn? n = none := by
  refine Option.eq_none_iff_forall_ne_some.mpr fun v hv => ?_
  rw [graph_of_snapshot hm] at h
  exact hg.not_compete_of_filling? (filling?_of_standIn? hm hv).2 n' h

/-- A field that holds a list or a map has no rivals. -/
theorem put_of_collection (hg : m.graph.Linked) {s : Slot} (hs : m.graph.slot? n = some s)
    (hshape : s.shape ≠ .single) (v : Value) : m.put n v = m.insert n v := by
  have hrivals : m.rivals n = [] :=
    List.eq_nil_iff_forall_not_mem.mpr fun n' hn' =>
      hg.not_compete hs hshape
        ((WellTyped.mem_rivals (S := m.type.snapshot) hg.toSound rfl).mp hn').2
  rw [put, hrivals, List.foldl_nil]

/-- What should always be present is not lost when other fields of a oneof are cleared. -/
theorem Populated.put (hg : m.graph.Linked) (hm : m.Populated) (n : NodeId) (v : Value) :
    (m.put n v).Populated := by
  intro n' hn'
  rw [WellTyped.standIn?_of_type_eq (Decoding.type_put m n v)]
  rw [value?_put] at hn'
  split at hn'
  · cases hn'
  · split at hn'
    · rename_i hrival
      have hcompete := ((WellTyped.mem_rivals (S := m.type.snapshot) hg.toSound rfl).mp hrival).2
      exact standIn?_of_compete hg rfl hcompete.symm
    · exact hm n' hn'

theorem Populated.insert (hm : m.Populated) (n : NodeId) (v : Value) :
    (m.insert n v).Populated := by
  intro n' hn'
  rw [value?_insert] at hn'
  split at hn'
  · cases hn'
  · exact hm n' hn'

/-! ### On the way -/

/-- The message `acc` is to become like `m`. The fields that are still to be dealt with hold what
was there from the start, and all other fields are like those of `m`. -/
structure Nears (alike : Option Value → Option Value → Prop) (m acc : Message)
    (rest : List NodeId) : Prop where
  type : acc.type = m.type
  ascending : Keyed.Ascending Prod.fst acc.entries
  done : ∀ n, n ∉ rest → alike (acc.value? n) (m.value? n)
  todo : ∀ n ∈ rest, acc.value? n = m.standIn? n

namespace Nears

variable {alike : Option Value → Option Value → Prop} {acc : Message} {rest : List NodeId}

theorem new (hnone : alike none none) (ht : m.type = t) (hm : m.Populated)
    (hrest : ∀ n, n ∉ rest → m.value? n = none) : m.Nears alike (Message.new t) rest where
  type := (WellTyped.type_populate _).trans ht.symm
  ascending := (Sorted.new t).ascending
  done n hn := by
    have hvalue := hrest n hn
    rwa [value?_new ht, hvalue, hm n hvalue]
  todo n _ := value?_new ht n

/-- A field that is absent need not be set: nothing stands in for it. -/
theorem skip (hnone : alike none none) (hm : m.Populated) (h : m.Nears alike acc (n :: rest))
    (hv : m.value? n = none) : m.Nears alike acc rest where
  type := h.type
  ascending := h.ascending
  done n' hn' := by
    by_cases heq : n' = n
    · rwa [heq, h.todo n List.mem_cons_self, hv, hm n hv]
    · exact h.done n' fun hmem => (List.mem_cons.mp hmem).elim heq hn'
  todo n' hn' := h.todo n' (List.mem_cons_of_mem _ hn')

/-- Setting a field clears none that is to be present, and none that was there from the start. -/
theorem put (hg : S.graph.Linked) (hm : m.type.snapshot = S) (hnone : alike none none)
    (hn : n ∉ rest) (h : m.Nears alike acc (n :: rest)) (hv : alike (some v) (m.value? n))
    (halone : ∀ n' v', m.value? n' = some v' → m.graph.Compete n n' → n = n') :
    m.Nears alike (acc.put n v) rest := by
  have hrivals : ∀ n', n' ∈ acc.rivals n → m.graph.Compete n n' := by
    intro n' hn'
    have hgraph : acc.graph = S.graph := graph_of_snapshot (by rw [h.type, hm])
    rw [graph_of_snapshot hm]
    exact ((WellTyped.mem_rivals hg.toSound hgraph).mp hn').2
  refine ⟨(Decoding.type_put acc n v).trans h.type, ascending_put h.ascending n v,
    fun n' hn' => ?_, fun n' hn' => ?_⟩
  · rw [value?_put]
    split
    · rename_i heq
      rwa [← heq]
    · rename_i hne
      split
      · rename_i hrival
        cases hv' : m.value? n' with
        | none => exact hnone
        | some v' => exact absurd (halone n' v' hv' (hrivals n' hrival)) hne
      · exact h.done n' fun hmem => (List.mem_cons.mp hmem).elim (fun heq => hne heq.symm) hn'
  · have hne : n ≠ n' := fun heq => hn (heq ▸ hn')
    rw [value?_put, if_neg hne]
    split
    · rename_i hrival
      exact (standIn?_of_compete hg hm (hrivals n' hrival).symm).symm
    · exact h.todo n' (List.mem_cons_of_mem _ hn')

end Nears

end Message

end Protobuf

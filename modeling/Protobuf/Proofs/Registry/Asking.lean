import Mathlib
import Protobuf.Proofs.Registry.Resolved

/-!
# Registries that ask for defaults

Whether defaults are asked for is a setting of the graph, and only messages ever look at it. So two
registries that differ in this setting go the same way by all calls: each call has the same outcome
in both, and the graphs and snapshots that they leave have the same nodes by the same numbers.

## Main definitions

* `Graph.asking`, `Snapshot.asking`, `Registry.asking` — the same with defaults asked for, or not.
* `MessageType.asking` — the same type of such a snapshot.

## Main results

* `Graph.link_asking` — references lead to the same
* `Registry.run_asking`, `Registry.ofCalls_asking` — calls go the same way
* `Registry.messageType_asking` — the same types are handed out
-/

namespace Protobuf

/-- The settings, with defaults asked for or not. -/
def Settings.asking (b : Bool) (s : Settings) : Settings :=
  { s with populateDefaults := b }

/-- The graph, with defaults asked for or not. -/
def Graph.asking (b : Bool) (g : Graph) : Graph :=
  { g with settings := g.settings.asking b }

/-- The snapshot, with defaults asked for or not. -/
def Snapshot.asking (b : Bool) (S : Snapshot) : Snapshot :=
  { S with graph := S.graph.asking b }

/-- The message type of the same number, with defaults asked for or not. -/
def MessageType.asking (b : Bool) (t : MessageType) : MessageType :=
  ⟨⟨t.snapshot.asking b, t.node⟩⟩

/-- The registry, with defaults asked for or not. -/
def Registry.asking (b : Bool) (r : Registry) : Registry :=
  { r with graph := r.graph.asking b, snapshot := r.snapshot.map (Snapshot.asking b) }

variable (b : Bool)

/-! ### Graphs -/

namespace Graph

variable (g : Graph)

theorem sameShape_asking : g.SameShape (g.asking b) :=
  ⟨rfl, fun _ => rfl, fun _ => rfl, fun _ => .refl _, fun _ => rfl, fun _ => rfl, fun _ => rfl⟩

theorem fqn_asking (n : NodeId) : (g.asking b).fqn n = g.fqn n :=
  (g.sameShape_asking b).fqn n

theorem lookup?_asking (path : String) : (g.asking b).lookup? path = g.lookup? path := by
  rw [lookup?, lookup?, (g.sameShape_asking b).resolve?]

theorem fieldLabel_asking (n : NodeId) : (g.asking b).fieldLabel n = g.fieldLabel n := by
  rw [fieldLabel, fieldLabel, fqn_asking]
  rfl

theorem slot?_asking (n : NodeId) : (g.asking b).slot? n = g.slot? n := by
  simp only [slot?, fieldLabel_asking]
  rfl

theorem fieldByName?_asking (n : NodeId) (name : String) :
    (g.asking b).fieldByName? n name = g.fieldByName? n name := by
  simp only [fieldByName?, fqn_asking]
  rfl

/-! ### Looking up references -/

theorem linkNode_asking (found : List ExtensionEntry) (n : NodeId) :
    (g.asking b).linkNode found n = g.linkNode found n := by
  have hshape := g.sameShape_asking b
  simp only [linkNode, linkField, linkType, linkDefault, explicitDefault, linkExtension, linkMethod,
    linkMessage, hshape.resolve?, hshape.scopeOf, fqn_asking]
  rfl

/-- References lead to the same, or fail in the same way. -/
theorem link_asking : (g.asking b).link = asking b <$> g.link := by
  simp only [link, linkNode_asking, map_bind]
  rfl

/-! ### Adding definitions -/

theorem coupling_asking (settings : Settings) : Coupling id settings True .everywhere
    fun g h => g = h.asking b ∧ h.settings.fieldName = settings.fieldName where
  mirrors {g h} := by
    rintro ⟨rfl, hname⟩
    exact {
      fieldName := ⟨hname, hname⟩
      next := fun _ => rfl
      inner := trivial
      child? := fun p name _ => by
        rw [Option.map_id_fun]
        rfl
      face := fun n _ => by
        rw [NodeKind.rename_id]
        rfl
      oneof := fun _ => rfl
      numbers := fun _ _ _ => rfl
      fqn := fun _ n => h.fqn_asking b n
      scopeName := fun _ n => by
        rw [scopeName, scopeName, fqn_asking]
        rfl }
  add {g h p name kind pid h'} := by
    rintro ⟨rfl, hname⟩ - - hadd
    refine ⟨h'.asking b, ?_, rfl, ?_⟩
    · rw [NodeKind.rename_id]
      obtain ⟨hchild, hfree, rfl, rfl⟩ := add_eq_ok.mp hadd
      exact add_eq_ok.mpr ⟨hchild, hfree, rfl, rfl⟩
    · obtain ⟨-, -, -, rfl⟩ := add_eq_ok.mp hadd
      exact hname
  addMember {g h o pid} := by
    rintro ⟨rfl, hname⟩
    exact ⟨rfl, hname⟩

theorem tie_asking (settings : Settings) : Tie settings
    fun g h => g = h.asking b ∧ h.settings.fieldName = settings.fieldName where
  coupling := coupling_asking b settings
  mapScope := by
    rintro g h n change ⟨rfl, hname⟩
    exact ⟨rfl, hname⟩

end Graph

/-! ### Calls -/

namespace Registry

variable {r s : Registry}

theorem eq_asking_of_tied {P : Graph → Graph → Prop} (h : Tied (fun g h => g = h.asking b ∧ P g h)
    (fun S T => S = T.map (Snapshot.asking b)) r s) : r = s.asking b := by
  obtain ⟨⟨hgraph, -⟩, hsnapshot, hcurrent, hdialect, hfiles⟩ := h
  cases r
  cases s
  simp only at hgraph hsnapshot hcurrent hdialect hfiles
  rw [asking, hgraph, hsnapshot, hcurrent, hdialect, hfiles]

theorem run_resolveAll_asking (r : Registry) (stamp : Nat) :
    (ExceptT.run (resolveAll stamp)).run (r.asking b) =
      Prod.map id (asking b) ((ExceptT.run (resolveAll stamp)).run r) := by
  have hresolved : (r.asking b).isResolved = r.isResolved := Option.isSome_map ..
  have hlink : (r.asking b).graph.link = Graph.asking b <$> r.graph.link := r.graph.link_asking b
  rw [run_resolveAll, run_resolveAll, hresolved, hlink]
  split
  · rfl
  · cases r.graph.link <;> rfl

/-- A call goes the same way, whether defaults are asked for or not. -/
theorem run_asking (call : Call) (r : Registry) :
    (ExceptT.run call.edit).run (r.asking b) =
      Prod.map id (asking b) ((ExceptT.run call.edit).run r) := by
  cases hcall : call.isResolveAll with
  | false =>
    have hrun := Call.blind_of_tie (S := fun S T => S = T.map (Snapshot.asking b))
      (Graph.tie_asking b r.graph.settings) rfl hcall (r.asking b) r
      ⟨⟨rfl, rfl⟩, rfl, rfl, rfl, rfl⟩
    exact Prod.ext (hrun.fst_eq fun _ _ _ => rfl) (eq_asking_of_tied b hrun.left)
  | true =>
    cases call with
    | resolveAll stamp => exact run_resolveAll_asking b r stamp
    | _ => cases hcall

theorem outcome_asking (call : Call) (r : Registry) :
    (r.asking b).outcome call.edit = r.outcome call.edit := by
  rw [outcome, outcome, run_asking]
  rfl

theorem after_asking (call : Call) (r : Registry) :
    (r.asking b).after call.edit = (r.after call.edit).asking b := by
  rw [after, after, run_asking]
  rfl

/-- So does a sequence of calls. -/
theorem ofCalls_asking (settings : Settings) (calls : List Call) :
    ofCalls (settings.asking b) calls = (ofCalls settings calls).asking b := by
  have hempty : empty (settings.asking b) = (empty settings).asking b := rfl
  rw [ofCalls, ofCalls, hempty]
  exact List.foldl_hom (asking b) fun r call => after_asking b call r

/-- The same types are handed out, or none for the same reason. -/
theorem messageType_asking (r : Registry) (path : String) :
    (r.asking b).messageType path = MessageType.asking b <$> r.messageType path := by
  have hsnapshot : (r.asking b).snapshot = r.snapshot.map (Snapshot.asking b) := rfl
  rw [messageType, messageType, build, build, hsnapshot]
  cases r.snapshot with
  | none => rfl
  | some S =>
    have hlookup : (S.asking b).graph.lookup? path = S.graph.lookup? path :=
      S.graph.lookup?_asking b path
    have hkind : ∀ n, (S.asking b).graph.kind n = S.graph.kind n := fun _ => rfl
    simp only [Option.map_some, hlookup]
    cases S.graph.lookup? path with
    | none => rfl
    | some n =>
      simp only [Entity.ofNode?, hkind]
      cases S.graph.kind n <;> rfl

end Registry

end Protobuf

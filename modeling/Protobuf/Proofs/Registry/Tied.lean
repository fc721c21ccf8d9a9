import Protobuf.Proofs.Registry.Call
import Protobuf.Proofs.Registry.Coupled
import Protobuf.Proofs.Registry.Current

/-!
# Calls on two registries

What calls read of the graph of a registry is little: what is below a node under a name, of what
kind a node is, and what it is called. If two graphs agree on that, and go on agreeing when both are
added to, then a call has the same outcome in two registries with these graphs, unless it looks up
references. Their snapshots do not matter to such a call, except that it may drop both of them.

## Main definitions

* `Graph.Tie` — a relation of graphs that agree on what calls read, and that calls keep.
* `Registry.Tied` — registries with related graphs and snapshots, and the same apart from these.
* `Registry.Blind` — an action does not see the difference between registries that are related.

## Main results

* `Registry.Call.blind_of_tie` — calls do not see the difference between tied registries
-/

namespace Protobuf

/-- Graphs that are related have the same nodes by the same numbers, and stay related if the same is
added to both. Field names follow the settings. -/
structure Graph.Tie (settings : Settings) (G : Graph → Graph → Prop) : Prop where
  coupling : Coupling id settings True .everywhere G
  mapScope : ∀ {g h n change}, G g h →
    G (g.mapKind n (·.mapScope change)) (h.mapKind n (·.mapScope change))

namespace Graph.Tie

variable {settings : Settings} {G : Graph → Graph → Prop} {g h : Graph}

theorem child? (hG : Tie settings G) (hgh : G g h) (p : NodeId) (name : String) :
    g.child? p name = h.child? p name := by
  have hchild := (hG.coupling.mirrors hgh).child? p name trivial
  rwa [Option.map_id_fun] at hchild

theorem fqn (hG : Tie settings G) (hgh : G g h) (n : NodeId) : g.fqn n = h.fqn n :=
  (hG.coupling.mirrors hgh).fqn trivial n

theorem isPackage (hG : Tie settings G) (hgh : G g h) (n : NodeId) :
    (g.kind n).isPackage = (h.kind n).isPackage := by
  have hface : (g.kind n).face = ((h.kind n).rename id).face :=
    (hG.coupling.mirrors hgh).face n trivial
  rw [← NodeKind.isPackage_face, hface, NodeKind.isPackage_face, NodeKind.rename_id]

end Graph.Tie

namespace Registry

/-- The graphs of the registries are related by `G` and the snapshots by `S`, and otherwise the
registries are the same. -/
structure Tied (G : Graph → Graph → Prop) (S : Option Snapshot → Option Snapshot → Prop)
    (r s : Registry) : Prop where
  graph : G r.graph s.graph
  snapshot : S r.snapshot s.snapshot
  current : r.current = s.current
  dialect : r.dialect = s.dialect
  files : r.files = s.files

/-- The action has the same outcome in registries that are related, and leaves related ones. -/
def Blind {ε : Type} (R : Registry → Registry → Prop) (edit : RegistryEdit ε Unit) : Prop :=
  ∀ r s, R r s → Coupled R Eq (fun _ _ => True) r s edit edit

section

variable {settings : Settings} {G : Graph → Graph → Prop}
  {S : Option Snapshot → Option Snapshot → Prop} {r s : Registry}

theorem Tied.editGraph {α : Type} {V : α → α → Prop} {edit : GraphEdit α} (h : Tied G S r s)
    (hedit : GraphEdit.Alike G True V r.graph s.graph edit edit) :
    Coupled (Tied G S) Eq V r s (Registry.editGraph edit) (Registry.editGraph edit) :=
  (coupled_editGraph hedit fun _ _ hgh => ⟨hgh, h.snapshot, h.current, h.dialect, h.files⟩).mono
    (fun _ _ h => h) (fun _ _ he => he trivial) fun _ _ h => h

/-- A file is noted in both registries. -/
theorem Tied.note (h : Tied G S r s) (name : String) :
    Tied G S { r with files := Keyed.insert id name r.files }
      { s with files := Keyed.insert id name s.files } :=
  ⟨h.graph, h.snapshot, h.current, h.dialect, congrArg (Keyed.insert id name) h.files⟩

theorem blind_reset {ε : Type} : Blind (Tied G S) (reset : RegistryEdit ε Unit) :=
  fun _ _ h => Coupled.modify trivial ⟨h.graph, h.snapshot, rfl, h.dialect, h.files⟩

section

variable (hG : Graph.Tie settings G)

include hG

theorem blind_addOptions {ε : Type} (options : Options) :
    Blind (Tied G S) (addOptions options : RegistryEdit ε Unit) := by
  intro r s h
  refine Coupled.modify trivial ⟨?_, h.snapshot, h.current, h.dialect, h.files⟩
  show G (r.graph.mapKind r.current _) (s.graph.mapKind s.current _)
  rw [h.current]
  exact hG.mapScope h.graph

theorem blind_enter (package name : String) : Blind (Tied G S) (enter package name) := by
  intro r s h
  have hmove : ∀ n {r s}, Tied G S r s → Tied G S { r with current := n } { s with current := n } :=
    fun n _ _ h => ⟨h.graph, h.snapshot, rfl, h.dialect, h.files⟩
  have hpackage := hG.isPackage h.graph
  rw [enter]
  refine Coupled.bindGet ?_
  rw [h.current, hG.child? h.graph]
  cases s.graph.child? s.current name with
  | some existing =>
    dsimp only
    split
    · rename_i scope hscope
      obtain ⟨scope', hscope'⟩ := Graph.exists_scope_of_isPackage
        ((hpackage existing).symm.trans (by rw [hscope]; rfl))
      rw [hscope']
      exact Coupled.bind (V := Eq) (Coupled.pure rfl h) fun a b _ _ hab h => by
        subst hab
        exact Coupled.modify trivial (hmove a h)
    · rename_i hother
      split
      · rename_i scope hscope
        obtain ⟨scope', hscope'⟩ := Graph.exists_scope_of_isPackage
          ((hpackage existing).trans (by rw [hscope]; rfl))
        exact absurd hscope' (hother scope')
      · rw [hG.fqn h.graph]
        exact Coupled.bind (V := fun _ _ => False) (Coupled.throw rfl h) fun _ _ _ _ h => h.elim
  | none =>
    rw [h.dialect]
    refine Coupled.bind (h.editGraph (GraphEdit.alike_add hG.coupling h.graph rfl trivial
      fun _ => trivial)) fun a b r s hab h => ?_
    obtain ⟨rfl, -⟩ := hab
    exact Coupled.modify trivial (hmove _ h)

theorem blind_define (package : String) (options : Options) :
    Blind (Tied G S) (define package options) := by
  intro r s h
  rw [define]
  exact Coupled.bind (Coupled.forM h fun name _ => blind_enter hG package name)
    fun _ _ _ _ _ => blind_addOptions hG options _ _

variable (hS : S none none)

include hS

theorem blind_create (definitions : List Definition) : Blind (Tied G S) (create definitions) := by
  intro r s h
  rw [create]
  refine Coupled.bind (V := fun _ _ => True)
    (Coupled.modify trivial ⟨h.graph, hS, h.current, h.dialect, h.files⟩)
    fun _ _ r s _ h => Coupled.bindGet ?_
  rw [h.current, h.dialect]
  refine Coupled.forM h fun d _ r' s' h => h.editGraph ?_
  exact GraphEdit.alike_create s.dialect hG.coupling h.graph s.current d fun _ _ => trivial

theorem blind_addFile (file : FileDecl) : Blind (Tied G S) (addFile file) := by
  intro r s h
  have hrest : Blind (Tied G S) (create file.definitions >>= fun _ => reset) := fun _ _ h =>
    Coupled.bind (blind_create hG hS _ _ _ h) fun _ _ _ _ _ => blind_reset _ _
  rw [addFile]
  refine Coupled.bind (V := fun _ _ => True)
    (Coupled.modify trivial ⟨h.graph, h.snapshot, h.current, rfl, h.files⟩) fun _ _ r s _ h => ?_
  refine Coupled.bind (blind_reset _ _ h) fun _ _ r s _ h => ?_
  split
  · exact Coupled.bind (blind_define hG _ _ _ _ h) fun _ _ _ _ _ => hrest _ _
  · exact Coupled.bind (blind_addOptions hG _ _ _ h) fun _ _ _ _ _ => hrest _ _

theorem blind_importFile (file : FileDecl) (name : Option String) :
    Blind (Tied G S) (importFile file name) := by
  intro r s h
  cases name with
  | none => exact blind_addFile hG hS file r s h
  | some name =>
    rw [importFile]
    refine Coupled.bindGet ?_
    rw [h.files]
    split
    · exact Coupled.pure trivial h
    · exact Coupled.bind (V := fun _ _ => True) (Coupled.modify trivial (h.note name))
        fun _ _ _ _ _ => blind_addFile hG hS file _ _

omit hG hS in
theorem Blind.asSchemaEdit {R : Registry → Registry → Prop}
    {edit : RegistryEdit DefinitionError Unit} (hedit : Blind R edit) :
    Blind R (Registry.asSchemaEdit edit) :=
  fun r s h => (hedit r s h).adapt fun _ _ => congrArg _

theorem blind_load (source : String) (name : Option String) :
    Blind (Tied G S) (load source name) := by
  intro r s h
  rw [load]
  split
  · exact Coupled.throw rfl h
  · exact (blind_importFile hG hS _ name).asSchemaEdit r s h

theorem blind_loadWithin (available : List (String × String)) (fuel : Nat) (source name : String) :
    Blind (Tied G S) (loadWithin available fuel source name) := by
  induction fuel generalizing source name with
  | zero =>
    intro r s h
    rw [loadWithin]
    exact Coupled.throw rfl h
  | succ fuel ih =>
    intro r s h
    rw [loadWithin]
    refine Coupled.bindGet ?_
    rw [h.files]
    split
    · exact Coupled.pure trivial h
    · split
      · exact Coupled.throw rfl h
      · rename_i file hfile
        refine Coupled.bind (V := fun _ _ => True) (Coupled.modify trivial (h.note name))
          fun _ _ r s _ h => ?_
        refine Coupled.bind (Coupled.forM h fun path _ r s h => Coupled.bindGet ?_)
          fun _ _ _ _ _ => (blind_addFile hG hS file).asSchemaEdit _ _
        rw [h.files]
        split
        · exact Coupled.pure trivial h
        · split
          · exact Coupled.throw rfl h
          · exact ih _ path r s h

end

/-! ### Calls -/

/-- The call is one that looks up all references. -/
def Call.isResolveAll : Call → Bool
  | resolveAll _ => true
  | _ => false

/-- Other calls do not see the difference between tied registries. -/
theorem Call.blind_of_tie (hG : Graph.Tie settings G) (hS : S none none) {call : Call}
    (h : call.isResolveAll = false) : Blind (Tied G S) call.edit := by
  cases call with
  | define package options => exact (blind_define hG package options).asSchemaEdit
  | create definitions => exact (blind_create hG hS definitions).asSchemaEdit
  | importFile file name => exact (blind_importFile hG hS file name).asSchemaEdit
  | load source name => exact blind_load hG hS source name
  | loadWith available source name => exact blind_loadWithin hG hS available _ source name
  | reset => exact blind_reset
  | resolveAll stamp => cases h

end

end Registry

end Protobuf

import Mathlib
import Protobuf.Proofs.Registry.Tied
import Protobuf.Proofs.Registry.Unlinked

/-!
# References that are looked up on the way

References may be looked up at any time, and again once more has been added. Whether that has been
done before is not seen by any other call: what these read of the graph is what has been declared.
It is not seen by looking up all references either, for that begins anew each time.

But nothing is looked up while there is a snapshot. So it is seen after all if packages have been
opened since the snapshot was taken and nothing has dropped it: the references may lead elsewhere
then, and that is not noticed.

## Main definitions

* `Registry.outcome` — what an action on a registry gives.
* `Registry.Akin` — registries that differ in what looking up references has found.
* `Registry.LinkAlike` — looking up references ends in the same way for both registries.

## Main results

* `Registry.akin_ofCalls` — calls go on as if references had not been looked up on the way
* `Registry.resolveAll_unseen` — when looking them up in the end does so as well
-/

namespace Protobuf

namespace Registry

variable {r s : Registry}

/-- What an action on a registry gives. -/
def outcome {ε α : Type} (r : Registry) (edit : RegistryEdit ε α) : Except ε α :=
  ((ExceptT.run edit).run r).1

/-- The registries differ in nothing but what looking up references has found, and the second one has
no snapshot. -/
structure Akin (r s : Registry) : Prop where
  graph : r.graph.unlinked = s.graph.unlinked
  pos : 0 < s.graph.size
  unresolved : s.snapshot = none
  current : r.current = s.current
  dialect : r.dialect = s.dialect
  files : r.files = s.files

/-! ### Actions that do not see what references lead to -/

theorem tie_unlinked (settings : Settings) : Graph.Tie settings
    fun g h => g.unlinked = h.unlinked ∧ h.settings = settings ∧ 0 < h.size where
  coupling := Graph.coupling_unlinked settings
  mapScope {g h n change} := by
    rintro ⟨hgh, hsettings, hpos⟩
    have hchange : ∀ k : NodeKind, (k.mapScope change).unlinked = k.unlinked.mapScope change :=
      fun k => by cases k <;> rfl
    refine ⟨?_, hsettings, ?_⟩
    · rw [Graph.unlinked_mapKind hchange, Graph.unlinked_mapKind hchange, hgh]
    · rw [Graph.size_mapKind]
      exact hpos

/-- What no tie shows is not seen in registries that are akin. -/
theorem Blind.akin {ε : Type} {edit : RegistryEdit ε Unit}
    (hedit : ∀ {settings G S}, Graph.Tie settings G → S none none → Blind (Tied G S) edit) :
    Blind Akin edit :=
  fun r s h =>
    (hedit (S := fun _ t => t = none) (tie_unlinked s.graph.settings) rfl r s
      ⟨⟨h.graph, rfl, h.pos⟩, h.unresolved, h.current, h.dialect, h.files⟩).mono
      (fun _ _ h => ⟨h.graph.1, h.graph.2.2, h.snapshot, h.current, h.dialect, h.files⟩)
      (fun _ _ h => h) fun _ _ h => h

/-! ### Calls -/

/-- The registry that a sequence of calls makes, refused or not. -/
def ofCalls (settings : Settings) (calls : List Call) : Registry :=
  calls.foldl (fun r call => r.after call.edit) (.empty settings)

theorem Call.blind {call : Call} (h : call.isResolveAll = false) : Blind Akin call.edit :=
  .akin fun hG hS => Call.blind_of_tie hG hS h

/-- Looking up references, if that is called for at all, gives the graph with its links and a snapshot of
that, or is refused without a trace. -/
theorem run_resolveAll (r : Registry) (stamp : Nat) :
    (ExceptT.run (resolveAll stamp)).run r =
      if r.isResolved then (.ok (), r)
      else match r.graph.link with
        | .error e => (.error e, r)
        | .ok graph => (.ok (), { r with graph, snapshot := some { graph, stamp } }) := by
  rw [resolveAll, run_get_bind]
  split
  · rfl
  · cases r.graph.link <;> rfl

theorem Akin.resolveAll (h : Akin r s) (stamp : Nat) :
    Akin (r.after (Registry.resolveAll stamp)) s := by
  rw [after, run_resolveAll]
  split
  · exact h
  · cases hlink : r.graph.link with
    | error e => exact h
    | ok g =>
      exact ⟨(Graph.unlinked_of_link hlink).trans h.graph, h.pos, h.unresolved, h.current, h.dialect,
        h.files⟩

/-- However often references are looked up on the way, calls go on as if they had not been. -/
theorem akin_ofCalls (settings : Settings) (calls : List Call) :
    Akin (ofCalls settings calls) (ofCalls settings (calls.filter (!·.isResolveAll))) := by
  have hfold : ∀ calls : List Call, ∀ {r s}, Akin r s →
      Akin (calls.foldl (fun r call => r.after call.edit) r)
        ((calls.filter (!·.isResolveAll)).foldl (fun r call => r.after call.edit) s) := by
    intro calls
    induction calls with
    | nil => exact fun h => h
    | cons call more ih =>
      intro r s h
      cases hcall : call.isResolveAll with
      | false =>
        rw [List.filter_cons_of_pos (by rw [hcall]; rfl)]
        exact ih (Call.blind hcall r s h).left
      | true =>
        rw [List.filter_cons_of_neg (by rw [hcall]; decide)]
        cases call with
        | resolveAll stamp => exact ih (h.resolveAll stamp)
        | _ => cases hcall
  exact hfold calls ⟨rfl, Nat.one_pos, rfl, rfl, rfl, rfl⟩

/-! ### Snapshots -/

/-- Looking up references once more finds the same. -/
theorem Reached.link_snapshot (hr : r.Reached) {S : Snapshot} (hS : r.snapshot = some S) :
    S.graph.link = .ok S.graph := by
  obtain ⟨settings, hreaches⟩ := hr
  induction hreaches with
  | refl => cases hS
  | tail _ hstep ih =>
    cases hstep with
    | thaw => cases hS
    | freeze stamp _ hlink =>
      cases hS
      exact Graph.link_of_link hlink
    | _ => exact ih hS

/-- Looking up references ends in the same way for both registries: with the same graph, or with the
same refusal, after which the graphs differ in nothing but what had been found before. -/
def LinkAlike (r s : Registry) : Prop :=
  ∀ stamp stamp', r.outcome (resolveAll stamp) = s.outcome (resolveAll stamp') ∧
    (r.after (resolveAll stamp)).graph.unlinked = (s.after (resolveAll stamp')).graph.unlinked ∧
    (r.outcome (resolveAll stamp) = .ok () →
      (r.after (resolveAll stamp)).graph = (s.after (resolveAll stamp')).graph)

theorem Akin.linkAlike (h : Akin r s) (hr : r.Reached) (hup : r.UpToDate) : r.LinkAlike s := by
  intro stamp stamp'
  have hlink : r.graph.link = s.graph.link := by
    rw [← Graph.link_unlinked, h.graph, Graph.link_unlinked]
  have hunresolved : s.isResolved = false := by rw [isResolved, h.unresolved]; rfl
  simp only [outcome, after, run_resolveAll, hunresolved, ← hlink]
  cases hsnapshot : r.snapshot with
  | none =>
    have hr : r.isResolved = false := by rw [isResolved, hsnapshot]; rfl
    rw [if_neg (by rw [hr]; decide)]
    cases r.graph.link with
    | error e => exact ⟨rfl, h.graph, fun hok => by cases hok⟩
    | ok g => exact ⟨rfl, rfl, fun _ => rfl⟩
  | some S =>
    have hresolved : r.isResolved = true := by rw [isResolved, hsnapshot]; rfl
    have hself : r.graph.link = .ok r.graph := hup S hsnapshot ▸ hr.link_snapshot hsnapshot
    rw [if_pos hresolved, hself]
    exact ⟨rfl, rfl, fun _ => rfl⟩

/-! ### Calls after which the snapshot is not out of date -/

/-- A part of a package is refused only for what is in its place. -/
theorem error_of_enter {package name : String} {e : DefinitionError}
    (h : r.outcome (enter package name) = .error e) : ∃ n, e = .notAPackage package n := by
  rw [outcome, enter, run_get_bind] at h
  split at h
  · split at h
    · cases h
    · cases h
      exact ⟨_, rfl⟩
  · rename_i hnone
    have hadd := Graph.add_eq_ok.mpr ⟨hnone, fun f
      (hf : NodeKind.package { dialect := r.dialect } = .field f) => (by cases hf), rfl, rfl⟩
    rw [run_bind_eq, run_editGraph, GraphEdit.add, run_get_bind, hadd] at h
    cases h

theorem error_of_define {package : String} {options : Options} {e : DefinitionError}
    (h : r.outcome (define package options) = .error e) : ∃ n, e = .notAPackage package n := by
  have hparts : ∀ (parts : List String) (r : Registry),
      r.outcome (parts.forM (enter package)) = .error e → ∃ n, e = .notAPackage package n := by
    intro parts
    induction parts with
    | nil =>
      intro r h
      cases h
    | cons name more ih =>
      intro r h
      change ((ExceptT.run (enter package name >>= fun _ => more.forM (enter package))).run r).1 =
        .error e at h
      rw [run_bind_eq] at h
      split at h
      · exact ih _ h
      · rename_i e' s henter
        cases h
        exact error_of_enter (congrArg Prod.fst henter)
  rw [outcome, define, run_bind_eq] at h
  split at h
  · cases h
  · rename_i e' s hforM
    cases h
    exact hparts _ r (congrArg Prod.fst hforM)

/-- The definitions of the call, or of the file that it brings, are added, as far as they are not
refused. So a file is not skipped, and its package can be gone into. -/
def Call.Renews (r : Registry) : Call → Prop
  | create _ => True
  | importFile file name => (∀ n, name = some n → n ∉ r.files) ∧
    ∀ package n, r.outcome (Registry.importFile file name) ≠ .error (.notAPackage package n)
  | _ => False

theorem leads_createReset (definitions : List Definition) :
    Leads (fun _ => True) (create definitions >>= fun _ => reset) (fun _ => UpToDate) UpToDate :=
  Leads.bind ((leads_create definitions).mono (fun _ _ hs => hs) fun _ hs => upToDate_of_none hs)
    fun _ => Leads.modify fun _ hs => upToDate_of_none hs

/-- The definitions of a file are reached if its package can be gone into. -/
theorem upToDate_addFile {file : FileDecl}
    (h : ∀ package n, r.outcome (addFile file) ≠ .error (.notAPackage package n)) :
    (r.after (addFile file)).UpToDate := by
  let rest : RegistryEdit DefinitionError Unit := create file.definitions >>= fun _ => reset
  let start : Registry := { r with dialect := file.dialect, current := Graph.root }
  have hrest : ∀ s : Registry, (s.after rest).UpToDate :=
    fun s => (leads_createReset file.definitions).left trivial
  rw [outcome, addFile] at h
  rw [after, addFile]
  cases hpackage : file.package with
  | none => exact hrest _
  | some package =>
    rw [hpackage] at h
    change ∀ p n, ((ExceptT.run (define package file.options >>= fun _ => rest)).run start).1 ≠ _ at h
    change ((ExceptT.run (define package file.options >>= fun _ => rest)).run start).2.UpToDate
    rw [run_bind_eq] at h ⊢
    split
    · exact hrest _
    · rename_i e s hdefine
      rw [hdefine] at h
      obtain ⟨n, rfl⟩ := error_of_define (congrArg Prod.fst hdefine)
      exact absurd rfl (h package n)

theorem Call.Renews.upToDate {call : Call} (h : call.Renews r) : (r.after call.edit).UpToDate := by
  cases call with
  | create definitions =>
    exact upToDate_of_none ((leads_create definitions).adapt.left trivial)
  | importFile file name =>
    cases name with
    | none => exact upToDate_addFile h.2
    | some name =>
      have hnew : r.files.contains name = false := by
        simpa using h.1 name rfl
      let noted : Registry := { r with files := Keyed.insert id name r.files }
      have hrun : (ExceptT.run (Registry.importFile file (some name))).run r =
          (ExceptT.run (addFile file)).run noted := by
        unfold Registry.importFile
        dsimp only
        rw [run_get_bind, if_neg (by rw [hnew]; decide)]
        rfl
      have herror := h.2
      rw [outcome, hrun] at herror
      show ((ExceptT.run (Registry.importFile file (some name))).run r).2.UpToDate
      rw [hrun]
      exact upToDate_addFile herror
  | _ => exact h.elim

/-- Without packages that are gone into by themselves, the snapshot is never out of date. -/
theorem upToDate_ofCalls (settings : Settings) {calls : List Call}
    (h : ∀ package options, .define package options ∉ calls) :
    (ofCalls settings calls).UpToDate := by
  have hfresh : (ofCalls settings calls).Fresh :=
    List.foldlRecOn calls _ ⟨(Built.empty settings).reached, upToDate_of_none rfl⟩
      fun r hr call hcall => (Call.fresh fun package options heq =>
        h package options (heq ▸ hcall)).left hr
  exact hfresh.2

/-- Whether references have been looked up on the way is not seen. All other calls have the same
outcome, and a lookup that is refused changes nothing. A lookup of all references in the end has the
same outcome as well, and gives the same graph, unless there is a snapshot that is out of date. There
is none without packages that are gone into by themselves, and none after definitions have been added,
be it by themselves or with a file. -/
theorem resolveAll_unseen (settings : Settings) (calls : List Call) :
    let r := ofCalls settings calls
    let s := ofCalls settings (calls.filter (!·.isResolveAll))
    (∀ call : Call, call.isResolveAll = false → r.outcome call.edit = s.outcome call.edit) ∧
    (∀ stamp e, r.outcome (resolveAll stamp) = .error e → r.after (resolveAll stamp) = r) ∧
    (r.UpToDate → r.LinkAlike s) ∧
    ((∀ package options, .define package options ∉ calls) → r.UpToDate) ∧
    ∀ call : Call, call.Renews r → (r.after call.edit).LinkAlike (s.after call.edit) := by
  have hakin := akin_ofCalls settings calls
  have hbuilt : (ofCalls settings calls).Built := built_iff.mpr ⟨settings, calls, rfl⟩
  refine ⟨fun call hcall => ?_, fun stamp e he => ?_, hakin.linkAlike hbuilt.reached,
    upToDate_ofCalls settings, fun call hcall => ?_⟩
  · exact (Call.blind hcall _ _ hakin).fst_eq fun _ _ _ => rfl
  · rw [outcome, run_resolveAll] at he
    rw [after, run_resolveAll]
    split
    · rfl
    · rename_i hunresolved
      rw [if_neg hunresolved] at he
      cases hlink : (ofCalls settings calls).graph.link with
      | error e' => rfl
      | ok g =>
        rw [hlink] at he
        cases he
  · have hblind : call.isResolveAll = false := by
      cases call with
      | resolveAll stamp => exact hcall.elim
      | _ => rfl
    exact (Call.blind hblind _ _ hakin).left.linkAlike (hbuilt.call call).reached hcall.upToDate

/-! ### Two histories -/

/-- A message of the name, with the fields. -/
def messageOf (name : String) (fields : List FieldDecl) : Definition :=
  .message ⟨name, false, fields, [], [], [], [], {}, [], [], 1⟩

/-- The field `x` of the type `T`. -/
def fieldOfT : FieldDecl :=
  { rule := .optional, typeName := "T", keyType := none, name := "x", id := 1, options := {},
    oneof := none, line := 1 }

/-- A message with a field is defined, and references are looked up, before the type of the field
is defined. -/
def earlyCalls : List Call :=
  [.create [messageOf "M" [fieldOfT]], .resolveAll 0]

/-- The lookup fails, and does no harm: once the type has been defined as well, looking up all
references gives the same as if it had not been tried before. -/
theorem resolveAll_unseen_early :
    let r := ofCalls {} earlyCalls
    let s := ofCalls {} (earlyCalls.filter (!·.isResolveAll))
    let rest := Call.create [messageOf "T" []]
    r.outcome rest.edit = s.outcome rest.edit ∧ r.after (resolveAll 1) = r ∧ r.LinkAlike s ∧
      (r.after rest.edit).LinkAlike (s.after rest.edit) ∧
      (r.after rest.edit).outcome (resolveAll 1) = .ok () := by
  intro r s rest
  have herror : (ofCalls {} earlyCalls).outcome (resolveAll 1) =
      .error (.reference (.unresolved "T" ".M.x")) := by cbv
  have hok : ((ofCalls {} earlyCalls).after (Call.create [messageOf "T" []]).edit).outcome
      (resolveAll 1) = .ok () := by cbv
  have hdefine : ∀ package options, Call.define package options ∉ earlyCalls := by
    simp [earlyCalls]
  obtain ⟨hcall, hfail, hlink, hup, hrenew⟩ := resolveAll_unseen {} earlyCalls
  refine ⟨hcall rest rfl, hfail 1 _ herror, hlink (hup hdefine), hrenew rest trivial, hok⟩

/-- The file of a package `q`, with a message that has the field. -/
def fileOfQ : FileDecl :=
  { package := some "q", messages := [⟨"M", false, [fieldOfT], [], [], [], [], {}, [], [], 1⟩] }

/-- References are looked up before a package is opened that hides the type of a field. The file
that is imported last has been imported before. -/
def hidingCalls : List Call :=
  [.create [messageOf "T" []], .importFile fileOfQ (some "a"), .resolveAll 0, .define "q.T" {},
    .importFile fileOfQ (some "a")]

/-- With the lookup on the way, the last one is not refused, for it is not made. -/
theorem resolveAll_hidden :
    (ofCalls {} hidingCalls).outcome (resolveAll 1) = .ok () ∧
      (ofCalls {} (hidingCalls.filter (!·.isResolveAll))).outcome (resolveAll 1) =
        .error (.reference (.wrongKind "T" ".q.M.x" "message or enum")) := by
  constructor <;> cbv

end Registry

end Protobuf

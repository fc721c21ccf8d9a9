import Mathlib
import Protobuf.Proofs.Registry.Call
import Protobuf.Proofs.Registry.Lookup

/-!
# Snapshots and the graph at hand

Types are taken from a snapshot, while actions go on with the graph at hand. All of them drop the
snapshot before they add definitions. But a package may be opened, or given options, under a
snapshot, and the snapshot does not see that: what is handed out is then not what is shown.

So what is handed out is what is shown exactly if the graph of the snapshot is the one at hand. The
only call after which it may be another one is that of a package, if it changes anything while there
is a snapshot.

## Main definitions

* `Graph.Opened` — packages have been opened or given options, and nothing else has been done.
* `Registry.UpToDate` — the snapshot shows the graph at hand.
* `Registry.Serves` — what is handed out is what is shown.

## Main results

* `Registry.Reached.opened` — what a snapshot may lack
* `Registry.Built.serves_current` — when what is handed out is what is shown
-/

namespace Protobuf

namespace Graph

variable {g g' g'' : Graph}

/-- Packages have been opened or given options, and nothing else has been done. -/
structure Opened (g g' : Graph) : Prop extends Becomes g g' where
  extensions : g'.extensions = g.extensions
  new : ∀ n, g.size ≤ n → n < g'.size → (g'.kind n).isPackage
  other : ∀ n < g.size, (g.kind n).isPackage = false → g'.kind n = g.kind n
  package : ∀ n < g.size, ∀ s, g.kind n = .package s →
    ∃ s', g'.kind n = .package s' ∧ s'.dialect = s.dialect

namespace Opened

theorem refl (g : Graph) : g.Opened g :=
  ⟨.refl g, rfl, fun _ hle hlt => absurd hle (Nat.not_le.mpr hlt), fun _ _ _ => rfl,
    fun _ _ s hs => ⟨s, hs, rfl⟩⟩

theorem trans (h : g.Opened g') (h' : g'.Opened g'') : g.Opened g'' := by
  have hlt : ∀ {n}, n < g.size → n < g'.size := fun hn => Nat.lt_of_lt_of_le hn h.size
  refine ⟨h.toBecomes.trans h'.toBecomes, h'.extensions.trans h.extensions, fun n hle hn => ?_,
    fun n hn hp => ?_, fun n hn s hs => ?_⟩
  · rcases Nat.lt_or_ge n g'.size with hbefore | hafter
    · rw [h'.isPackage n hbefore]
      exact h.new n hle hbefore
    · exact h'.new n hafter hn
  · exact (h'.other n (hlt hn) ((h.isPackage n hn).trans hp)).trans (h.other n hn hp)
  · obtain ⟨s', hs', hdialect⟩ := h.package n hn s hs
    obtain ⟨s'', hs'', hdialect'⟩ := h'.package n (hlt hn) s' hs'
    exact ⟨s'', hs'', hdialect'.trans hdialect⟩

end Opened

/-- Opening a package below another one is no more than that. -/
theorem opened_of_add {p id : NodeId} {name : String} {scope : Scope} (hp : p < g.size)
    (hpackage : (g.kind p).isPackage) (h : g.add p name (.package scope) = .ok (id, g')) :
    g.Opened g' := by
  obtain ⟨rfl, hplanted, hgrown⟩ := grown_of_add hp h
  obtain ⟨-, -, -, rfl⟩ := add_eq_ok.mp h
  obtain ⟨s, hs⟩ := exists_scope_of_isPackage hpackage
  have hlisted := hplanted.children p (Nat.ne_of_lt hp)
  rw [if_pos ⟨rfl, NodeKind.hasScope_of_isPackage hpackage⟩] at hlisted
  have hkind := kind_planted hp name (.package scope)
  refine ⟨hgrown.becomes hpackage (hlisted ▸ List.prefix_append _ _), rfl, fun n hle hlt => ?_,
    fun n hn hother => ?_, fun n hn s' hs' => ?_⟩
  · have heq : n = g.size := by
      rw [hplanted.size] at hlt
      exact Nat.le_antisymm (Nat.le_of_lt_succ hlt) hle
    rw [heq, hplanted.new]
    rfl
  · rw [hkind, if_neg (Nat.ne_of_lt hn), if_neg]
    rintro rfl
    rw [hpackage] at hother
    cases hother
  · rw [hkind, if_neg (Nat.ne_of_lt hn)]
    split
    · rw [hs']
      exact ⟨_, rfl, rfl⟩
    · exact ⟨s', hs', rfl⟩

/-- Further options of a package are no more than that. -/
theorem opened_mapScope {p : NodeId} {change : Scope → Scope} (hp : (g.kind p).isPackage)
    (hchange : ∀ s, (change s).children = s.children ∧ (change s).dialect = s.dialect) :
    g.Opened (g.mapKind p (·.mapScope change)) := by
  refine ⟨becomes_mapScope hp fun s => (hchange s).1, rfl, fun n hle hlt => ?_,
    fun n hn hother => ?_, fun n hn s hs => ?_⟩
  · rw [size_mapKind] at hlt
    exact absurd hle (Nat.not_le.mpr hlt)
  · rw [kind_mapKind, if_neg]
    rintro ⟨rfl, -⟩
    rw [hp] at hother
    cases hother
  · rw [kind_mapKind]
    split
    · rw [hs]
      exact ⟨_, rfl, (hchange s).2⟩
    · exact ⟨s, hs, rfl⟩

/-! ### Graphs between which nothing has been done -/

/-- The options of a node with a scope. -/
def scopeOptions (g : Graph) (n : NodeId) : Options :=
  (g.scope? n).elim {} Scope.options

/-- If no package has been added, none has more below it. -/
theorem Opened.children_eq (h : g.Opened g') (hg : g.Tree) (hg' : g'.Tree)
    (hsize : g'.size = g.size) {n : NodeId} (hn : n < g.size) : g'.children n = g.children n := by
  obtain ⟨more, hmore⟩ := h.listed n hn
  have hnil : more = [] := by
    refine List.eq_nil_iff_forall_not_mem.mpr fun c hc => ?_
    have hmem : c ∈ g'.children n := by
      rw [← hmore]
      exact List.mem_append_right _ hc
    obtain ⟨hparent, hscope⟩ := (hg'.children n c).mp hmem
    have hlt : c < g.size := by
      rw [← hsize]
      exact (hg'.lt_of_parent? hparent).2
    rw [h.parent? c hlt] at hparent
    have hscope' : (g.kind n).hasScope := by
      cases hpackage : (g.kind n).isPackage with
      | true => exact NodeKind.hasScope_of_isPackage hpackage
      | false =>
        rw [h.other n hn hpackage] at hscope
        exact hscope
    have hold : c ∈ g.children n := (hg.children n c).mpr ⟨hparent, hscope'⟩
    have hascending := hg'.ascending n
    rw [← hmore] at hascending
    exact absurd ((List.pairwise_append.mp hascending).2.2 c hold c hc) (Nat.lt_irrefl c)
  rw [← hmore, hnil, List.append_nil]

/-- If no package has been added and none has got other options, nothing has been done. -/
theorem Opened.eq (h : g.Opened g') (hg : g.Tree) (hg' : g'.Tree) (hsize : g'.size = g.size)
    (hoptions : ∀ n < g.size, (g.kind n).isPackage → g'.scopeOptions n = g.scopeOptions n) :
    g' = g := by
  refine eq_of_kind_eq hsize h.extensions h.settings h.name h.parent? fun n hn => ?_
  cases hpackage : (g.kind n).isPackage with
  | false => exact h.other n hn hpackage
  | true =>
    obtain ⟨s, hs⟩ := exists_scope_of_isPackage hpackage
    obtain ⟨s', hs', hdialect⟩ := h.package n hn s hs
    have hchildren := h.children_eq hg hg' hsize hn
    have hsame := hoptions n hn hpackage
    rw [scopeOptions, scopeOptions, scope?, scope?, hs, hs'] at hsame
    rw [children, children, scope?, scope?, hs, hs'] at hchildren
    rw [hs, hs']
    cases s
    cases s'
    simp_all [NodeKind.scope?]

end Graph

namespace Registry

variable {r r' : Registry}

/-! ### What a snapshot may lack -/

/-- The snapshot lacks packages and options that have been added since, and nothing else. -/
def Lags (r : Registry) : Prop :=
  ∀ S, r.snapshot = some S → S.graph.Opened r.graph

theorem Lags.step (h : r.Lags) (hr : r.Standing) (hstep : Step False r r') : r'.Lags := by
  intro S hS
  cases hstep with
  | enter hname hne hadd =>
    exact (h S hS).trans (Graph.opened_of_add hr.current.1 hr.package hadd)
  | options options =>
    exact (h S hS).trans (Graph.opened_mapScope hr.package fun s => ⟨rfl, rfl⟩)
  | thaw => cases hS
  | create definitions hsnapshot htextual =>
    have hnone : r.snapshot = some S := hS
    rw [hsnapshot] at hnone
    cases hnone
  | freeze stamp hsnapshot hlink =>
    cases hS
    exact .refl _
  | _ => exact h S hS

theorem Reached.lags (hr : r.Reached) : r.Lags := by
  obtain ⟨settings, hreaches⟩ := hr
  induction hreaches with
  | refl =>
    intro S hS
    cases hS
  | tail hreaches hstep ih => exact ih.step (Reached.standing ⟨settings, hreaches⟩) hstep

/-! ### What is handed out -/

/-- The snapshot, if there is one, shows the graph at hand. -/
def UpToDate (r : Registry) : Prop :=
  ∀ S, r.snapshot = some S → S.graph = r.graph

/-- What is handed out is what is shown: if the references have been looked up, every node with a
scope is handed out at its path, with the path, the names of the nodes below it and the options that
the graph at hand gives, and nothing is found where that has nothing. -/
def Serves (r : Registry) : Prop :=
  r.isResolved → ∀ path,
    (r.graph.lookup? path = none → r.build path = .error (.notFound path)) ∧
    ∀ n, r.graph.lookup? path = some n → (r.graph.kind n).hasScope →
      ∃ e, r.build path = .ok e ∧ e.handle.fqn = r.graph.fqn n ∧
        (e.handle.graph.children e.handle.node).map e.handle.graph.name =
          (r.graph.children n).map r.graph.name ∧
        e.handle.options = r.graph.scopeOptions n

theorem build_eq_notFound {S : Snapshot} (hS : r.snapshot = some S) {path : String}
    (h : S.graph.lookup? path = none) : r.build path = .error (.notFound path) := by
  simp only [build, hS, h]

/-- Nothing is handed out that is not shown. -/
theorem Reached.build_of_lookup?_eq_none (hr : r.Reached) {S : Snapshot} (hS : r.snapshot = some S)
    {path : String} (h : r.graph.lookup? path = none) : r.build path = .error (.notFound path) := by
  refine build_eq_notFound hS ?_
  cases hn : S.graph.lookup? path with
  | none => rfl
  | some n =>
    have hlater := (hr.lags S hS).toBecomes.lookup? (hr.standing.snapshot S hS) hr.standing.tree hn
    rw [h] at hlater
    cases hlater.1

theorem UpToDate.serves (h : r.UpToDate) : r.Serves := by
  intro hresolved path
  obtain ⟨S, hS⟩ := Option.isSome_iff_exists.mp hresolved
  have hgraph := h S hS
  refine ⟨fun hnone => build_eq_notFound hS (hgraph ▸ hnone), fun n hn hscope => ?_⟩
  rw [← hgraph] at hn hscope ⊢
  obtain ⟨e, he, hhandle⟩ := Entity.exists_ofNode? S hscope
  refine ⟨e, (build_eq_ok hS).mpr ⟨n, hn, he⟩, ?_⟩
  rw [hhandle]
  exact ⟨rfl, rfl, rfl⟩

/-- What is shown under the path of a package is handed out of the same node. -/
theorem Serves.options_eq (h : r.Serves) (hr : r.Reached) {S : Snapshot} (hS : r.snapshot = some S)
    {n : NodeId} (hn : n < r.graph.size) (hpackage : (r.graph.kind n).isPackage) :
    n < S.graph.size ∧ r.graph.scopeOptions n = S.graph.scopeOptions n := by
  have hstanding := hr.standing
  have hfound := hstanding.tree.lookup?_fqn (hstanding.named.findable hstanding.tree hn hpackage)
  have hresolved : r.isResolved := by rw [isResolved, hS]; rfl
  obtain ⟨e, he, -, -, hoptions⟩ := (h hresolved (r.graph.fqn n)).2 n hfound
    (NodeKind.hasScope_of_isPackage hpackage)
  obtain ⟨m, hm, hnode⟩ := (build_eq_ok hS).mp he
  obtain ⟨hlater, hlt⟩ :=
    (hr.lags S hS).toBecomes.lookup? (hstanding.snapshot S hS) hstanding.tree hm
  rw [hfound] at hlater
  cases hlater
  rw [(Entity.handle_of_ofNode? hnode).1] at hoptions
  exact ⟨hlt, hoptions.symm⟩

/-- What is handed out is what is shown only if the snapshot shows the graph at hand. -/
theorem Serves.upToDate (h : r.Serves) (hr : r.Reached) : r.UpToDate := by
  intro S hS
  have hopened := hr.lags S hS
  have hsize : r.graph.size = S.graph.size := by
    rcases Nat.eq_or_lt_of_le hopened.size with heq | hlt
    · exact heq.symm
    · have hpackage := hopened.new S.graph.size (Nat.le_refl _) hlt
      exact absurd (h.options_eq hr hS hlt hpackage).1 (Nat.lt_irrefl _)
  refine (hopened.eq (hr.standing.snapshot S hS) hr.standing.tree hsize
    fun n hn hpackage => ?_).symm
  refine (h.options_eq hr hS (hsize ▸ hn) ?_).2
  rw [hopened.isPackage n hn]
  exact hpackage

/-! ### Packages -/

/-- While a package is being gone into, its parts are there already or are added, and from the first
one that is added on nothing is there yet. -/
def Entering (r s : Registry) : Prop :=
  s.snapshot = r.snapshot ∧ s.current < s.graph.size ∧
    (s.graph = r.graph ∨ s.graph.children s.current = [])

theorem Entering.enters {s t : Registry} {name : String} (hr : r.graph.Tree) (h : Entering r s)
    (ht : s.Enters name t) : Entering r t := by
  obtain ⟨hsnapshot, hlt, hgraph⟩ := h
  cases ht with
  | @there p hchild hpackage =>
    have hmem : p ∈ s.graph.children s.current := List.mem_of_find?_eq_some hchild
    have hsame : s.graph = r.graph := by
      refine hgraph.resolve_right fun hnil => ?_
      rw [hnil] at hmem
      cases hmem
    have htree : s.graph.Tree := hsame ▸ hr
    exact ⟨hsnapshot, (htree.lt_of_mem_children hmem).2, .inl hsame⟩
  | opened hchild hadd =>
    obtain ⟨rfl, hplanted, -⟩ := Graph.grown_of_add hlt hadd
    exact ⟨hsnapshot, hplanted.lt_size, .inr (hplanted.children_new rfl)⟩

/-- A part is refused only if nothing has been added. -/
theorem leads_entering (hr : r.graph.Tree) (package name : String) :
    Leads (Entering r) (enter package name) (fun _ => Entering r)
      fun s => s.snapshot = r.snapshot ∧ s.graph = r.graph := by
  refine Leads.each fun s hs => (leads_enter package name).mono (fun _ t ht => hs.enters hr ht) ?_
  rintro t ⟨rfl, c, hchild⟩
  refine ⟨hs.1, hs.2.2.resolve_right fun hnil => ?_⟩
  have hmem : c ∈ t.graph.children t.current := List.mem_of_find?_eq_some hchild
  rw [hnil] at hmem
  cases hmem

/-- Going into a package leaves the snapshot, and if it is refused, the graph. -/
theorem leads_define (hr : r.Standing) (package : String) (options : Options) :
    Leads (· = r) (define package options) (fun _ s => s.snapshot = r.snapshot)
      fun s => s.snapshot = r.snapshot ∧ s.graph = r.graph := by
  rw [define]
  refine Leads.bind ((Leads.forM fun name _ => leads_entering hr.tree package name).weaken
    fun s hs => ?_) fun _ => Leads.modify fun s hs => hs.1
  rw [hs]
  exact ⟨rfl, hr.current.1, .inl rfl⟩

/-! ### Calls -/

theorem upToDate_of_none (h : r.snapshot = none) : r.UpToDate := by
  intro S hS
  rw [h] at hS
  cases hS

/-- There is no snapshot after definitions have been added, refused or not. -/
theorem leads_create (definitions : List Definition) :
    Leads (fun _ => True) (create definitions) (fun _ s => s.snapshot = none)
      fun s => s.snapshot = none := by
  intro s _
  rw [run_create]
  rcases (ExceptT.run (GraphEdit.createAll s.dialect s.current definitions)).run s.graph with
    ⟨e | a, g⟩
  · rfl
  · rfl

/-- Whatever is done while a file is added, definitions are created in the end, so there is no
snapshot then. If it does not come to that, nothing has been done. -/
theorem leads_addFile (file : FileDecl) :
    Leads (fun r => r.Standing ∧ r.UpToDate) (addFile file) (fun _ => UpToDate) UpToDate := by
  refine leads_addFile_of (B := fun r => r.Standing ∧ r.UpToDate) (M := fun _ => True)
    (fun r hr => ⟨((hr.1.step (.dialect file.dialect)).1.step .reset).1, hr.2⟩)
    (fun package _ => Leads.each fun r hr => ?_) (fun _ _ _ => trivial)
    ((leads_create file.definitions).mono (fun _ _ hs => upToDate_of_none hs)
      fun _ hs => upToDate_of_none hs)
  refine (leads_define hr.1 package file.options).mono (fun _ s hs => trivial) fun s hs S hS => ?_
  rw [hs.1] at hS
  rw [hs.2]
  exact hr.2 S hS

/-- What is reached and shows the graph at hand. -/
def Fresh (r : Registry) : Prop :=
  r.Reached ∧ r.UpToDate

theorem fresh_addFile (file : FileDecl) : Keeps Fresh (addFile file) :=
  ((keeps_reached fun _ => keeps_addFile False.elim).and (leads_addFile file)).weaken
    fun _ hr => ⟨hr.1, hr.1.standing, hr.2⟩

theorem Fresh.note (h : r.Fresh) (name : String) :
    Fresh { r with files := Keyed.insert id name r.files } :=
  ⟨h.1.note name, h.2⟩

theorem upToDate_resolveAll (stamp : Nat) : Keeps UpToDate (resolveAll stamp) := by
  refine Leads.each fun r hr => ?_
  rw [resolveAll]
  refine Leads.bindGet ?_
  split
  · exact Leads.pure fun s hs => hs ▸ hr
  · split
    · exact Leads.throw fun s hs => hs ▸ hr
    · refine Leads.set fun s hs S hS => ?_
      cases hS
      rfl

/-- After any call but that of a package the snapshot shows the graph at hand if it did before. -/
theorem Call.fresh {call : Call} (h : ∀ package options, call ≠ .define package options) :
    Keeps Fresh call.edit := by
  cases call with
  | define package options => exact absurd rfl (h package options)
  | create definitions =>
    have hup := (leads_create definitions).mono (fun _ s hs => upToDate_of_none hs)
      fun s hs => upToDate_of_none hs
    exact (((keeps_reached fun _ => keeps_create False.elim).and hup).weaken
      fun r hr => ⟨hr.1, trivial⟩).adapt
  | importFile file name =>
    exact (keeps_importFile_of (fun _ name hr => hr.note name) (fresh_addFile file) name).adapt
  | load source name =>
    exact keeps_load_of (fun _ name hr => hr.note name) (fun _ file _ => fresh_addFile file) source
      name
  | loadWith available source name =>
    exact keeps_loadWithin_of (fun _ name hr => hr.note name) (fun _ file _ => fresh_addFile file)
      available _ source name
  | reset =>
    exact Leads.modify fun r hr => ⟨(keeps_reached fun _ => Call.keeps .reset).left hr.1, hr.2⟩
  | resolveAll stamp =>
    exact (keeps_reached fun _ => keeps_resolveAll stamp).and (upToDate_resolveAll stamp)

/-- When what a registry hands out is what it shows. Nothing is ever handed out where nothing is
shown. The rest holds exactly if the snapshot shows the graph at hand. Every call keeps that, and so
does every call that is refused, but for one: a package that is gone into while there is a snapshot,
if that changes the graph. -/
theorem Built.serves_current (h : r.Built) :
    (r.isResolved → ∀ path, r.graph.lookup? path = none →
      r.build path = .error (.notFound path)) ∧
    (r.Serves ↔ ∀ S, r.snapshot = some S → S.graph = r.graph) ∧
    ∀ call : Call, r.Serves →
      ((r.after call.edit).Serves ↔ ∀ package options, call = .define package options →
        r.isResolved → (r.after call.edit).graph = r.graph) ∧
      (∀ e, ((ExceptT.run call.edit).run r).1 = .error e → (r.after call.edit).Serves) := by
  have hiff : ∀ {r : Registry}, r.Built → (r.Serves ↔ r.UpToDate) :=
    fun h => ⟨fun hserves => hserves.upToDate h.reached, UpToDate.serves⟩
  refine ⟨fun hresolved path hnone => ?_, hiff h, fun call hserves => ?_⟩
  · obtain ⟨S, hS⟩ := Option.isSome_iff_exists.mp hresolved
    exact h.reached.build_of_lookup?_eq_none hS hnone
  · have hup := (hiff h).mp hserves
    rw [hiff (h.call call)]
    by_cases hdefine : ∃ package options, call = .define package options
    · obtain ⟨package, options, rfl⟩ := hdefine
      have hedit := (leads_define h.reached.standing package options).adapt
        (g := SchemaError.definition)
      have hsame : (r.after (Call.define package options).edit).snapshot = r.snapshot :=
        (hedit.mono (fun _ s hs => hs) fun s hs => hs.1).left rfl
      have hkept : (r.after (Call.define package options).edit).graph = r.graph →
          (r.after (Call.define package options).edit).UpToDate := by
        intro hgraph S hS
        rw [hsame] at hS
        rw [hgraph]
        exact hup S hS
      refine ⟨⟨fun hafter _ _ _ hresolved => ?_, fun hgraph S hS => ?_⟩, fun e he => ?_⟩
      · obtain ⟨S, hS⟩ := Option.isSome_iff_exists.mp hresolved
        rw [← hafter S (hsame.trans hS), hup S hS]
      · refine hkept (hgraph package options rfl ?_) S hS
        rw [isResolved, ← hsame, hS]
        rfl
      · rcases hedit.outcome rfl with ⟨a, hok, -⟩ | ⟨-, -, hgraph⟩
        · have hboth := he.symm.trans hok
          cases hboth
        · exact hkept hgraph.2
    · have hfresh : (r.after call.edit).Fresh :=
        (Call.fresh fun package options heq => hdefine ⟨package, options, heq⟩).left
          ⟨h.reached, hup⟩
      refine ⟨⟨fun _ package options heq => absurd ⟨package, options, heq⟩ hdefine,
        fun _ => hfresh.2⟩, fun _ _ => hfresh.2⟩

/-- The registry without definitions, with a snapshot. -/
def blank : Registry :=
  (empty {}).after (resolveAll 0)

/-- A package that is opened under a snapshot is shown, but not handed out. -/
theorem serves_blank : blank.Serves ∧ ¬(blank.after (Call.define "a" {}).edit).Serves := by
  have hbuilt : blank.Built := .resolveAll (.empty {}) 0
  obtain ⟨-, hiff, hcalls⟩ := hbuilt.serves_current
  have hserves : blank.Serves := by
    refine hiff.mpr fun S hS => ?_
    have hsnapshot : blank.snapshot = some ⟨.empty {}, 0⟩ := by cbv
    rw [hsnapshot] at hS
    cases hS
    cbv
  refine ⟨hserves, fun hafter => ?_⟩
  have hgraph := (hcalls (.define "a" {}) hserves).1.mp hafter "a" {} rfl (by cbv)
  have hsize := congrArg Graph.size hgraph
  have hbefore : blank.graph.size = 1 := by cbv
  have hopened : (blank.after (Call.define "a" {}).edit).graph.size = 2 := by cbv
  rw [hbefore, hopened] at hsize
  cases hsize

/-- After the package has been opened and the references have been looked up again, which does
nothing, the package is shown and not found. -/
theorem build_stale :
    let stale := (blank.after (Call.define "a" {}).edit).after (resolveAll 1)
    stale.isResolved = true ∧ stale.graph.lookup? "a" = some 1 ∧
      (stale.graph.kind 1).hasScope = true ∧ stale.build "a" = .error (.notFound "a") := by
  refine ⟨?_, ?_, ?_, ?_⟩
  · cbv
  · cbv
  · cbv
  · cbv

end Registry

end Protobuf

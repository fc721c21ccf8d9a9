import Mathlib
import Protobuf.Proofs.Registry.Current
import Protobuf.Proofs.Registry.Files

/-!
# The current package after a refusal

A package is gone into part by part, and the current package moves along. If a part is refused,
because something that is no package stands in its place, nothing has been added yet, but the
current package stays where it is by then: definitions that are created next are added there. When a
file is refused it is the same, since only a file that has been added as a whole makes the root the
current package again.

So a refusal goes unnoticed by what is created next exactly if the first part is the one that is
refused.

## Main definitions

* `Graph.innermost`, `Graph.obstacle?` — how far names lead down through packages, and what is in
  the way then.
* `Registry.CreatesLike` — what is created next comes out the same for two registries.

## Main results

* `Registry.run_define_of_obstacle` — what a package that is refused leaves behind
* `Registry.leads_addFile_current` — where a file leaves the current package
* `Registry.createsLike_iff` — definitions come out the same only from the same package
* `Registry.Built.current_refused` — where definitions are added after a refusal
-/

namespace Protobuf

namespace Graph

variable {g : Graph} {p : NodeId}

/-! ### Names of packages -/

/-- The innermost of the packages below `p` that the names lead into one after the other. -/
def innermost (g : Graph) (p : NodeId) : List String → NodeId
  | [] => p
  | name :: more =>
    match g.child? p name with
    | some c => if (g.kind c).isPackage then g.innermost c more else p
    | none => p

/-- What stands in the place of a package on the way down along the names. There is nothing in the
way where nothing of the name is there yet. -/
def obstacle? (g : Graph) (p : NodeId) : List String → Option NodeId
  | [] => none
  | name :: more =>
    match g.child? p name with
    | some c => if (g.kind c).isPackage then g.obstacle? c more else some c
    | none => none

variable {name : String} {more : List String} {c : NodeId}

theorem innermost_cons (hc : g.child? p name = some c) (hpackage : (g.kind c).isPackage) :
    g.innermost p (name :: more) = g.innermost c more := by
  rw [innermost, hc]
  exact if_pos hpackage

theorem obstacle?_cons (hc : g.child? p name = some c) (hpackage : (g.kind c).isPackage) :
    g.obstacle? p (name :: more) = g.obstacle? c more := by
  rw [obstacle?, hc]
  exact if_pos hpackage

theorem obstacle?_cons_of_not (hc : g.child? p name = some c)
    (hpackage : ¬(g.kind c).isPackage) : g.obstacle? p (name :: more) = some c := by
  rw [obstacle?, hc]
  exact if_neg hpackage

theorem obstacle?_cons_of_none (hc : g.child? p name = none) :
    g.obstacle? p (name :: more) = none := by
  rw [obstacle?, hc]

/-- Nothing is in the way below a node that has nothing below it. -/
theorem obstacle?_of_children_eq_nil (h : g.children p = []) (names : List String) :
    g.obstacle? p names = none := by
  cases names with
  | nil => rfl
  | cons name more => exact obstacle?_cons_of_none (by rw [child?, h]; rfl)

/-- The way leads down. -/
theorem Branching.le_innermost (hg : g.Branching) (p : NodeId) (names : List String) :
    p ≤ g.innermost p names := by
  fun_induction innermost g p names with
  | case1 p => exact Nat.le_refl p
  | case2 p name more c hc hpackage ih =>
    have hlt := (hg.lt_of_mem_children (List.mem_of_find?_eq_some hc)).1
    exact Nat.le_of_lt (Nat.lt_of_lt_of_le hlt ih)
  | case3 p name more c hc hpackage => exact Nat.le_refl p
  | case4 p name more hc => exact Nat.le_refl p

theorem Branching.le_of_walk? (hg : g.Branching) {names : List String} {q : NodeId}
    (h : g.walk? p names = some q) : p ≤ q := by
  induction names generalizing p with
  | nil =>
    cases h
    exact Nat.le_refl _
  | cons name more ih =>
    rw [walk?, List.foldlM_cons] at h
    obtain ⟨c, hc, hwalk⟩ := Option.bind_eq_some_iff.mp h
    have hlt := (hg.lt_of_mem_children (List.mem_of_find?_eq_some hc)).1
    exact Nat.le_of_lt (Nat.lt_of_lt_of_le hlt (ih hwalk))

/-- Names lead back to where they start only if there are none. -/
theorem Branching.eq_nil_of_walk? (hg : g.Branching) {names : List String}
    (h : g.walk? p names = some p) : names = [] := by
  cases names with
  | nil => rfl
  | cons name more =>
    rw [walk?, List.foldlM_cons] at h
    obtain ⟨c, hc, hwalk⟩ := Option.bind_eq_some_iff.mp h
    have hlt := (hg.lt_of_mem_children (List.mem_of_find?_eq_some hc)).1
    exact absurd (hg.le_of_walk? hwalk) (Nat.not_le_of_lt hlt)

/-- If something is in the way, nothing has been gone into exactly if it is in the way of the first
name. -/
theorem Branching.innermost_eq_iff (hg : g.Branching) {names : List String}
    (h : g.obstacle? p names = some c) :
    g.innermost p names = p ↔ (g.obstacle? p (names.take 1)).isSome := by
  cases names with
  | nil => cases h
  | cons name more =>
    rw [List.take_succ_cons, List.take_zero]
    cases hchild : g.child? p name with
    | none =>
      rw [obstacle?_cons_of_none hchild] at h
      cases h
    | some d =>
      by_cases hpackage : (g.kind d).isPackage
      · have hlt := (hg.lt_of_mem_children (List.mem_of_find?_eq_some hchild)).1
        rw [innermost_cons hchild hpackage, obstacle?_cons hchild hpackage]
        exact ⟨fun heq => absurd (heq ▸ hg.le_innermost d more) (Nat.not_le_of_lt hlt),
          fun hnone => by cases hnone⟩
      · rw [obstacle?_cons_of_not hchild hpackage, innermost, hchild]
        exact ⟨fun _ => rfl, fun _ => if_neg hpackage⟩

theorem obstacle?_take {names : List String} (h : g.obstacle? p names = none) :
    g.obstacle? p (names.take 1) = none := by
  cases names with
  | nil => rfl
  | cons name more =>
    rw [List.take_succ_cons, List.take_zero]
    cases hchild : g.child? p name with
    | none => exact obstacle?_cons_of_none hchild
    | some d =>
      by_cases hpackage : (g.kind d).isPackage
      · exact obstacle?_cons hchild hpackage
      · rw [obstacle?_cons_of_not hchild hpackage] at h
        cases h

/-- Where names lead to a package, there are packages all the way. -/
theorem innermost_of_walk? (hg : g.Tree) (hnamed : g.PackagesNamed) {names : List String}
    {q : NodeId} (hwalk : g.walk? p names = some q) (hq : (g.kind q).isPackage) :
    (g.kind p).isPackage ∧ g.innermost p names = q := by
  induction names generalizing p with
  | nil =>
    cases hwalk
    exact ⟨hq, rfl⟩
  | cons name more ih =>
    rw [walk?, List.foldlM_cons] at hwalk
    obtain ⟨c, hchild, hwalk⟩ := Option.bind_eq_some_iff.mp hwalk
    obtain ⟨hpackage, hinner⟩ := ih hwalk
    have hparent := ((hg.children p c).mp (List.mem_of_find?_eq_some hchild)).1
    exact ⟨(hnamed c p hpackage hparent).1, (innermost_cons hchild hpackage).trans hinner⟩

end Graph

namespace Registry

variable {r s : Registry}

/-- The names of a dotted package, the outermost first. -/
def packageNames (package : String) : List String :=
  (Path.parts package).filter (· ≠ "")

/-! ### Packages that are refused -/

/-- A part of a package that is there is gone into, and nothing else is done. -/
theorem run_enter_there {package name : String} {c : NodeId}
    (hc : r.graph.child? r.current name = some c) (hpackage : (r.graph.kind c).isPackage) :
    (ExceptT.run (enter package name)).run r = (.ok (), { r with current := c }) := by
  obtain ⟨scope, hscope⟩ := Graph.exists_scope_of_isPackage hpackage
  rw [enter, run_get_bind, hc]
  simp only [hscope]
  rfl

/-- Something else in the place of a part is refused, and nothing is done. -/
theorem run_enter_obstacle {package name : String} {c : NodeId}
    (hc : r.graph.child? r.current name = some c) (hpackage : ¬(r.graph.kind c).isPackage) :
    (ExceptT.run (enter package name)).run r =
      (.error (.notAPackage package (r.graph.fqn c)), r) := by
  rw [enter, run_get_bind, hc]
  cases hkind : r.graph.kind c with
  | package scope =>
    rw [hkind] at hpackage
    exact absurd rfl hpackage
  | _ =>
    simp only [hkind]
    rfl

/-- Names are gone into up to where something is in the way. -/
theorem run_enters_of_obstacle (package : String) {names : List String} {c : NodeId}
    (h : r.graph.obstacle? r.current names = some c) :
    (ExceptT.run (names.forM (enter package))).run r =
      (.error (.notAPackage package (r.graph.fqn c)),
        { r with current := r.graph.innermost r.current names }) := by
  induction names generalizing r with
  | nil => cases h
  | cons name more ih =>
    show (ExceptT.run (enter package name >>= fun _ => more.forM (enter package))).run r = _
    rw [run_bind_eq]
    cases hchild : r.graph.child? r.current name with
    | none =>
      rw [Graph.obstacle?_cons_of_none hchild] at h
      cases h
    | some d =>
      by_cases hpackage : (r.graph.kind d).isPackage
      · rw [Graph.obstacle?_cons hchild hpackage] at h
        rw [run_enter_there hchild hpackage, Graph.innermost_cons hchild hpackage]
        exact ih (r := { r with current := d }) h
      · rw [Graph.obstacle?_cons_of_not hchild hpackage] at h
        cases h
        rw [run_enter_obstacle hchild hpackage, Graph.innermost, hchild]
        simp only [hpackage]
        rfl

/-- If nothing is in the way, all names are gone into: once a part has been added, there is nothing
below it that could be in the way. -/
theorem Entering.run_enters (hr : r.graph.Tree) (hs : Entering r s) (package : String)
    {names : List String} (h : s.graph.obstacle? s.current names = none) :
    ((ExceptT.run (names.forM (enter package))).run s).1 = .ok () := by
  induction names generalizing s with
  | nil => rfl
  | cons name more ih =>
    show ((ExceptT.run (enter package name >>= fun _ => more.forM (enter package))).run s).1 = _
    rw [run_bind_eq]
    cases hchild : s.graph.child? s.current name with
    | none =>
      have henter := leads_enter package name s rfl
      rcases hrun : (ExceptT.run (enter package name)).run s with ⟨e | ⟨⟩, t⟩
      · rw [hrun, hchild] at henter
        obtain ⟨-, c, hc⟩ := henter
        cases hc
      · rw [hrun] at henter
        have hentering := hs.enters hr henter
        cases henter with
        | there hc =>
          rw [hchild] at hc
          cases hc
        | @opened id g _ hadd =>
          obtain ⟨rfl, hplanted, -⟩ := Graph.grown_of_add hs.2.1 hadd
          exact ih hentering (Graph.obstacle?_of_children_eq_nil (hplanted.children_new rfl) more)
    | some d =>
      by_cases hpackage : (s.graph.kind d).isPackage
      · rw [Graph.obstacle?_cons hchild hpackage] at h
        rw [run_enter_there hchild hpackage]
        exact ih (hs.enters hr (.there hchild hpackage)) h
      · rw [Graph.obstacle?_cons_of_not hchild hpackage] at h
        cases h

theorem define_eq (package : String) (options : Options) :
    define package options =
      ((packageNames package).forM (enter package) >>= fun _ => addOptions options) :=
  rfl

/-- A package is refused at the first part in whose place something else stands. By then nothing has
been done, but that the current package is the innermost one that was gone into. -/
theorem run_define_of_obstacle {package : String} (options : Options) {c : NodeId}
    (h : r.graph.obstacle? r.current (packageNames package) = some c) :
    (ExceptT.run (define package options)).run r =
      (.error (.notAPackage package (r.graph.fqn c)),
        { r with current := r.graph.innermost r.current (packageNames package) }) := by
  rw [define_eq, run_bind_eq, run_enters_of_obstacle package h]

/-- Otherwise it is not refused. -/
theorem run_define_of_none (hr : r.Standing) {package : String} (options : Options)
    (h : r.graph.obstacle? r.current (packageNames package) = none) :
    ((ExceptT.run (define package options)).run r).1 = .ok () := by
  have henters := Entering.run_enters hr.tree ⟨rfl, hr.current.1, .inl rfl⟩ package h
  rw [define_eq, run_bind_eq]
  rcases hrun : (ExceptT.run ((packageNames package).forM (enter package))).run r with ⟨e | ⟨⟩, s⟩
  · rw [hrun] at henters
    cases henters
  · rfl

/-! ### Files that are refused -/

/-- The current package is the innermost one on the way from the root to the package of a file that
has been refused in `r`. It is the root only if the file is to be in the root, or if something else
stands in the place of the outermost part of its package. -/
structure StoppedAt (r : Registry) (file : FileDecl) (s : Registry) : Prop where
  current : s.current = s.graph.innermost Graph.root file.packageParts
  root_iff : s.current = Graph.root ↔ file.packageParts = [] ∨
    (r.graph.obstacle? Graph.root (file.packageParts.take 1)).isSome

/-- Where the package of the file is refused. -/
theorem stoppedAt_obstacle (hr : r.graph.Tree) {file : FileDecl} {c : NodeId}
    (h : r.graph.obstacle? Graph.root file.packageParts = some c) (hgraph : s.graph = r.graph)
    (hcurrent : s.current = r.graph.innermost Graph.root file.packageParts) :
    StoppedAt r file s := by
  have hne : file.packageParts ≠ [] := by
    intro hnil
    rw [hnil] at h
    cases h
  refine ⟨hgraph ▸ hcurrent, ?_⟩
  rw [hcurrent, hr.innermost_eq_iff h, or_iff_right hne]

/-- Where the package of the file has been gone into and its definitions are refused. -/
theorem stoppedAt_create {file : FileDecl}
    (h : r.graph.obstacle? Graph.root file.packageParts = none) (hs : s.Standing)
    (hwalk : s.graph.walk? Graph.root file.packageParts = some s.current) :
    StoppedAt r file (s.after (create file.definitions)) := by
  have hthawed := (hs.step .thaw).1
  obtain ⟨hlater, hbecomes⟩ := hthawed.step (.create file.definitions rfl False.elim)
  have hafter : s.after (create file.definitions) =
      { s with snapshot := none }.withDefinitions file.definitions := by
    rw [after, run_create]
  have hwalk' := (hbecomes.walk? hs.tree hlater.tree hs.tree.root.1 hwalk).1
  have hinner := (Graph.innermost_of_walk? hlater.tree hlater.named hwalk' hlater.package).2
  rw [hafter]
  refine ⟨hinner.symm, ?_⟩
  rw [Graph.obstacle?_take h]
  have hiff : s.current = Graph.root ↔ file.packageParts = [] := by
    constructor
    · intro hroot
      rw [hroot] at hwalk
      exact hs.tree.eq_nil_of_walk? hwalk
    · intro hnil
      rw [hnil] at hwalk
      exact (Option.some.inj hwalk).symm
  exact hiff.trans (by simp)

/-- Where the definitions of a file are refused, its package has been gone into. -/
theorem leads_create_stopped {start : Registry} {file : FileDecl}
    (h : r.graph.obstacle? Graph.root file.packageParts = none)
    (hs : Walked start file.packageParts s) :
    Leads (· = s) (create file.definitions) (fun _ _ => True) (StoppedAt r file) := by
  rintro s' rfl
  have hstopped := stoppedAt_create h hs.reached.standing hs.walk
  rw [after] at hstopped
  rcases hrun : (ExceptT.run (create file.definitions)).run s' with ⟨e | a, t⟩
  · rw [hrun] at hstopped
    exact hstopped
  · trivial

/-- The package of a file is gone into, unless something is in its way. -/
theorem leads_define_current (hr : r.Reached) {file : FileDecl} {package : String}
    (hpackage : file.package = some package) {start : Registry}
    (hstart : start = { r with dialect := file.dialect, current := Graph.root }) :
    Leads (· = start) (define package file.options)
      (fun _ s => r.graph.obstacle? Graph.root file.packageParts = none ∧
        Walked start file.packageParts s) (StoppedAt r file) := by
  have hparts : file.packageParts = packageNames package :=
    FileDecl.packageParts_of_some hpackage
  have hwalked : Walked start [] start := by
    rw [hstart]
    exact ⟨hr.begin file.dialect, rfl, rfl, rfl⟩
  have hgraph : start.graph = r.graph := by rw [hstart]
  have hcurrent : start.current = Graph.root := by rw [hstart]
  rintro s rfl
  cases hobstacle : s.graph.obstacle? s.current (packageNames package) with
  | some c =>
    rw [run_define_of_obstacle file.options hobstacle]
    rw [hgraph, hcurrent, ← hparts] at hobstacle
    refine stoppedAt_obstacle hr.standing.tree hobstacle hgraph ?_
    rw [hparts, hgraph, hcurrent]
  | none =>
    have hrun := run_define_of_none hwalked.reached.standing file.options hobstacle
    have hleads := leads_define_walked (r := s) package file.options s hwalked
    rw [hgraph, hcurrent, ← hparts] at hobstacle
    rcases hrun' : (ExceptT.run (define package file.options)).run s with ⟨e | a, t⟩
    · rw [hrun'] at hrun
      cases hrun
    · rw [hrun'] at hleads
      exact ⟨hobstacle, hparts ▸ hleads⟩

/-- A file that is not refused makes the root the current package. -/
theorem leads_addFile_current (hr : r.Reached) (file : FileDecl) :
    Leads (· = r) (addFile file) (fun _ s => s.current = Graph.root) (StoppedAt r file) := by
  let start : Registry := { r with dialect := file.dialect, current := Graph.root }
  have hstart : Walked start [] start := ⟨hr.begin file.dialect, rfl, rfl, rfl⟩
  refine leads_addFile_of (B := (· = start))
    (M := fun s => r.graph.obstacle? Graph.root file.packageParts = none ∧
      Walked start file.packageParts s)
    (fun s hs => by rw [hs]) (fun package hpackage => leads_define_current hr hpackage rfl)
    (fun hpackage s hs => ?_) (Leads.each fun s hs => ?_)
  · rw [FileDecl.packageParts_of_none hpackage, hs]
    exact ⟨rfl, hstart.withOptions file.options⟩
  · exact (leads_create_stopped hs.1 hs.2).mono (fun _ _ _ => rfl) fun _ ht => ht

theorem leads_importFile_current (hr : r.Reached) (file : FileDecl) (name : Option String) :
    Leads (· = r) (importFile file name)
      (fun _ s => (∃ n, name = some n ∧ n ∈ r.files) ∨ s.current = Graph.root)
      (StoppedAt r file) := by
  refine leads_importFile_of (fun _ => ?_) (fun n hn s hs hmem => ?_) fun n _ s hs _ => ?_
  · exact (leads_addFile_current hr file).mono (fun _ s hs => .inr hs) fun s hs => hs
  · rw [hs] at hmem
    exact .inl ⟨n, hn, hmem⟩
  · rw [hs]
    exact (leads_addFile_current (hr.note n) file).mono (fun _ s hs => .inr hs)
      fun s hs => ⟨hs.current, hs.root_iff⟩

/-- While files are loaded that import each other, nothing but their names has been added, or the
root is the current package. -/
def Settled (r s : Registry) : Prop :=
  s.Reached ∧ (s = { r with files := s.files } ∨ s.current = Graph.root)

/-- Where a file is refused, it is the one whose text was given or an available one. -/
def LoadRefused (available : List (String × String)) (source : String) (s : Registry) : Prop :=
  ∃ text file, (text = source ∨ ∃ path, available.lookup path = some text) ∧
    Schema.parse text = .ok file ∧ s.current = s.graph.innermost Graph.root file.packageParts

theorem leads_loadWithin_current (available : List (String × String)) (fuel : Nat)
    (source name : String) :
    Leads (Settled r) (loadWithin available fuel source name) (fun _ => Settled r)
      fun s => Settled r s ∨ LoadRefused available source s := by
  induction fuel generalizing source name with
  | zero =>
    rw [loadWithin]
    exact Leads.throw fun s hs => .inl hs
  | succ fuel ih =>
    refine leads_loadWithin_succ (M := Settled r) (fun s hs _ => hs) (fun s hs => .inl hs)
      (fun _ _ s hs _ => ⟨hs.1.note name, hs.2.imp_left fun heq => ?_⟩) (fun s hs => .inl hs)
      (fun _ _ path _ text htext => ?_) fun file hparse => Leads.each fun s hs => ?_
    · rw [heq]
    · refine ((ih text path).mono (fun _ s hs => hs) fun s hs => hs.imp_right ?_).weaken
        fun s hs => hs.1
      rintro ⟨other, imported, hother, hread⟩
      refine ⟨other, imported, .inr (hother.elim (fun heq => ⟨path, heq ▸ htext⟩) id), hread⟩
    · refine (((hs.1.leads fun _ => keeps_addFile False.elim).and
        (leads_addFile_current hs.1 file)).mono (fun _ t ht => ?_) fun t ht => ?_).weaken
          fun t ht => ⟨ht, ht⟩
      · exact ⟨ht.1, .inr ht.2⟩
      · exact .inr ⟨source, file, .inl rfl, hparse, ht.2.current⟩

/-! ### What is created next -/

/-- Whatever is created next, it comes out the same for both registries. -/
def CreatesLike (r s : Registry) : Prop :=
  ∀ definitions, ((ExceptT.run (create definitions)).run r).1 =
      ((ExceptT.run (create definitions)).run s).1 ∧
    (r.after (create definitions)).graph = (s.after (create definitions)).graph

/-- A service without methods, of a name that is not there yet, is added below the current
package. -/
theorem parent?_after_service (hcurrent : r.graph.Scoped r.current) {name : String}
    (hfresh : r.graph.child? r.current name = none) :
    (r.after (create [.service ⟨name, [], {}, 0⟩])).graph.parent? r.graph.size =
      some r.current := by
  have hadds : Leads (· = r.graph)
      (GraphEdit.createAll r.dialect r.current [.service ⟨name, [], {}, 0⟩])
      (fun _ g => g.parent? r.graph.size = some r.current) fun _ => False := by
    refine Leads.bind (Leads.bind (GraphEdit.leads_add (Q := fun _ g =>
      g.parent? r.graph.size = some r.current) (fun g hg id g' hadd => ?_) fun g hg e herr => ?_)
        fun _ => Leads.pure fun g hg => hg) fun _ => Leads.pure fun g hg => hg
    · rw [hg] at hadd
      obtain ⟨-, hplanted⟩ := Graph.planted_of_add hcurrent.1 hadd
      rw [hplanted.parents, if_pos rfl]
    · have hok := Graph.add_eq_ok.mpr ⟨hfresh, fun f
        (hf : NodeKind.service { options := {}, dialect := r.dialect } = .field f) => (by cases hf),
          rfl, rfl⟩
      rw [hg, hok] at herr
      cases herr
  rw [after, run_create]
  rcases hadds.outcome rfl with ⟨a, -, hparent⟩ | ⟨e, -, hfalse⟩
  · exact hparent
  · exact hfalse.elim

/-- There is a name that no node has. -/
theorem exists_fresh {g : Graph} (hg : g.Branching) : ∃ name, ∀ p, g.child? p name = none := by
  have hinfinite : Infinite String :=
    Infinite.of_injective String.ofList fun a b h => String.ofList_inj.mp h
  obtain ⟨name, hname⟩ := Infinite.exists_notMem_finset
    ((Finset.range g.size).image g.name)
  refine ⟨name, fun p => List.find?_eq_none.mpr fun c hc heq => hname ?_⟩
  have hlt := (hg.lt_of_mem_children hc).2
  exact Finset.mem_image.mpr ⟨c, Finset.mem_range.mpr hlt, of_decide_eq_true heq⟩

/-- Definitions come out the same only if they are added below the same package. -/
theorem createsLike_iff (hr : r.graph.Tree) {p q : NodeId} (hp : r.graph.Scoped p)
    (hq : r.graph.Scoped q) :
    CreatesLike { r with current := p } { r with current := q } ↔ p = q := by
  constructor
  · intro h
    obtain ⟨name, hfresh⟩ := exists_fresh hr.toBranching
    have hgraph := (h [.service ⟨name, [], {}, 0⟩]).2
    have hparent := parent?_after_service (r := { r with current := p }) hp (hfresh p)
    rw [hgraph, parent?_after_service (r := { r with current := q }) hq (hfresh q)] at hparent
    exact (Option.some.inj hparent).symm
  · rintro rfl definitions
    exact ⟨rfl, rfl⟩

/-! ### Calls that are refused -/

theorem run_asSchemaEdit {α : Type} (edit : RegistryEdit DefinitionError α) (r : Registry) :
    (ExceptT.run (asSchemaEdit edit)).run r =
      (((ExceptT.run edit).run r).1.mapError .definition, ((ExceptT.run edit).run r).2) :=
  rfl

/-- A package is refused exactly if something is in the way. -/
theorem define_eq_error_iff (hr : r.Standing) {package : String} {options : Options}
    {e : SchemaError} :
    ((ExceptT.run (Call.define package options).edit).run r).1 = .error e ↔
      ∃ c, r.graph.obstacle? r.current (packageNames package) = some c ∧
        e = .definition (.notAPackage package (r.graph.fqn c)) := by
  rw [Call.edit, run_asSchemaEdit]
  cases hobstacle : r.graph.obstacle? r.current (packageNames package) with
  | none =>
    rw [run_define_of_none hr options hobstacle]
    constructor
    · intro h
      cases h
    · rintro ⟨c, hc, -⟩
      cases hc
  | some c =>
    rw [run_define_of_obstacle options hobstacle]
    constructor
    · intro h
      cases h
      exact ⟨c, rfl, rfl⟩
    · rintro ⟨d, hd, he⟩
      cases hd
      rw [he]
      rfl

theorem after_define_of_obstacle {package : String} (options : Options) {c : NodeId}
    (h : r.graph.obstacle? r.current (packageNames package) = some c) :
    r.after (Call.define package options).edit =
      { r with current := r.graph.innermost r.current (packageNames package) } := by
  rw [after, Call.edit, run_asSchemaEdit, run_define_of_obstacle options h]

/-- The call is given the file, and follows no imports. -/
def Call.Takes (call : Call) (file : FileDecl) : Prop :=
  (∃ name, call = .importFile file name) ∨
    ∃ source name, call = .load source name ∧ Schema.parse source = .ok file

theorem Call.leads_current (hr : r.Reached) {call : Call} {file : FileDecl}
    (h : call.Takes file) :
    Leads (· = r) call.edit
      (fun _ s => (∃ n, call.name? = some n ∧ n ∈ r.files) ∨ s.current = Graph.root)
      (StoppedAt r file) := by
  rcases h with ⟨name, rfl⟩ | ⟨source, name, rfl, hparse⟩
  · exact (leads_importFile_current hr file name).adapt
  · show Leads _ (Registry.load source name) _ _
    rw [Registry.load, hparse]
    exact (leads_importFile_current hr file name).adapt

/-- Where definitions are added after a call has been refused. A package that is refused leaves the
registry as it was but for the current package, which is the innermost one on the way to what is in
the way; what is created next comes out as if there had been no call exactly if that is in the place
of the first part. A file that is refused leaves the current package on the way from the root to the
package of the file, while one that is added makes it the root. If the text of a file cannot be read
nothing is done. Where imports are followed, the current package is left on the way to that of the
file that was refused, if it is not the root or, as long as no file has been added, what it was
before. -/
theorem Built.current_refused (h : r.Built) :
    (∀ package options,
      (∀ e, ((ExceptT.run (Call.define package options).edit).run r).1 = .error e ↔
        ∃ c, r.graph.obstacle? r.current (packageNames package) = some c ∧
          e = .definition (.notAPackage package (r.graph.fqn c))) ∧
      ((∃ e, ((ExceptT.run (Call.define package options).edit).run r).1 = .error e) →
        let s := r.after (Call.define package options).edit
        s = { r with current := r.graph.innermost r.current (packageNames package) } ∧
          (s.CreatesLike r ↔ s = r) ∧
          (s = r ↔ (r.graph.obstacle? r.current ((packageNames package).take 1)).isSome))) ∧
    (∀ call : Call, let s := r.after call.edit
      s.CreatesLike { s with current := Graph.root } ↔ s.current = Graph.root) ∧
    (∀ (call : Call) (file : FileDecl), call.Takes file →
      (∀ e, ((ExceptT.run call.edit).run r).1 = .error e → StoppedAt r file (r.after call.edit)) ∧
      (((ExceptT.run call.edit).run r).1 = .ok () →
        (∃ name, call.name? = some name ∧ name ∈ r.files) ∨
          (r.after call.edit).current = Graph.root)) ∧
    (∀ source name e, Schema.parse source = .error e →
      r.after (Call.load source name).edit = r) ∧
    ∀ available source name, let call : Call := .loadWith available source name
      let s := r.after call.edit
      s = { r with files := s.files } ∨ s.current = Graph.root ∨
        (∃ e, ((ExceptT.run call.edit).run r).1 = .error e) ∧
          LoadRefused available source s := by
  have hr := h.reached.standing
  refine ⟨fun package options => ⟨fun e => define_eq_error_iff hr, ?_⟩, fun call => ?_,
    fun call file htakes => ?_, fun source name e hparse => ?_, fun available source name => ?_⟩
  · rintro ⟨e, he⟩
    obtain ⟨c, hobstacle, -⟩ := (define_eq_error_iff hr).mp he
    have hafter := after_define_of_obstacle options hobstacle
    have hcurrent := (h.call (.define package options)).reached.standing.current
    rw [hafter] at hcurrent
    intro s
    have hs : s = { r with current := r.graph.innermost r.current (packageNames package) } := hafter
    have hiff : s = r ↔ r.graph.innermost r.current (packageNames package) = r.current := by
      rw [hs]
      exact ⟨fun heq => congrArg current heq, fun heq => by rw [heq]⟩
    refine ⟨hs, ?_, hiff.trans (hr.tree.innermost_eq_iff hobstacle)⟩
    rw [hiff, hs]
    exact createsLike_iff hr.tree hcurrent hr.current
  · have hs := (h.call call).reached.standing
    exact createsLike_iff (r := r.after call.edit) hs.tree hs.current hs.tree.root
  · rcases (Call.leads_current h.reached htakes).outcome rfl with ⟨a, hok, hs⟩ | ⟨e, he, hs⟩
    · exact ⟨fun e he => (by rw [hok] at he; cases he), fun _ => hs⟩
    · exact ⟨fun _ _ => hs, fun hok => by rw [he] at hok; cases hok⟩
  · rw [Call.edit, after, Registry.load, hparse]
    rfl
  · have hsettled : Settled r r := ⟨h.reached, .inl rfl⟩
    rcases (leads_loadWithin_current available _ source name).outcome hsettled with
      ⟨a, -, hs⟩ | ⟨e, he, hs | hs⟩
    · exact hs.2.imp_right .inl
    · exact hs.2.imp_right .inl
    · exact .inr (.inr ⟨⟨e, he⟩, hs⟩)

/-- The registry of a package that has a message. -/
def packaged : Registry :=
  (empty {}).after (Call.load "package a; message M {}" none).edit

theorem packaged_built : packaged.Built :=
  (Built.empty {}).call (.load "package a; message M {}" none)

/-- The message is in the way of a package of its name, and what is created next comes out in
another way than without that. -/
theorem current_refused_nested :
    (∃ e, ((ExceptT.run (Call.define "a.M" {}).edit).run packaged).1 = .error e) ∧
      (packaged.after (Call.define "a.M" {}).edit).current = 1 ∧
      ¬(packaged.after (Call.define "a.M" {}).edit).CreatesLike packaged := by
  obtain ⟨hrefused, hafter⟩ := packaged_built.current_refused.1 "a.M" {}
  have hobstacle : packaged.graph.obstacle? packaged.current (packageNames "a.M") = some 2 := by
    cbv
  have he := (hrefused _).mpr ⟨2, hobstacle, rfl⟩
  obtain ⟨hs, hcreates, hsame⟩ := hafter ⟨_, he⟩
  have hinnermost : packaged.graph.innermost packaged.current (packageNames "a.M") = 1 := by
    cbv
  have hfirst : (packaged.graph.obstacle? packaged.current
      ((packageNames "a.M").take 1)).isSome = false := by
    cbv
  have hcurrent : ∀ {r s : Registry} {q : NodeId}, s = { r with current := q } →
      s.current = q := by
    rintro r s q rfl
    rfl
  refine ⟨⟨_, he⟩, (hcurrent hs).trans hinnermost, fun h => ?_⟩
  have htrue := hsame.mp (hcreates.mp h)
  rw [hfirst] at htrue
  cases htrue

/-- A message without anything in it. -/
def bare (name : String) : Definition :=
  .message { name }

/-- A file of the package `a` with a message that has two fields of one number. -/
def doubled : Call :=
  .load "package a; message M \x7b optional int32 f = 1; optional int32 g = 1; \x7d" none

/-- After the package `a.M` has been refused, a message is added to `a`, and not to the root as it
is without that. So it is after the definitions of a file of the package `a` have been refused. -/
theorem create_misplaced :
    ((ExceptT.run (Call.define "a.M" {}).edit).run packaged).1.isOk = false ∧
      (packaged.after (Call.create [bare "N"]).edit).graph.fqn 3 = ".N" ∧
      ((packaged.after (Call.define "a.M" {}).edit).after
        (Call.create [bare "N"]).edit).graph.fqn 3 = ".a.N" ∧
      ((ExceptT.run doubled.edit).run (empty {})).1.isOk = false ∧
      (((empty {}).after doubled.edit).after (Call.create [bare "N"]).edit).graph.fqn 4 =
        ".a.N" := by
  refine ⟨?_, ?_, ?_, ?_, ?_⟩
  · cbv
  · cbv
  · cbv
  · cbv
  · cbv

end Registry

end Protobuf

import Mathlib.Data.List.Basic
import Protobuf.Text.CamelCase
import Protobuf.Text.Path

/-!
# Names without dots

A name that has no dots can be told from its neighbours in a path. Joining words to camel case and
turning to lower case bring no dots into a name, because no character but the dot itself has a dot
for its other form.

## Main definitions

* `Path.Plain` — the name has no dots.
* `Path.dotted` — the path of a list of names, with a dot before each.

## Main results

* `Path.plain_camelCase` — joining words brings no dots into a name
* `Path.parts_unanchored_dotted`, `Path.parts_join` — a path of plain names has these names for its
  parts
* `Path.dotted_parts` — a path is made up of its parts
-/

namespace Protobuf

namespace Path

/-- The name has no dots. -/
def Plain (name : String) : Prop :=
  '.' ∉ name.toList

theorem plain_iff {name : String} : Plain name ↔ name.contains '.' = false := by
  rw [Plain, String.contains_char_eq, decide_eq_false_iff_not]

theorem plain_empty : Plain "" := by
  simp [Plain]

/-! ### Lower case -/

theorem toLower_eq_dot {c : Char} (h : c.toLower = '.') : c = '.' := by
  unfold Char.toLower at h
  split at h
  · rename_i hupper
    -- The lower-case letters stand far behind the dot.
    have hlo : 65 ≤ c.toNat := hupper.1
    have hhi : c.toNat ≤ 90 := hupper.2
    have hval := congrArg (fun d : Char => d.val.toNat) h
    simp [UInt32.toNat_add] at hval
    omega
  · exact h

theorem plain_toLower {name : String} (h : Plain name) : Plain name.toLower := by
  show '.' ∉ (name.map Char.toLower).toList
  rw [String.toList_map, List.mem_map]
  rintro ⟨c, hc, hdot⟩
  exact h (toLower_eq_dot hdot ▸ hc)

/-! ### Camel case -/

theorem toUpper_eq_dot {c : Char} (h : c.toUpper = '.') : c = '.' := by
  unfold Char.toUpper at h
  split at h
  · rename_i hlower
    have hlo : 97 ≤ c.toNat := hlower.1
    have hhi : c.toNat ≤ 122 := hlower.2
    have hval := congrArg (fun d : Char => d.val.toNat) h
    simp [UInt32.toNat_add] at hval
    omega
  · exact h

theorem ofNat_eq_dot {code : Nat} (h : Char.ofNat code = '.') : code = 46 := by
  unfold Char.ofNat at h
  by_cases hvalid : code.isValidChar
  · rw [dif_pos hvalid] at h
    exact congrArg Char.toNat h
  · rw [dif_neg hvalid] at h
    cases h

/-- Every form of several characters is of letters and marks. -/
theorem notMem_of_expandedUpper :
    ∀ form ∈ Text.expandedUpper, 46 ∉ form.2 := by
  decide +kernel

/-- Every run of letters lands behind the dot. -/
theorem lt_of_caseRuns : ∀ r ∈ Text.caseRuns, (46 : Int) < r.lo + r.offset := by
  decide +kernel

theorem mem_upperCase {c : Char} (h : '.' ∈ Text.upperCase c) : c = '.' := by
  rw [Text.upperCase] at h
  split at h
  · exact toUpper_eq_dot (List.mem_singleton.mp h).symm
  · split at h
    · rename_i form hform
      obtain ⟨code, hcode, hdot⟩ := List.mem_map.mp h
      have hmem : (c.toNat, form) ∈ Text.expandedUpper := by
        obtain ⟨before, after, heq, -⟩ := List.lookup_eq_some_iff.mp hform
        simp [heq]
      exact absurd (ofNat_eq_dot hdot ▸ hcode) (notMem_of_expandedUpper _ hmem)
    · rename_i r _ hr
      have hdot := ofNat_eq_dot (List.mem_singleton.mp h).symm
      have hbehind := lt_of_caseRuns r (List.mem_of_find?_eq_some hr)
      have hin := List.find?_some hr
      simp only [Text.CaseRun.contains, Bool.and_eq_true, decide_eq_true_eq] at hin
      omega
    · exact (List.mem_singleton.mp h).symm

theorem mem_joinWords {begun raise : Bool} {cs : List Char}
    (h : '.' ∈ Text.joinWords begun raise cs) : '.' ∈ cs := by
  induction cs generalizing begun raise with
  | nil => exact h
  | cons c more ih =>
    rw [Text.joinWords] at h
    split at h
    · exact List.mem_cons_of_mem _ (ih h)
    · rcases List.mem_append.mp h with h | h
      · split at h
        · exact List.mem_cons.mpr (.inl (mem_upperCase h).symm)
        · exact List.mem_cons.mpr (.inl (List.mem_singleton.mp h))
      · exact List.mem_cons_of_mem _ (ih h)

theorem plain_camelCase {name : String} (h : Plain name) : Plain (Text.camelCase name) := by
  intro hdot
  rw [Text.camelCase, String.toList_ofList] at hdot
  exact h (mem_joinWords hdot)

/-! ### Names with characters -/

/-- The name has characters, but no dots. -/
structure Proper (name : String) : Prop where
  plain : Plain name
  ne_empty : name ≠ ""

theorem toList_ne_nil {name : String} (h : name ≠ "") : name.toList ≠ [] :=
  fun hnil => h (String.toList_inj.mp hnil)

theorem Proper.toLower {name : String} (h : Proper name) : Proper name.toLower := by
  refine ⟨plain_toLower h.plain, fun hempty => toList_ne_nil h.ne_empty ?_⟩
  have hlist : (name.map Char.toLower).toList = [] := congrArg String.toList hempty
  rwa [String.toList_map, List.map_eq_nil_iff] at hlist

/-- The first character stays. -/
theorem Proper.camelCase {name : String} (h : Proper name) : Proper (Text.camelCase name) := by
  refine ⟨plain_camelCase h.plain, fun hempty => ?_⟩
  cases hlist : name.toList with
  | nil => exact toList_ne_nil h.ne_empty hlist
  | cons c more =>
    have hjoined := congrArg String.toList hempty
    rw [Text.camelCase, hlist, String.toList_ofList, Text.joinWords, Bool.and_false,
      if_neg Bool.false_ne_true, if_neg Bool.false_ne_true] at hjoined
    cases hjoined

/-! ### Parts -/

theorem notMem_of_mem_stretches {sep : Char} {cs : List Char} :
    ∀ s ∈ stretches sep cs, sep ∉ s := by
  induction cs with
  | nil => simp [stretches]
  | cons c more ih =>
    rw [stretches]
    split
    · intro s hs
      rcases List.mem_cons.mp hs with rfl | hs
      · simp
      · exact ih s hs
    · rename_i hne
      split
      · simp [Ne.symm hne]
      · rename_i first others heq
        rw [heq] at ih
        intro s hs
        rcases List.mem_cons.mp hs with rfl | hs
        · have hfirst := ih first List.mem_cons_self
          simp [hfirst, Ne.symm hne]
        · exact ih s (List.mem_cons_of_mem _ hs)

/-- The parts of a path have no dots. -/
theorem plain_of_mem_parts {path name : String} (h : name ∈ parts path) : Plain name := by
  obtain ⟨s, hs, rfl⟩ := List.mem_map.mp h
  rw [Plain, String.toList_ofList]
  exact notMem_of_mem_stretches s hs

theorem stretches_of_notMem {sep : Char} {cs : List Char} (h : sep ∉ cs) :
    stretches sep cs = [cs] := by
  induction cs with
  | nil => rfl
  | cons c more ih =>
    rw [List.mem_cons, not_or] at h
    rw [stretches, if_neg (Ne.symm h.1), ih h.2]

theorem stretches_append {sep : Char} {cs rest : List Char} (h : sep ∉ cs) :
    stretches sep (cs ++ sep :: rest) = cs :: stretches sep rest := by
  induction cs with
  | nil => rw [List.nil_append, stretches, if_pos rfl]
  | cons c more ih =>
    rw [List.mem_cons, not_or] at h
    rw [List.cons_append, stretches, if_neg (Ne.symm h.1), ih h.2]

/-- The path of a list of names, with a dot before each of them. -/
def dotted (names : List String) : String :=
  String.join (names.map ("." ++ ·))

theorem toList_dotted (names : List String) :
    (dotted names).toList = names.flatMap fun name => '.' :: name.toList := by
  rw [dotted, String.toList_join, List.flatMap_map]
  refine congrArg (names.flatMap ·) (funext fun name => ?_)
  rw [String.toList_append]
  rfl

/-- A path with a dot before each name begins with a dot. -/
theorem anchored?_dotted (name : String) (more : List String) :
    anchored? (dotted (name :: more)) = some (String.ofList
      (name.toList ++ more.flatMap fun name => '.' :: name.toList)) := by
  rw [anchored?, toList_dotted]
  rfl

theorem anchored?_eq_some {path rest : String} : anchored? path = some rest ↔ path = "." ++ rest := by
  constructor
  · intro h
    rw [anchored?] at h
    split at h
    · rename_i cs hcs
      cases h
      apply String.toList_inj.mp
      rw [hcs, String.toList_append, String.toList_ofList]
      simp
    · cases h
  · rintro rfl
    rw [anchored?, String.toList_append]
    show some (String.ofList rest.toList) = _
    rw [String.ofList_toList]

theorem unanchored_eq_self {path : String} (h : anchored? path = none) :
    unanchored path = path := by
  rw [unanchored, h]
  rfl

theorem anchored?_append (path : String) : anchored? ("." ++ path) = some path :=
  anchored?_eq_some.mpr rfl

theorem unanchored_append (path : String) : unanchored ("." ++ path) = path := by
  rw [unanchored, anchored?_append]
  rfl

theorem toList_join (name : String) (more : List String) : (join (name :: more)).toList =
    name.toList ++ more.flatMap fun name => '.' :: name.toList := by
  rw [join, String.toList_intercalate, List.map_cons]
  induction more generalizing name with
  | nil => simp [List.intercalate]
  | cons next more ih =>
    rw [List.map_cons, List.intercalate_cons_cons, ih, List.flatMap_cons]
    simp

/-- A path of names and the path with a dot before each of them differ by the leading dot. -/
theorem dotted_eq_append_join {names : List String} (hne : names ≠ []) :
    dotted names = "." ++ join names := by
  cases names with
  | nil => exact absurd rfl hne
  | cons name more =>
    apply String.toList_inj.mp
    rw [String.toList_append, toList_join, toList_dotted]
    rfl

theorem stretches_intercalate {sep : Char} {names : List (List Char)} (hne : names ≠ [])
    (h : ∀ name ∈ names, sep ∉ name) : stretches sep ([sep].intercalate names) = names := by
  induction names with
  | nil => exact absurd rfl hne
  | cons name more ih =>
    obtain ⟨hname, hmore⟩ := List.forall_mem_cons.mp h
    cases more with
    | nil => rw [List.intercalate_singleton, stretches_of_notMem hname]
    | cons next others =>
      rw [List.intercalate_cons_cons, List.append_assoc, List.singleton_append,
        stretches_append hname, ih (List.cons_ne_nil _ _) hmore]

/-- Plain names are the parts of their path. -/
theorem parts_join {names : List String} (hne : names ≠ []) (h : ∀ name ∈ names, Plain name) :
    parts (join names) = names := by
  have hstretches : stretches '.' (join names).toList = names.map String.toList := by
    rw [join, String.toList_intercalate]
    exact stretches_intercalate (by simpa using hne) (by simpa [Plain] using h)
  rw [parts, hstretches, List.map_map]
  exact (List.map_congr_left fun n _ => String.ofList_toList).trans (List.map_id _)

/-- A path of plain names has these names for its parts. -/
theorem parts_unanchored_dotted {names : List String} (hne : names ≠ [])
    (h : ∀ name ∈ names, Plain name) : parts (unanchored (dotted names)) = names := by
  rw [dotted_eq_append_join hne, unanchored_append]
  exact parts_join hne h

/-- With a separator before each of them, the stretches make up the text again. -/
theorem flatMap_stretches (sep : Char) (cs : List Char) :
    (stretches sep cs).flatMap (sep :: ·) = sep :: cs := by
  induction cs with
  | nil => rfl
  | cons c more ih =>
    rw [stretches]
    split
    · rename_i hsep
      rw [List.flatMap_cons, ih, hsep]
      rfl
    · split
      · rename_i hnil
        rw [hnil] at ih
        cases ih
      · rename_i first others heq
        rw [heq, List.flatMap_cons] at ih
        exact congrArg (sep :: c :: ·) (List.cons.inj ih).2

/-- With a dot before each of them, the parts of a path make up the path again. -/
theorem dotted_parts (path : String) : dotted (parts path) = "." ++ path := by
  apply String.toList_inj.mp
  rw [toList_dotted, parts, List.flatMap_map, String.toList_append]
  simp only [String.toList_ofList]
  exact flatMap_stretches '.' path.toList

theorem parts_ne_nil (path : String) : parts path ≠ [] := by
  intro hnil
  have hdot := congrArg String.toList (dotted_parts path)
  rw [hnil, String.toList_append] at hdot
  cases hdot

/-- A path whose parts have characters has no leading dot. -/
theorem anchored?_eq_none {path : String} (h : ∀ part ∈ parts path, part ≠ "") :
    anchored? path = none := by
  rw [Option.eq_none_iff_forall_ne_some]
  intro rest hrest
  refine h "" ?_ rfl
  rw [anchored?_eq_some.mp hrest, parts, String.toList_append]
  exact List.mem_cons_self

/-- A path of names with characters has one leading dot only. -/
theorem unanchored_unanchored_dotted {names : List String} (h : ∀ name ∈ names, Proper name) :
    unanchored (unanchored (dotted names)) = unanchored (dotted names) := by
  by_cases hne : names = []
  · rw [hne]
    rfl
  · have hparts := parts_join hne fun name hname => (h name hname).plain
    rw [dotted_eq_append_join hne, unanchored_append]
    refine unanchored_eq_self (anchored?_eq_none ?_)
    rw [hparts]
    exact fun name hname => (h name hname).ne_empty

theorem dotted_append (names more : List String) :
    dotted (names ++ more) = dotted names ++ dotted more := by
  apply String.toList_inj.mp
  rw [String.toList_append, toList_dotted, toList_dotted, toList_dotted, List.flatMap_append]

/-- The parts of a path that goes on behind a dot. -/
theorem parts_append (path more : String) : parts (path ++ "." ++ more) = parts path ++ parts more := by
  have hne : parts path ++ parts more ≠ [] := List.append_ne_nil_of_left_ne_nil (parts_ne_nil path) _
  have hplain : ∀ name ∈ parts path ++ parts more, Plain name :=
    List.forall_mem_append.mpr ⟨fun _ => plain_of_mem_parts, fun _ => plain_of_mem_parts⟩
  have hparts := parts_unanchored_dotted hne hplain
  rwa [dotted_append, dotted_parts, dotted_parts, String.append_assoc, unanchored_append,
    ← String.append_assoc] at hparts

/-- A path that goes on behind a dot has the leading dot that it had before. -/
theorem anchored?_append_of_ne {path : String} (h : path ≠ "") (more : String) :
    anchored? (path ++ more) = (anchored? path).map (· ++ more) := by
  cases hanchored : anchored? path with
  | some rest =>
    rw [anchored?_eq_some.mp hanchored, String.append_assoc, anchored?_append]
    rfl
  | none =>
    rw [Option.map_none, Option.eq_none_iff_forall_ne_some]
    intro rest hrest
    obtain ⟨c, cs, hcs⟩ := List.exists_cons_of_ne_nil (toList_ne_nil h)
    have hchars := congrArg String.toList (anchored?_eq_some.mp hrest)
    rw [String.toList_append, String.toList_append, hcs] at hchars
    obtain rfl : c = '.' := (List.cons.inj hchars).1
    have hdot : path = "." ++ String.ofList cs := by
      apply String.toList_inj.mp
      simp [hcs]
    rw [hdot, anchored?_append] at hanchored
    cases hanchored

theorem unanchored_append_of_ne {path : String} (h : path ≠ "") (more : String) :
    unanchored (path ++ more) = unanchored path ++ more := by
  rw [unanchored, unanchored, anchored?_append_of_ne h]
  cases anchored? path <;> rfl

/-- Plain names can be told from their path. -/
theorem dotted_inj {names names' : List String} (h : ∀ name ∈ names, Plain name)
    (h' : ∀ name ∈ names', Plain name) (heq : dotted names = dotted names') : names = names' := by
  have hnil : ∀ {names : List String}, dotted names = "" → names = [] := by
    intro names hempty
    cases names with
    | nil => rfl
    | cons name more =>
      have hchars := congrArg String.toList hempty
      rw [toList_dotted] at hchars
      cases hchars
  by_cases hne : names = []
  · subst hne
    exact (hnil heq.symm).symm
  · have hne' : names' ≠ [] := by
      rintro rfl
      exact hne (hnil heq)
    rw [← parts_unanchored_dotted hne h, heq, parts_unanchored_dotted hne' h']

end Path

end Protobuf

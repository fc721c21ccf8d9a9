import Protobuf.Proofs.Wire.Extent
import Protobuf.Wire.Skip

/-!
# Skipping and reading

Skipping walks over a group without keeping what is in it, reading puts its records together. They
take the same bytes, and the limit that stops a skip is one to the nesting of the records that are
read. Both loops keep a stack of open groups, so the law of the loop is about two stacks that grow
and shrink together, and there is one for each direction.

## Main definitions

* `Wire.FitsIn` — the groups that are open leave room for what has been read inside of them.

## Main results

* `Wire.readGroups_of_skipGroups`, `Wire.skipGroups_of_readGroups` — the law of the loop
* `Wire.readPayload_of_skipAt` — a payload that is skipped can be read, and nests within the limit
* `Wire.skipAt_eq_ok_iff` — those are the payloads that can be skipped
-/

namespace Protobuf

namespace Reader

theorem exists_of_map {α β : Type} {r : Reader α} {f : α → β} {c c' : Cursor} {b : β}
    (h : (f <$> r).runAt c = (.ok b, c')) : ∃ a, r.runAt c = (.ok a, c') := by
  rw [runAt_map] at h
  rcases hr : r.runAt c with ⟨fault | a, c''⟩
  · rw [hr] at h
    cases h
  · rw [hr] at h
    cases h
    exact ⟨a, rfl⟩

theorem exists_of_discard {α : Type} {r : Reader α} {c c' : Cursor}
    (h : (discard r : Reader Unit).runAt c = (.ok (), c')) : ∃ a, r.runAt c = (.ok a, c') :=
  exists_of_map (f := fun _ => ()) h

theorem runAt_map_of_ok {α β : Type} {r : Reader α} {c c' : Cursor} {a : α}
    (h : r.runAt c = (.ok a, c')) (f : α → β) : (f <$> r).runAt c = (.ok (f a), c') := by
  rw [runAt_map, h]

end Reader

namespace Wire

/-! ### Nesting -/

theorem nestingOf_cons (r : Record) (rs : List Record) :
    nestingOf (r :: rs) = max r.2.nesting (nestingOf rs) := by
  obtain ⟨id, p⟩ := r
  rw [nestingOf]

theorem nestingOf_append (rs rs' : List Record) :
    nestingOf (rs ++ rs') = max (nestingOf rs) (nestingOf rs') := by
  induction rs with
  | nil => simp [nestingOf]
  | cons r more ih => rw [List.cons_append, nestingOf_cons, nestingOf_cons, ih, max_assoc]

theorem nestingOf_reverse (rs : List Record) : nestingOf rs.reverse = nestingOf rs := by
  induction rs with
  | nil => rfl
  | cons r more ih =>
    rw [List.reverse_cons, nestingOf_append, ih, nestingOf_cons, nestingOf_cons, max_comm]
    simp [nestingOf]

/-! ### Stacks -/

/-- The records that have been read inside of each open group nest no deeper than the levels that
are left there. The innermost group comes first and has the records `done`. -/
def FitsIn (levels : Nat) : List OpenGroup → List Record → Prop
  | [], done => nestingOf done ≤ levels
  | g :: outer, done => nestingOf done + (outer.length + 1) ≤ levels ∧ FitsIn levels outer g.before

namespace FitsIn

variable {levels : Nat} {stack : List OpenGroup} {done : List Record}

theorem iff_nesting : FitsIn levels stack done ↔
    nestingOf done + stack.length ≤ levels ∧
      ∀ g outer, stack = g :: outer → FitsIn levels outer g.before := by
  cases stack with
  | nil => simp [FitsIn]
  | cons g outer => simp [FitsIn]

theorem record_iff {r : Record} : FitsIn levels stack (r :: done) ↔
    r.2.nesting + stack.length ≤ levels ∧ FitsIn levels stack done := by
  rw [iff_nesting, iff_nesting, nestingOf_cons, ← and_assoc]
  exact and_congr_left' (by omega)

theorem start (h : FitsIn levels stack done) (hroom : stack.length < levels) (id : UInt32) :
    FitsIn levels (⟨id, done⟩ :: stack) [] := by
  refine ⟨?_, h⟩
  rw [nestingOf]
  omega

/-- A group that is closed becomes a record of the group around it. -/
theorem close_iff {g : OpenGroup} {outer : List OpenGroup} :
    FitsIn levels outer ((g.id, .group done.reverse) :: g.before) ↔
      FitsIn levels (g :: outer) done := by
  rw [record_iff, FitsIn, Payload.nesting, nestingOf_reverse]
  exact and_congr_left' (by omega)

end FitsIn

/-! ### Loops -/

theorem readPlain_of_skipPlain {w : WireType} (hstart : w ≠ .startGroup) (hend : w ≠ .endGroup)
    {c c' : Cursor} (h : (Reader.skipPlain w).runAt c = (.ok (), c')) :
    ∃ p, (readPlain w).runAt c = (.ok p, c') ∧ p.nesting = 0 := by
  cases w with
  | startGroup => exact absurd rfl hstart
  | endGroup => exact absurd rfl hend
  | varint =>
    obtain ⟨v, hv⟩ := Reader.exists_of_discard h
    exact ⟨_, Reader.runAt_map_of_ok hv _, by rw [Payload.nesting]; simp⟩
  | fixed64 =>
    obtain ⟨v, hv⟩ := Reader.exists_of_discard h
    exact ⟨_, Reader.runAt_map_of_ok (Reader.runAt_map_of_ok hv _) _, by rw [Payload.nesting]; simp⟩
  | lengthDelimited =>
    obtain ⟨v, hv⟩ := Reader.exists_of_discard h
    exact ⟨_, Reader.runAt_map_of_ok hv _, by rw [Payload.nesting]; simp⟩
  | fixed32 =>
    obtain ⟨v, hv⟩ := Reader.exists_of_discard h
    exact ⟨_, Reader.runAt_map_of_ok (Reader.runAt_map_of_ok hv _) _, by rw [Payload.nesting]; simp⟩

/-- The law of the loop: what closes all open groups when it is skipped closes them when it is
read. -/
theorem readGroups_of_skipGroups {depth : Nat} {opened : List UInt32} {c c' : Cursor}
    (h : Reader.skipGroups depth opened c = (.ok (), c')) (g : OpenGroup) (outer : List OpenGroup)
    (done : List Record) (hopened : opened = (g :: outer).map OpenGroup.id)
    (hfits : FitsIn (recursionLimit - depth) (g :: outer) done) :
    ∃ p, readGroups g outer done c = (.ok p, c') ∧ p.nesting ≤ recursionLimit - depth := by
  -- Both loops read the same keys. The reader also keeps what has been read of each open group, and
  -- `hfits` bounds how deep groups nest in that.
  fun_induction Reader.skipGroups depth opened c generalizing g outer done with
  | case1 c => simp at hopened
  | case2 | case4 | case7 => cases h
  | case3 c rest id c₁ hkey ih =>
    rw [List.map_cons, List.cons.injEq] at hopened
    obtain ⟨rfl, hrest⟩ := hopened
    have hclose : readGroups g outer done c = readInside g outer done (g.id, .endGroup) c₁ :=
      readGroups_of_key hkey
    rw [hclose]
    simp only [readInside, if_pos]
    cases outer with
    | nil =>
      rw [hrest, List.map_nil, Reader.skipGroups] at h
      cases h
      refine ⟨_, rfl, ?_⟩
      rw [Payload.nesting, nestingOf_reverse]
      exact hfits.1
    | cons g' outer => exact ih h g' outer _ hrest (FitsIn.close_iff.mpr hfits)
  | case5 c id rest inner c₁ _ hdeep =>
    rw [if_pos hdeep] at h
    cases h
  | case6 c id rest inner c₁ hkey hroom ih =>
    rw [if_neg hroom] at h
    have hstart : readGroups g outer done c = readGroups ⟨inner, done⟩ (g :: outer) [] c₁ :=
      readGroups_of_key hkey
    rw [hstart]
    refine ih h ⟨inner, done⟩ (g :: outer) [] (by rw [hopened]; rfl) (hfits.start ?_ inner)
    have hlength := congrArg List.length hopened
    rw [List.length_map] at hlength
    omega
  | case8 c id rest inner w c₁ hend hstart hkey c₂ hskip ih =>
    obtain ⟨p, hp, hnesting⟩ := readPlain_of_skipPlain hstart hend hskip
    have hplain : readGroups g outer done c = readGroups g outer ((inner, p) :: done) c₂ := by
      rw [readGroups_of_key hkey, readInside_plain hstart hend, Run.andThen, hp]
    rw [hplain]
    refine ih h g outer _ hopened (FitsIn.record_iff.mpr ⟨?_, hfits⟩)
    rw [hnesting]
    have := (FitsIn.iff_nesting.mp hfits).1
    omega

/-- A payload that can be skipped can be read, and groups nest in it no deeper than is allowed. -/
theorem readPayload_of_skipAt {id : UInt32} {w : WireType} {depth : Nat} {c c' : Cursor}
    (h : (Reader.skipAt id w depth).runAt c = (.ok (), c')) :
    ∃ p, readPayload id w c = (.ok p, c') ∧ p.nesting ≤ recursionLimit - depth := by
  by_cases hstart : w = .startGroup
  · subst hstart
    rw [Reader.skipAt] at h
    split at h
    · cases h
    · rename_i hroom
      refine readGroups_of_skipGroups h ⟨id, []⟩ [] [] rfl ⟨?_, ?_⟩
      · rw [nestingOf, List.length_nil]
        omega
      · exact Nat.zero_le _
  · by_cases hend : w = .endGroup
    · subst hend
      cases h
    · rw [Reader.skipAt] at h
      · obtain ⟨p, hp, hnesting⟩ := readPlain_of_skipPlain hstart hend h
        refine ⟨p, ?_, by omega⟩
        rw [readPayload_eq hstart, Run.andThen, hp]
      · exact hstart
      · exact hend

/-! ### What is read can be skipped -/

theorem skipPlain_of_readPlain {w : WireType} {c c' : Cursor} {p : Payload}
    (h : (readPlain w).runAt c = (.ok p, c')) : (Reader.skipPlain w).runAt c = (.ok (), c') := by
  cases w with
  | startGroup | endGroup => cases h
  | varint | lengthDelimited =>
    obtain ⟨v, hv⟩ := Reader.exists_of_map h
    exact Reader.runAt_map_of_ok hv fun _ => ()
  | fixed64 | fixed32 =>
    obtain ⟨word, hword⟩ := Reader.exists_of_map h
    obtain ⟨v, hv⟩ := Reader.exists_of_map hword
    exact Reader.runAt_map_of_ok hv fun _ => ()

section

variable {depth : Nat} {id inner : UInt32} {w : WireType} {opened : List UInt32}
variable {c c₁ c₂ : Cursor}

theorem skipGroups_eq (c : Cursor) :
    Reader.skipGroups depth (id :: opened) c =
      match Reader.key.runAt c with
      | (.error fault, c₁) => (.error fault, c₁)
      | (.ok (inner, .endGroup), c₁) =>
        if inner = id then Reader.skipGroups depth opened c₁
        else (.error (.groupMismatch inner id), c₁)
      | (.ok (inner, .startGroup), c₁) =>
        if recursionLimit ≤ depth + (id :: opened).length then (.error .tooDeep, c₁)
        else Reader.skipGroups depth (inner :: id :: opened) c₁
      | (.ok (_, w), c₁) =>
        match (Reader.skipPlain w).runAt c₁ with
        | (.error fault, c₂) => (.error fault, c₂)
        | (.ok (), c₂) => Reader.skipGroups depth (id :: opened) c₂ := by
  rw [Reader.skipGroups]
  rcases Reader.key.runAt c with ⟨fault | ⟨inner, w⟩, c₁⟩
  · rfl
  · cases w <;>
      first
      | rfl
      | (dsimp only
         rcases (Reader.skipPlain _).runAt c₁ with ⟨fault | _, c₂⟩ <;> rfl)

theorem skipGroups_close (hkey : Reader.key.runAt c = (.ok (id, .endGroup), c₁)) :
    Reader.skipGroups depth (id :: opened) c = Reader.skipGroups depth opened c₁ := by
  rw [skipGroups_eq, hkey]
  exact if_pos rfl

theorem skipGroups_start (hkey : Reader.key.runAt c = (.ok (inner, .startGroup), c₁))
    (hroom : depth + (id :: opened).length < recursionLimit) :
    Reader.skipGroups depth (id :: opened) c =
      Reader.skipGroups depth (inner :: id :: opened) c₁ := by
  rw [skipGroups_eq, hkey]
  exact if_neg (Nat.not_le.mpr hroom)

theorem skipGroups_plain (hkey : Reader.key.runAt c = (.ok (inner, w), c₁)) (hend : w ≠ .endGroup)
    (hstart : w ≠ .startGroup) (hskip : (Reader.skipPlain w).runAt c₁ = (.ok (), c₂)) :
    Reader.skipGroups depth (id :: opened) c = Reader.skipGroups depth (id :: opened) c₂ := by
  rw [skipGroups_eq, hkey]
  cases w with
  | startGroup => exact absurd rfl hstart
  | endGroup => exact absurd rfl hend
  | _ => simp only [hskip]

end

/-- The law of the loop the other way: if what is read nests within the limit, then the groups that
are open at any place before its end leave room there, and it can be skipped. -/
theorem skipGroups_of_readGroups {depth : Nat} {g : OpenGroup} {outer : List OpenGroup}
    {done : List Record} {c c' : Cursor} {p : Payload}
    (h : readGroups g outer done c = (.ok p, c')) (hp : p.nesting ≤ recursionLimit - depth)
    (hroot : nestingOf ((g :: outer).getLast (List.cons_ne_nil _ _)).before ≤
      recursionLimit - depth) :
    FitsIn (recursionLimit - depth) (g :: outer) done ∧
      Reader.skipGroups depth ((g :: outer).map OpenGroup.id) c = (.ok (), c') := by
  fun_induction readGroups g outer done c with
  | case1 | case2 | case5 | case7 => cases h
  | case3 g done c _ c₁ hkey =>
    cases h
    refine ⟨FitsIn.close_iff.mp (FitsIn.record_iff.mpr ⟨hp, hroot⟩), ?_⟩
    rw [List.map_cons, skipGroups_close hkey, List.map_nil, Reader.skipGroups]
  | case4 g done c _ c₁ g' outer hkey ih =>
    rw [List.unattach_reverse, List.unattach_attach] at ih
    obtain ⟨hfits, hskip⟩ := ih h hroot
    refine ⟨FitsIn.close_iff.mp hfits, ?_⟩
    rw [List.map_cons, skipGroups_close hkey, hskip]
  | case6 g outer done c _ inner c₁ hkey ih =>
    obtain ⟨hfits, hskip⟩ := ih h hroot
    refine ⟨hfits.2, ?_⟩
    have hroom := hfits.1
    rw [nestingOf, List.length_cons] at hroom
    rw [List.map_cons, skipGroups_start hkey (by rw [List.length_cons, List.length_map]; omega)]
    exact hskip
  | case8 g outer done c _ inner w c₁ hend hstart hkey q c₂ hplain ih =>
    obtain ⟨hfits, hskip⟩ := ih h hroot
    refine ⟨(FitsIn.record_iff.mp hfits).2, ?_⟩
    rw [List.map_cons, skipGroups_plain hkey hend hstart (skipPlain_of_readPlain hplain),
      ← List.map_cons, hskip]

/-- A payload can be skipped if it can be read and groups nest in it no deeper than is allowed, and
both stop at the same place. -/
theorem skipAt_eq_ok_iff {id : UInt32} {w : WireType} {depth : Nat} {c c' : Cursor} :
    (Reader.skipAt id w depth).runAt c = (.ok (), c') ↔
      ∃ p, readPayload id w c = (.ok p, c') ∧ p.nesting ≤ recursionLimit - depth := by
  refine ⟨readPayload_of_skipAt, ?_⟩
  rintro ⟨p, hread, hnesting⟩
  by_cases hstart : w = .startGroup
  · subst hstart
    obtain ⟨hfits, hskip⟩ := skipGroups_of_readGroups hread hnesting (Nat.zero_le _)
    have hroom := hfits.1
    rw [nestingOf, List.length_nil] at hroom
    rw [Reader.skipAt, if_neg (by omega)]
    exact hskip
  · rw [readPayload_eq hstart, Run.andThen] at hread
    split at hread
    · cases hread
    · rename_i hplain
      cases hread
      have hskip := skipPlain_of_readPlain hplain
      cases w with
      | startGroup => exact absurd rfl hstart
      | endGroup => cases hplain
      | _ => exact hskip

end Wire

end Protobuf

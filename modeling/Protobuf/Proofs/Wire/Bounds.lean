import Protobuf.Proofs.Wire.Skip
import Protobuf.Proofs.Wire.Varint

/-!
# A reader stays in its buffer

Lengths and nesting come from the bytes that are read, so nothing about them can be relied on.
Whatever is asked of a reader, and whether it can be done or not, the place where it stands is one of
the buffer, and lies no further to the front than before. What succeeds takes a byte, unless no byte
was asked for; this is why stepping over a field comes to an end.

Stepping over a group is described here as it is thought of: a group is stepped over field by field,
and the groups among its fields in the same way. Such a description is finite if there is one at all,
and there is one for each field at each place. The loop with its list of open groups computes the
same.

## Main definitions

* `Cursor.In`, `Cursor.Ahead` — places of a buffer, and their order.
* `Reader.Forward` — an action that never goes back.
* `Reader.Skips` — how stepping over a field goes, rule by rule.
* `Reader.Meets` — a group that is come upon while a field is stepped over.
* `Reader.Call`, `Reader.Reached` — what may be asked of a reader, and where it may stand.

## Main results

* `Reader.skipGroups_append` — the groups around wait until those inside are closed
* `Reader.skips_iff` — the rules and the loop agree, so that the rules lead to an end everywhere
* `Reader.Skips.of_meets` — a group too deep is refused where it begins
* `Reader.Reached.bounded` — what is certain about each call
-/

namespace Protobuf

/-! ### Places -/

namespace Cursor

/-- The place is one of `buffer`. -/
structure In (buffer : List UInt8) (c : Cursor) : Prop where
  position_add_remaining : c.position + c.remaining = buffer.length
  rest_eq : c.rest = buffer.drop c.position

/-- The place `c'` is `c` or lies further back in the same bytes. -/
def Ahead (c c' : Cursor) : Prop :=
  ∃ taken, c.rest = taken ++ c'.rest ∧ c'.position = c.position + taken.length

variable {c c' c'' : Cursor} {buffer : List UInt8}

theorem in_ofBytes (buffer : List UInt8) : (ofBytes buffer).In buffer :=
  ⟨Nat.zero_add _, rfl⟩

namespace Ahead

theorem refl (c : Cursor) : c.Ahead c :=
  ⟨[], rfl, rfl⟩

theorem trans (h : c.Ahead c') (h' : c'.Ahead c'') : c.Ahead c'' := by
  obtain ⟨taken, hrest, hposition⟩ := h
  obtain ⟨taken', hrest', hposition'⟩ := h'
  refine ⟨taken ++ taken', ?_, ?_⟩
  · rw [hrest, hrest', List.append_assoc]
  · rw [hposition', hposition, List.length_append, Nat.add_assoc]

theorem position_le (h : c.Ahead c') : c.position ≤ c'.position := by
  obtain ⟨taken, -, hposition⟩ := h
  omega

theorem length_le (h : c.Ahead c') : c'.rest.length ≤ c.rest.length := by
  obtain ⟨taken, hrest, -⟩ := h
  rw [hrest, List.length_append]
  omega

/-- Bytes are taken exactly if the place changes. -/
theorem position_lt (h : c.Ahead c') (hshorter : c'.rest.length < c.rest.length) :
    c.position < c'.position := by
  obtain ⟨taken, hrest, hposition⟩ := h
  rw [hrest, List.length_append] at hshorter
  omega

theorem inside (h : c.Ahead c') (hc : c.In buffer) : c'.In buffer := by
  obtain ⟨taken, hrest, hposition⟩ := h
  refine ⟨?_, ?_⟩
  · rw [← hc.position_add_remaining, remaining, remaining, hrest, List.length_append, hposition]
    omega
  · rw [hposition, ← List.drop_drop, ← hc.rest_eq, hrest, List.drop_left]

end Ahead

/-- The bytes in front of a place of the buffer end with those that have just been taken. -/
theorem In.suffix (hc : c.In buffer) (before : List UInt8) {content : List UInt8}
    (hrest : c.rest = before ++ content ++ c'.rest)
    (hposition : c'.position = c.position + (before ++ content).length) :
    content <:+ buffer.take c'.position := by
  have htake : buffer.take c'.position = buffer.take c.position ++ (before ++ content) := by
    rw [hposition, List.take_add, ← hc.rest_eq, hrest, List.take_left]
  rw [htake, ← List.append_assoc]
  exact List.suffix_append _ _

end Cursor

/-! ### Actions that never go back -/

namespace Reader

variable {α β : Type}

/-- The action never goes back, whether it gives a value or not. -/
def Forward (r : Reader α) : Prop :=
  ∀ c : Cursor, c.Ahead (r.runAt c).2

theorem forward_pure (a : α) : (pure a : Reader α).Forward :=
  fun c => .refl c

theorem forward_throw (fault : Wire.Fault) : (throw fault : Reader α).Forward :=
  fun c => .refl c

theorem Forward.bind {r : Reader α} {f : α → Reader β} (hr : r.Forward) (hf : ∀ a, (f a).Forward) :
    (r >>= f).Forward := by
  intro c
  have hfirst := hr c
  rw [runAt_bind]
  rcases hrun : r.runAt c with ⟨fault | a, c'⟩ <;> rw [hrun] at hfirst
  · exact hfirst
  · exact hfirst.trans (hf a c')

theorem Forward.map {r : Reader α} (hr : r.Forward) (f : α → β) : (f <$> r).Forward := by
  rw [← bind_pure_comp]
  exact hr.bind fun a => forward_pure (f a)

theorem Forward.discard {r : Reader α} (hr : r.Forward) :
    (Functor.discard r : Reader Unit).Forward := by
  intro c
  rw [runAt_discard]
  exact hr c

theorem forward_varint : varint.Forward := by
  intro c
  rcases hrun : varint.runAt c with ⟨fault | v, c'⟩
  · rw [(varint_eq_error hrun).1]
    exact .refl c
  · obtain ⟨digits, -, hrest, hposition⟩ := varint_eq_ok_iff.mp hrun
    exact ⟨digits, hrest, hposition⟩

theorem bytes_eq_ok {count : Nat} {c c' : Cursor} {content : List UInt8}
    (h : (bytes count).runAt c = (.ok content, c')) :
    content.length = count ∧ c.rest = content ++ c'.rest ∧
      c'.position = c.position + content.length := by
  simp only [runAt, bytes, ExceptT.run, ExceptT.mk, StateT.run] at h
  split at h
  · cases h
  · rename_i hlength
    cases h
    have hcount : (c.rest.take count).length = count := by
      rw [List.length_take] at hlength ⊢
      omega
    exact ⟨hcount, (List.take_append_drop count c.rest).symm, by rw [hcount]⟩

theorem bytes_eq_error {count : Nat} {c c' : Cursor} {fault : Wire.Fault}
    (h : (bytes count).runAt c = (.error fault, c')) : c' = c := by
  simp only [runAt, bytes, ExceptT.run, ExceptT.mk, StateT.run] at h
  split at h
  · cases h
    rfl
  · cases h

theorem forward_bytes (count : Nat) : (bytes count).Forward := by
  intro c
  rcases hrun : (bytes count).runAt c with ⟨fault | content, c'⟩
  · rw [bytes_eq_error hrun]
    exact .refl c
  · exact ⟨content, (bytes_eq_ok hrun).2⟩

theorem forward_fixed32 : fixed32.Forward :=
  (forward_bytes 4).map _

theorem forward_fixed64 : fixed64.Forward :=
  (forward_bytes 8).map _

theorem forward_lengthDelimited : lengthDelimited.Forward :=
  forward_varint.bind fun count => forward_bytes count.toNat

theorem forward_key : key.Forward := by
  refine forward_varint.bind fun k => ?_
  split
  · exact forward_pure _
  · exact forward_throw _

theorem lengthDelimited_eq_ok {c c' : Cursor} {content : List UInt8}
    (h : lengthDelimited.runAt c = (.ok content, c')) :
    ∃ before, 0 < before.length ∧ c.rest = before ++ content ++ c'.rest ∧
      c'.position = c.position + (before ++ content).length := by
  rw [lengthDelimited, runAt_bind] at h
  split at h
  · rename_i count c₁ hcount
    obtain ⟨digits, hdigits, hrest, hposition⟩ := varint_eq_ok_iff.mp hcount
    obtain ⟨-, hrest', hposition'⟩ := bytes_eq_ok h
    refine ⟨digits, hdigits.isNumeral.length_pos, ?_, ?_⟩
    · rw [hrest, hrest', List.append_assoc]
    · rw [hposition', hposition, List.length_append, Nat.add_assoc]
  · cases h

theorem forward_skipPlain (w : WireType) : (skipPlain w).Forward := by
  cases w with
  | varint => exact forward_varint.discard
  | fixed64 => exact (forward_bytes 8).discard
  | lengthDelimited => exact forward_lengthDelimited.discard
  | startGroup | endGroup => exact forward_pure ()
  | fixed32 => exact (forward_bytes 4).discard

/-! ### Stepping over fields -/

/-- What is stepped over. -/
inductive Skipped where
  /-- The payload of the field `id`, `depth` levels below the outermost message. -/
  | payload (id : UInt32) (w : WireType) (depth : Nat)
  /-- The fields of the group `id`, which is found at level `depth`, and its end tag. -/
  | fields (id : UInt32) (depth : Nat)

/-- How stepping over a field goes from one place to another. -/
inductive Skips : Skipped → Cursor → Except Wire.Fault Unit → Cursor → Prop
  | plain {id : UInt32} {w : WireType} {depth : Nat} {c c' : Cursor} {r : Except Wire.Fault Unit}
      (hstart : w ≠ .startGroup) (hend : w ≠ .endGroup) (hplain : (skipPlain w).runAt c = (r, c')) :
      Skips (.payload id w depth) c r c'
  | unexpectedEnd {id : UInt32} {depth : Nat} {c : Cursor} :
      Skips (.payload id .endGroup depth) c (.error (.unexpectedEndGroup id)) c
  | tooDeep {id : UInt32} {depth : Nat} {c : Cursor} (hdeep : recursionLimit ≤ depth) :
      Skips (.payload id .startGroup depth) c (.error .tooDeep) c
  | group {id : UInt32} {depth : Nat} {c c' : Cursor} {r : Except Wire.Fault Unit}
      (hroom : depth < recursionLimit) (hfields : Skips (.fields id depth) c r c') :
      Skips (.payload id .startGroup depth) c r c'
  | badKey {id : UInt32} {depth : Nat} {c c' : Cursor} {fault : Wire.Fault}
      (hkey : key.runAt c = (.error fault, c')) : Skips (.fields id depth) c (.error fault) c'
  | close {id : UInt32} {depth : Nat} {c c' : Cursor}
      (hkey : key.runAt c = (.ok (id, .endGroup), c')) :
      Skips (.fields id depth) c (.ok ()) c'
  | mismatch {id inner : UInt32} {depth : Nat} {c c' : Cursor}
      (hkey : key.runAt c = (.ok (inner, .endGroup), c')) (hne : inner ≠ id) :
      Skips (.fields id depth) c (.error (.groupMismatch inner id)) c'
  | stop {id inner : UInt32} {w : WireType} {depth : Nat} {c c₁ c' : Cursor} {fault : Wire.Fault}
      (hkey : key.runAt c = (.ok (inner, w), c₁)) (hend : w ≠ .endGroup)
      (hfield : Skips (.payload inner w (depth + 1)) c₁ (.error fault) c') :
      Skips (.fields id depth) c (.error fault) c'
  | next {id inner : UInt32} {w : WireType} {depth : Nat} {c c₁ c₂ c' : Cursor}
      {r : Except Wire.Fault Unit} (hkey : key.runAt c = (.ok (inner, w), c₁)) (hend : w ≠ .endGroup)
      (hfield : Skips (.payload inner w (depth + 1)) c₁ (.ok ()) c₂)
      (hmore : Skips (.fields id depth) c₂ r c') : Skips (.fields id depth) c r c'

/-- A group is come upon at level `level` while something is stepped over, and its fields begin at
`place`. -/
inductive Meets : Skipped → Cursor → (level : Nat) → (place : Cursor) → Prop
  | here {id : UInt32} {depth : Nat} {c : Cursor} :
      Meets (.payload id .startGroup depth) c depth c
  | inside {id : UInt32} {depth level : Nat} {c place : Cursor} (hroom : depth < recursionLimit)
      (hfields : Meets (.fields id depth) c level place) :
      Meets (.payload id .startGroup depth) c level place
  | first {id inner : UInt32} {w : WireType} {depth level : Nat} {c c₁ place : Cursor}
      (hkey : key.runAt c = (.ok (inner, w), c₁)) (hend : w ≠ .endGroup)
      (hfield : Meets (.payload inner w (depth + 1)) c₁ level place) :
      Meets (.fields id depth) c level place
  | later {id inner : UInt32} {w : WireType} {depth level : Nat} {c c₁ c₂ place : Cursor}
      (hkey : key.runAt c = (.ok (inner, w), c₁)) (hend : w ≠ .endGroup)
      (hfield : Skips (.payload inner w (depth + 1)) c₁ (.ok ()) c₂)
      (hmore : Meets (.fields id depth) c₂ level place) : Meets (.fields id depth) c level place

/-- A group whose level is the limit is refused where its fields begin. -/
theorem Skips.of_meets {s : Skipped} {c place : Cursor} {level : Nat} (h : Meets s c level place)
    (hdeep : recursionLimit ≤ level) : Skips s c (.error .tooDeep) place := by
  induction h with
  | here => exact .tooDeep hdeep
  | inside hroom _ ih => exact .group hroom (ih hdeep)
  | first hkey hend _ ih => exact .stop hkey hend (ih hdeep)
  | later hkey hend hfield _ ih => exact .next hkey hend hfield (ih hdeep)

theorem forward_of_runAt {r : Reader α} (h : r.Forward) {c c' : Cursor}
    {answer : Except Wire.Fault α} (hrun : r.runAt c = (answer, c')) : c.Ahead c' := by
  have hahead := h c
  rwa [hrun] at hahead

theorem Skips.ahead {s : Skipped} {c c' : Cursor} {r : Except Wire.Fault Unit}
    (h : Skips s c r c') : c.Ahead c' := by
  induction h with
  | plain _ _ hplain => exact forward_of_runAt (forward_skipPlain _) hplain
  | unexpectedEnd | tooDeep => exact .refl _
  | group _ _ ih => exact ih
  | badKey hkey | close hkey | mismatch hkey => exact forward_of_runAt forward_key hkey
  | stop hkey _ _ ih => exact (forward_of_runAt forward_key hkey).trans ih
  | next hkey _ _ _ ihField ihMore =>
    exact (forward_of_runAt forward_key hkey).trans (ihField.trans ihMore)

theorem consumes_discard {r : Reader α} (h : r.Consumes) :
    (Functor.discard r : Reader Unit).Consumes := by
  intro c _ c' hrun
  obtain ⟨a, hr⟩ := exists_of_discard hrun
  exact h c a c' hr

theorem skipPlain_consumes {w : WireType} (hstart : w ≠ .startGroup) (hend : w ≠ .endGroup) :
    (skipPlain w).Consumes := by
  cases w with
  | varint => exact consumes_discard varint_consumes
  | fixed64 => exact consumes_discard (bytes_consumes (by decide))
  | lengthDelimited => exact consumes_discard lengthDelimited_consumes
  | startGroup => exact absurd rfl hstart
  | endGroup => exact absurd rfl hend
  | fixed32 => exact consumes_discard (bytes_consumes (by decide))

/-- What is stepped over takes a byte at least. -/
theorem Skips.shorter {s : Skipped} {c c' : Cursor} (h : Skips s c (.ok ()) c') :
    c'.rest.length < c.rest.length := by
  generalize hr : (.ok () : Except Wire.Fault Unit) = r at h
  induction h with
  | plain hstart hend hplain =>
    subst hr
    exact skipPlain_consumes hstart hend _ _ _ hplain
  | unexpectedEnd | tooDeep | badKey | mismatch | stop => cases hr
  | group _ _ ih => exact ih hr
  | close hkey => exact key_shorter hkey
  | next hkey _ hfield hmore =>
    exact Nat.lt_of_le_of_lt (Nat.le_trans hmore.ahead.length_le hfield.ahead.length_le)
      (key_shorter hkey)

/-! ### The rules and the loop -/

theorem skipGroups_badField {depth : Nat} {group inner : UInt32} {opened : List UInt32} {w : WireType}
    {c c₁ c₂ : Cursor} {fault : Wire.Fault} (hkey : key.runAt c = (.ok (inner, w), c₁))
    (hend : w ≠ .endGroup) (hstart : w ≠ .startGroup)
    (hskip : (skipPlain w).runAt c₁ = (.error fault, c₂)) :
    skipGroups depth (group :: opened) c = (.error fault, c₂) := by
  rw [Wire.skipGroups_eq, hkey]
  cases w with
  | startGroup => exact absurd rfl hstart
  | endGroup => exact absurd rfl hend
  | _ => simp only [hskip]

/-- The groups around wait until those inside are closed. -/
theorem skipGroups_append {depth : Nat} (inner outer : List UInt32) (c : Cursor) :
    skipGroups depth (inner ++ outer) c =
      Run.andThen (skipGroups (depth + outer.length) inner) id
        (fun _ => skipGroups depth outer) c := by
  rw [Run.andThen]
  fun_induction skipGroups (depth + outer.length) inner c with
  | case1 c => rfl
  | case2 c id rest fault c₁ hkey =>
    rw [List.cons_append, Wire.skipGroups_eq, hkey]
    rfl
  | case3 c rest id c₁ hkey ih => rw [List.cons_append, Wire.skipGroups_close hkey, ih]
  | case4 c id rest inner c₁ hkey hne =>
    rw [List.cons_append, Wire.skipGroups_eq, hkey]
    simp only [if_neg hne]
    rfl
  | case5 c id rest inner c₁ hkey hdeep =>
    have hdeep' : recursionLimit ≤ depth + (id :: (rest ++ outer)).length := by
      simp only [List.length_cons, List.length_append] at hdeep ⊢
      omega
    rw [List.cons_append, Wire.skipGroups_eq, hkey]
    simp only [if_pos hdeep, if_pos hdeep']
    rfl
  | case6 c id rest inner c₁ hkey hroom ih =>
    have hroom' : depth + (id :: (rest ++ outer)).length < recursionLimit := by
      simp only [List.length_cons, List.length_append] at hroom ⊢
      omega
    rw [List.cons_append, Wire.skipGroups_start hkey hroom', if_neg hroom]
    exact ih
  | case7 c id rest inner w c₁ hend hstart hkey fault c₂ hskip =>
    rw [List.cons_append, skipGroups_badField hkey hend hstart hskip]
    rfl
  | case8 c id rest inner w c₁ hend hstart hkey c₂ hskip ih =>
    rw [List.cons_append, Wire.skipGroups_plain hkey hend hstart hskip]
    exact ih

section

variable {group inner : UInt32} {w : WireType} {depth : Nat} {c c₁ : Cursor}

theorem skipGroups_badKey {fault : Wire.Fault} (hkey : key.runAt c = (.error fault, c₁)) :
    skipGroups depth [group] c = (.error fault, c₁) := by
  rw [Wire.skipGroups_eq, hkey]

theorem skipGroups_closed (hkey : key.runAt c = (.ok (group, .endGroup), c₁)) :
    skipGroups depth [group] c = (.ok (), c₁) := by
  rw [Wire.skipGroups_close hkey, skipGroups]

theorem skipGroups_mismatch (hkey : key.runAt c = (.ok (inner, .endGroup), c₁))
    (hne : inner ≠ group) :
    skipGroups depth [group] c = (.error (.groupMismatch inner group), c₁) := by
  rw [Wire.skipGroups_eq, hkey]
  exact if_neg hne

theorem runAt_skipAt_plain (hstart : w ≠ .startGroup) (hend : w ≠ .endGroup) (id : UInt32)
    (depth : Nat) : (skipAt id w depth).runAt = (skipPlain w).runAt := by
  cases w with
  | startGroup => exact absurd rfl hstart
  | endGroup => exact absurd rfl hend
  | _ => rfl

theorem runAt_skipAt_tooDeep (hdeep : recursionLimit ≤ depth) (c : Cursor) :
    (skipAt group .startGroup depth).runAt c = (.error .tooDeep, c) := by
  rw [skipAt, if_pos hdeep, runAt_throw]

theorem runAt_skipAt_group (hroom : depth < recursionLimit) :
    (skipAt group .startGroup depth).runAt = skipGroups depth [group] := by
  rw [skipAt, if_neg (Nat.not_le.mpr hroom)]
  rfl

/-- A group is stepped over field by field, each of them one level further down. -/
theorem skipGroups_field (hkey : key.runAt c = (.ok (inner, w), c₁)) (hend : w ≠ .endGroup) :
    skipGroups depth [group] c = Run.andThen (skipAt inner w (depth + 1)).runAt id
      (fun _ => skipGroups depth [group]) c₁ := by
  by_cases hstart : w = .startGroup
  · subst hstart
    by_cases hdeep : recursionLimit ≤ depth + 1
    · rw [Run.andThen, runAt_skipAt_tooDeep hdeep, Wire.skipGroups_eq, hkey]
      exact if_pos hdeep
    · have hroom := Nat.not_le.mp hdeep
      rw [runAt_skipAt_group hroom, Wire.skipGroups_start hkey hroom]
      exact skipGroups_append [inner] [group] c₁
  · rw [Run.andThen, runAt_skipAt_plain hstart hend]
    rcases hskip : (skipPlain w).runAt c₁ with ⟨fault | _, c₂⟩
    · exact skipGroups_badField hkey hend hstart hskip
    · exact Wire.skipGroups_plain hkey hend hstart hskip

end

/-- What the loop does. -/
def Skipped.run : Skipped → Run Wire.Fault Unit
  | .payload id w depth => (skipAt id w depth).runAt
  | .fields id depth => skipGroups depth [id]

/-- The loop goes by the rules. -/
theorem Skips.run_eq {s : Skipped} {c c' : Cursor} {r : Except Wire.Fault Unit}
    (h : Skips s c r c') : s.run c = (r, c') := by
  induction h with
  | plain hstart hend hplain =>
    rw [Skipped.run, runAt_skipAt_plain hstart hend]
    exact hplain
  | unexpectedEnd => rfl
  | tooDeep hdeep => exact runAt_skipAt_tooDeep hdeep _
  | group hroom _ ih =>
    rw [Skipped.run, runAt_skipAt_group hroom]
    exact ih
  | badKey hkey => exact skipGroups_badKey hkey
  | close hkey => exact skipGroups_closed hkey
  | mismatch hkey hne => exact skipGroups_mismatch hkey hne
  | stop hkey hend _ ih =>
    simp only [Skipped.run] at ih ⊢
    rw [skipGroups_field hkey hend, Run.andThen, ih]
    rfl
  | next hkey hend _ _ ihField ihMore =>
    simp only [Skipped.run] at ihField ihMore ⊢
    rw [skipGroups_field hkey hend, Run.andThen, ihField]
    exact ihMore

theorem skips_payload {c : Cursor}
    (hfields : ∀ group depth, Skips (.fields group depth) c (skipGroups depth [group] c).1
      (skipGroups depth [group] c).2) (id : UInt32) (w : WireType) (depth : Nat) :
    Skips (.payload id w depth) c ((skipAt id w depth).runAt c).1
      ((skipAt id w depth).runAt c).2 := by
  by_cases hstart : w = .startGroup
  · subst hstart
    by_cases hdeep : recursionLimit ≤ depth
    · rw [runAt_skipAt_tooDeep hdeep]
      exact .tooDeep hdeep
    · have hroom := Nat.not_le.mp hdeep
      rw [runAt_skipAt_group hroom]
      exact .group hroom (hfields id depth)
  · by_cases hend : w = .endGroup
    · subst hend
      exact .unexpectedEnd
    · rw [runAt_skipAt_plain hstart hend]
      exact .plain hstart hend rfl

/-- The rules lead to an end from everywhere. Each field begins with a key, so that fewer bytes are
left for it and for the fields behind it. -/
theorem skips_fields (group : UInt32) (depth : Nat) (c : Cursor) :
    Skips (.fields group depth) c (skipGroups depth [group] c).1
      (skipGroups depth [group] c).2 := by
  induction hn : c.rest.length using Nat.strongRecOn generalizing group depth c with
  | ind n ih =>
    subst hn
    rcases hkey : key.runAt c with ⟨fault | ⟨inner, w⟩, c₁⟩
    · rw [skipGroups_badKey hkey]
      exact .badKey hkey
    · by_cases hend : w = .endGroup
      · subst hend
        by_cases heq : inner = group
        · subst heq
          rw [skipGroups_closed hkey]
          exact .close hkey
        · rw [skipGroups_mismatch hkey heq]
          exact .mismatch hkey heq
      · have hlt := key_shorter hkey
        have hfield :=
          skips_payload (fun group depth => ih _ hlt group depth c₁ rfl) inner w (depth + 1)
        rw [skipGroups_field hkey hend, Run.andThen]
        rcases hrun : (skipAt inner w (depth + 1)).runAt c₁ with ⟨fault | _, c₂⟩ <;>
          rw [hrun] at hfield
        · exact .stop hkey hend hfield
        · have hle := hfield.ahead.length_le
          exact .next hkey hend hfield (ih _ (Nat.lt_of_le_of_lt hle hlt) group depth c₂ rfl)

/-- The rules and the loop agree. -/
theorem skips_iff {s : Skipped} {c c' : Cursor} {r : Except Wire.Fault Unit} :
    Skips s c r c' ↔ s.run c = (r, c') := by
  refine ⟨Skips.run_eq, fun h => ?_⟩
  have hskips : Skips s c (s.run c).1 (s.run c).2 := by
    cases s with
    | payload id w depth =>
      exact skips_payload (fun group depth => skips_fields group depth c) id w depth
    | fields group depth => exact skips_fields group depth c
  rwa [h] at hskips

theorem forward_skipAt (id : UInt32) (w : WireType) (depth : Nat) : (skipAt id w depth).Forward :=
  fun _ => (skips_iff (s := .payload id w depth).mpr rfl).ahead

theorem skipAt_consumes (id : UInt32) (w : WireType) (depth : Nat) : (skipAt id w depth).Consumes :=
  fun _ _ _ h => (skips_iff (s := .payload id w depth).mpr h).shorter

/-! ### Calls -/

/-- What may be asked of a reader. -/
inductive Call where
  | varint
  | fixed32
  | fixed64
  | bytes (count : Nat)
  | lengthDelimited
  | key
  | skip (id : UInt32) (w : WireType)
  | skipAt (id : UInt32) (w : WireType) (depth : Nat)

/-- What a call does. Its value is left out. -/
def Call.reader : Call → Reader Unit
  | varint => discard Reader.varint
  | fixed32 => discard Reader.fixed32
  | fixed64 => discard Reader.fixed64
  | bytes count => discard (Reader.bytes count)
  | lengthDelimited => discard Reader.lengthDelimited
  | key => discard Reader.key
  | skip id w => Reader.skip id w
  | skipAt id w depth => Reader.skipAt id w depth

/-- The reader of `buffer` may stand at the place, whatever has been asked of it and with whatever
success. -/
inductive Reached (buffer : List UInt8) : Cursor → Prop
  | start : Reached buffer (.ofBytes buffer)
  | call {c : Cursor} (h : Reached buffer c) (call : Call) : Reached buffer (call.reader.runAt c).2

theorem Call.forward (call : Call) : call.reader.Forward := by
  cases call with
  | varint => exact forward_varint.discard
  | fixed32 => exact forward_fixed32.discard
  | fixed64 => exact forward_fixed64.discard
  | bytes count => exact (forward_bytes count).discard
  | lengthDelimited => exact forward_lengthDelimited.discard
  | key => exact forward_key.discard
  | skip id w => exact forward_skipAt id w 0
  | skipAt id w depth => exact forward_skipAt id w depth

/-- What succeeds takes a byte; only bytes may be asked for that are none. -/
theorem Call.consumes {call : Call} (h : ∀ count, call ≠ .bytes count) : call.reader.Consumes := by
  cases call with
  | varint => exact consumes_discard varint_consumes
  | fixed32 => exact consumes_discard ((bytes_consumes (by decide)).map _)
  | fixed64 => exact consumes_discard ((bytes_consumes (by decide)).map _)
  | bytes count => exact absurd rfl (h count)
  | lengthDelimited => exact consumes_discard lengthDelimited_consumes
  | key => exact consumes_discard key_consumes
  | skip id w => exact skipAt_consumes id w 0
  | skipAt id w depth => exact skipAt_consumes id w depth

theorem Reached.inside {buffer : List UInt8} {c : Cursor} (h : Reached buffer c) : c.In buffer := by
  induction h with
  | start => exact Cursor.in_ofBytes buffer
  | call _ call ih => exact (call.forward _).inside ih

/-- **A reader stays in its buffer.** Wherever calls have led to, the next call does not go back and
does not leave the buffer, and bytes that it gives are a part of the buffer; if it succeeds it takes a
byte, so stepping over a field ends, and a group too deep is refused where it begins. -/
theorem Reached.bounded {buffer : List UInt8} {c : Cursor} (h : Reached buffer c) (call : Call)
    {answer : Except Wire.Fault Unit} {c' : Cursor} (hrun : call.reader.runAt c = (answer, c')) :
    c.In buffer ∧ c'.In buffer ∧ c.position ≤ c'.position ∧
    (answer = .ok () → (∀ count, call ≠ .bytes count) → c.position < c'.position) ∧
    (∀ count content after, (bytes count).runAt c = (.ok content, after) →
      content.length = count ∧ after.position = c.position + count ∧
        content <:+ buffer.take after.position) ∧
    (∀ content after, lengthDelimited.runAt c = (.ok content, after) →
      c.position + content.length < after.position ∧ content <:+ buffer.take after.position) ∧
    (∀ id w depth r after, Skips (.payload id w depth) c r after ↔
      (Reader.skipAt id w depth).runAt c = (r, after)) ∧
    ∀ id w depth level place, Meets (.payload id w depth) c level place → recursionLimit ≤ level →
      (Reader.skipAt id w depth).runAt c = (.error .tooDeep, place) := by
  have hin := h.inside
  have hahead := forward_of_runAt call.forward hrun
  refine ⟨hin, hahead.inside hin, hahead.position_le, ?_, ?_, ?_,
    fun id w depth r after => skips_iff (s := .payload id w depth),
    fun id w depth level place hmeets hdeep => (Skips.of_meets hmeets hdeep).run_eq⟩
  · rintro rfl hcall
    exact hahead.position_lt (Call.consumes hcall _ _ _ hrun)
  · intro count content after hbytes
    obtain ⟨hlength, hrest, hposition⟩ := bytes_eq_ok hbytes
    refine ⟨hlength, by rw [hposition, hlength], hin.suffix [] ?_ hposition⟩
    rw [List.nil_append]
    exact hrest
  · intro content after hread
    obtain ⟨before, hbefore, hrest, hposition⟩ := lengthDelimited_eq_ok hread
    refine ⟨?_, hin.suffix before hrest hposition⟩
    rw [hposition, List.length_append]
    omega

/-- A group inside of a group is stepped over, after bytes were asked for that are not there; at the
last level but one it is refused. -/
theorem Reached.bounded_group :
    (Call.lengthDelimited.reader.runAt (.ofBytes [0x05, 0x0b, 0x0b, 0x0c, 0x0c])) =
      (.error (.truncated 5 4), ⟨1, [0x0b, 0x0b, 0x0c, 0x0c]⟩) ∧
    (Call.key.reader.runAt ⟨1, [0x0b, 0x0b, 0x0c, 0x0c]⟩).2 = ⟨2, [0x0b, 0x0c, 0x0c]⟩ ∧
    (Call.skip 1 .startGroup).reader.runAt ⟨2, [0x0b, 0x0c, 0x0c]⟩ = (.ok (), ⟨5, []⟩) ∧ 2 < 5 ∧
    (Reader.skipAt 1 .startGroup 99).runAt ⟨2, [0x0b, 0x0c, 0x0c]⟩ =
      (.error .tooDeep, ⟨3, [0x0c, 0x0c]⟩) := by
  have hfirst : (Call.lengthDelimited.reader.runAt (.ofBytes [0x05, 0x0b, 0x0b, 0x0c, 0x0c])) =
      (.error (.truncated 5 4), ⟨1, [0x0b, 0x0b, 0x0c, 0x0c]⟩) := by decide +kernel
  have hkey : (Call.key.reader.runAt ⟨1, [0x0b, 0x0b, 0x0c, 0x0c]⟩).2 =
      ⟨2, [0x0b, 0x0c, 0x0c]⟩ := by decide +kernel
  have hskip : (Call.skip 1 .startGroup).reader.runAt ⟨2, [0x0b, 0x0c, 0x0c]⟩ =
      (.ok (), ⟨5, []⟩) := by decide +kernel
  have hreached : Reached [0x05, 0x0b, 0x0b, 0x0c, 0x0c] ⟨2, [0x0b, 0x0c, 0x0c]⟩ := by
    have h : Reached [0x05, 0x0b, 0x0b, 0x0c, 0x0c] _ := .call .start .lengthDelimited
    rw [hfirst] at h
    have h' := h.call .key
    rwa [hkey] at h'
  have hinner : key.runAt ⟨2, [0x0b, 0x0c, 0x0c]⟩ = (.ok (1, .startGroup), ⟨3, [0x0c, 0x0c]⟩) := by
    decide +kernel
  have hmeets : Meets (.payload 1 .startGroup 99) ⟨2, [0x0b, 0x0c, 0x0c]⟩ 100 ⟨3, [0x0c, 0x0c]⟩ :=
    .inside (by decide) (.first hinner (by decide) .here)
  obtain ⟨-, -, -, hadvance, -, -, -, hdeep⟩ := hreached.bounded _ hskip
  exact ⟨hfirst, hkey, hskip, hadvance rfl (by simp), hdeep _ _ _ _ _ hmeets (by decide)⟩

end Reader

end Protobuf

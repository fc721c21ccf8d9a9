import Protobuf.Proofs.Wire.Item

/-!
# How far a read reaches

A read of the wire format is decided by the bytes that it takes: it gives the same value in front of
any other bytes that begin with these, and it does not matter how many bytes lie before them. This
holds of the items, of whole payloads, and so of records; it is what allows byte sequences to be cut
at the end of a record and to be put together again.

## Main definitions

* `Run.Takes`, `Run.Fails` — a read takes exactly these bytes for that value, or fails on them.
* `Run.Local` — whatever the bytes, a read does one of the two.
* `Wire.Spells` — bytes that are one record, however its key and its lengths are written.

## Main results

* `Wire.local_readPayload` — payloads are local, groups among them
* `Wire.readGroups_of_payload` — a group is read record by record, whatever lies in them
* `Wire.Stream.ofBytes_spells` — a record at the front of bytes is the first one that is read
* `Wire.Stream.ofBytes_append` — the records of two byte sequences follow each other
-/

namespace Protobuf

/-- What a reader does to a cursor. -/
abbrev Run (ε α : Type) := Cursor → Except ε α × Cursor

namespace Run

variable {ε ε' α β : Type}

/-- The read takes exactly `bytes` for `a`, whatever lies before and after them. -/
def Takes (run : Run ε α) (bytes : List UInt8) (a : α) : Prop :=
  ∀ (position : Nat) (rest : List UInt8),
    run ⟨position, bytes ++ rest⟩ = (.ok a, ⟨position + bytes.length, rest⟩)

/-- The read fails on `bytes`, however many lie before them. -/
def Fails (run : Run ε α) (bytes : List UInt8) (e : ε) : Prop :=
  ∀ position : Nat, ∃ c, run ⟨position, bytes⟩ = (.error e, c)

/-- What the read does with bytes is decided by those that it takes, or it fails. -/
inductive Decided (run : Run ε α) : List UInt8 → Prop
  | takes (taken : List UInt8) (a : α) (h : run.Takes taken a) (rest : List UInt8) :
      Decided run (taken ++ rest)
  | fails (bytes : List UInt8) (e : ε) (h : run.Fails bytes e) : Decided run bytes

/-- What the read does is decided by the bytes that it takes. -/
def Local (run : Run ε α) : Prop :=
  ∀ bytes, run.Decided bytes

theorem Local.takes {run : Run ε α} (h : run.Local) {c c' : Cursor} {a : α}
    (hrun : run c = (.ok a, c')) : ∃ bytes, c.rest = bytes ++ c'.rest ∧ run.Takes bytes a := by
  obtain ⟨position, all⟩ := c
  cases h all with
  | takes taken a' htakes rest =>
    rw [htakes, Prod.mk.injEq, Except.ok.injEq] at hrun
    obtain ⟨rfl, rfl⟩ := hrun
    exact ⟨taken, rfl, htakes⟩
  | fails _ e hfails =>
    obtain ⟨c'', herror⟩ := hfails position
    rw [hrun] at herror
    cases herror

theorem decided_ok (bytes : List UInt8) (a : α) :
    Decided (fun c => (.ok a, c) : Run ε α) bytes :=
  .takes [] a (fun _ _ => rfl) bytes

theorem decided_error (bytes : List UInt8) (e : ε) :
    Decided (fun c => (.error e, c) : Run ε α) bytes :=
  .fails bytes e fun position => ⟨⟨position, bytes⟩, rfl⟩

/-- What is done after some bytes have been taken is decided by the bytes behind them. -/
theorem Decided.after {run run' : Run ε α} {taken rest : List UInt8} (h : run'.Decided rest)
    (hstep : ∀ position rest,
      run ⟨position, taken ++ rest⟩ = run' ⟨position + taken.length, rest⟩) :
    run.Decided (taken ++ rest) := by
  cases h with
  | takes taken' a htakes rest =>
    rw [← List.append_assoc]
    refine .takes (taken ++ taken') a (fun position rest => ?_) rest
    rw [List.append_assoc, hstep, htakes, List.length_append, Nat.add_assoc]
  | fails _ e hfails =>
    refine .fails _ e fun position => ?_
    rw [hstep]
    exact hfails _

/-- One read, and another one behind the first. -/
def andThen (run : Run ε α) (fault : ε → ε') (next : α → Run ε' β) : Run ε' β := fun c =>
  match run c with
  | (.error e, c') => (.error (fault e), c')
  | (.ok a, c') => next a c'

theorem Decided.andThen {run : Run ε α} {fault : ε → ε'} {next : α → Run ε' β}
    {bytes : List UInt8} (h : run.Decided bytes)
    (hnext : ∀ taken a rest, bytes = taken ++ rest → (next a).Decided rest) :
    (run.andThen fault next).Decided bytes := by
  cases h with
  | takes taken a htakes rest =>
    refine (hnext taken a rest rfl).after fun position rest => ?_
    rw [Run.andThen, htakes]
  | fails _ e hfails =>
    refine .fails _ (fault e) fun position => ?_
    obtain ⟨c, hc⟩ := hfails position
    exact ⟨c, by rw [Run.andThen, hc]⟩

end Run

/-! ### Items -/

namespace Varint

/-- A varint ends with its last digit, so the bytes behind it are not looked at. -/
theorem scanFrom_takes {read : Nat} {bytes : List UInt8} {s : Scanned}
    (h : scanFrom read bytes = .ok s) : ∃ taken, bytes = taken ++ s.rest ∧
      ∀ rest, scanFrom read (taken ++ rest) = .ok ⟨s.value, taken.length, rest⟩ := by
  induction bytes generalizing read s with
  | nil => cases h
  | cons b more ih =>
    rw [scanFrom] at h
    split at h
    · cases h
    rename_i hroom
    split at h
    · rename_i hlast
      cases h
      refine ⟨[b], rfl, fun rest => ?_⟩
      rw [List.singleton_append, scanFrom, if_neg hroom, if_pos hlast]
      rfl
    · rename_i hmore
      split at h
      · rename_i s' hscan
        cases h
        obtain ⟨taken, rfl, htaken⟩ := ih hscan
        refine ⟨b :: taken, rfl, fun rest => ?_⟩
        rw [List.cons_append, scanFrom, if_neg hroom, if_neg hmore, htaken]
        rfl
      · cases h

end Varint

namespace Reader

variable {α β : Type}

theorem local_varint : Run.Local varint.runAt := by
  intro bytes
  cases hscan : Varint.scan bytes with
  | ok s =>
    obtain ⟨taken, rfl, htaken⟩ := Varint.scanFrom_takes hscan
    refine .takes taken s.value.toUInt64 (fun position rest => ?_) s.rest
    simp only [runAt, varint, ExceptT.run, ExceptT.mk, StateT.run, Varint.scan, htaken]
  | error failure =>
    have hrun : ∃ fault, ∀ position, varint.runAt ⟨position, bytes⟩ =
        (.error fault, ⟨position, bytes⟩) := by
      simp only [runAt, varint, ExceptT.run, ExceptT.mk, StateT.run, hscan]
      cases failure with
      | ended read => exact ⟨.truncated (read + 1) read, fun _ => rfl⟩
      | overflow => exact ⟨.varintOverflow, fun _ => rfl⟩
    obtain ⟨fault, hrun⟩ := hrun
    exact .fails bytes fault fun position => ⟨_, hrun position⟩

theorem local_bytes (count : Nat) : Run.Local (bytes count).runAt := by
  intro all
  by_cases hshort : all.length < count
  · refine .fails all (.truncated count all.length) fun position => ⟨⟨position, all⟩, ?_⟩
    simp only [runAt, bytes, ExceptT.run, ExceptT.mk, StateT.run,
      List.take_of_length_le (Nat.le_of_lt hshort), if_pos hshort]
  · rw [← List.take_append_drop count all]
    exact .takes _ _ (reads_bytes (List.length_take_of_le (Nat.not_lt.mp hshort))) _

theorem local_pure (a : α) : Run.Local (pure a : Reader α).runAt :=
  fun bytes => Run.decided_ok bytes a

theorem local_throw (fault : Wire.Fault) : Run.Local (throw fault : Reader α).runAt :=
  fun bytes => Run.decided_error bytes fault

theorem runAt_bind_eq (r : Reader α) (f : α → Reader β) :
    (r >>= f).runAt = Run.andThen r.runAt id fun a => (f a).runAt := by
  funext c
  rw [runAt_bind, Run.andThen]
  rcases r.runAt c with ⟨fault | a, c'⟩ <;> rfl

theorem local_bind {r : Reader α} {f : α → Reader β} (hr : Run.Local r.runAt)
    (hf : ∀ a, Run.Local (f a).runAt) : Run.Local (r >>= f).runAt := by
  rw [runAt_bind_eq]
  exact fun bytes => (hr bytes).andThen fun _ a rest _ => hf a rest

theorem local_map {r : Reader α} (hr : Run.Local r.runAt) (f : α → β) :
    Run.Local (f <$> r).runAt := by
  rw [← bind_pure_comp]
  exact local_bind hr fun a => local_pure (f a)

theorem local_lengthDelimited : Run.Local lengthDelimited.runAt :=
  local_bind local_varint fun count => local_bytes count.toNat

theorem local_key : Run.Local key.runAt := by
  refine local_bind local_varint fun k => ?_
  split
  · exact local_pure _
  · exact local_throw _

theorem key_consumes : key.Consumes :=
  fun _ _ _ h => key_shorter h

theorem not_atEnd_of_key {c c' : Cursor} {field : UInt32 × WireType}
    (h : key.runAt c = (.ok field, c')) : ¬(c.atEnd = true) := by
  have hlt := key_shorter h
  rw [Cursor.atEnd, List.isEmpty_iff]
  intro hnil
  rw [hnil] at hlt
  exact absurd hlt (Nat.not_lt_zero _)

end Reader

namespace Wire

/-! ### Payloads -/

theorem local_readPlain (w : WireType) : Run.Local (readPlain w).runAt := by
  cases w with
  | varint => exact Reader.local_map Reader.local_varint _
  | fixed64 => exact Reader.local_map (Reader.local_map (Reader.local_bytes 8) _) _
  | lengthDelimited => exact Reader.local_map Reader.local_lengthDelimited _
  | startGroup => exact Reader.local_throw _
  | endGroup => exact Reader.local_throw _
  | fixed32 => exact Reader.local_map (Reader.local_map (Reader.local_bytes 4) _) _

/-- What the loop over groups does after a key. -/
def readInside (g : OpenGroup) (outer : List OpenGroup) (done : List Record) :
    UInt32 × WireType → Run Ending Payload
  | (id, .endGroup), c =>
    if g.id = id then
      match outer with
      | [] => (.ok (.group done.reverse), c)
      | g' :: outer => readGroups g' outer ((g.id, .group done.reverse) :: g.before) c
    else (.error ((Ending.closed id).within g done outer), c)
  | (id, .startGroup), c => readGroups ⟨id, done⟩ (g :: outer) [] c
  | (id, w), c => Run.andThen (readPlain w).runAt
      (fun fault => (Ending.badPayload id w fault).within g done outer)
      (fun p => readGroups g outer ((id, p) :: done)) c

theorem readInside_plain {g : OpenGroup} {outer : List OpenGroup} {done : List Record} {id : UInt32}
    {w : WireType} (hstart : w ≠ .startGroup) (hend : w ≠ .endGroup) :
    readInside g outer done (id, w) = Run.andThen (readPlain w).runAt
      (fun fault => (Ending.badPayload id w fault).within g done outer)
      fun p => readGroups g outer ((id, p) :: done) := by
  cases w with
  | startGroup => exact absurd rfl hstart
  | endGroup => exact absurd rfl hend
  | _ => rfl

section Loop

variable {g : OpenGroup} {outer : List OpenGroup} {done : List Record}

theorem readGroups_eq (c : Cursor) :
    readGroups g outer done c =
      if c.atEnd then (.error (Ending.atEnd.within g done outer), c)
      else Run.andThen Reader.key.runAt (fun fault => (Ending.badKey fault).within g done outer)
        (readInside g outer done) c := by
  rw [readGroups, Run.andThen]
  split
  · rfl
  · rcases Reader.key.runAt c with ⟨fault | ⟨id, w⟩, c'⟩
    · rfl
    · cases w <;>
        first
        | rfl
        | (dsimp only [readInside, Run.andThen]
           rcases (readPlain _).runAt c' with ⟨fault | p, c''⟩ <;> rfl)

theorem readGroups_of_key {field : UInt32 × WireType} {c c' : Cursor}
    (hkey : Reader.key.runAt c = (.ok field, c')) :
    readGroups g outer done c = readInside g outer done field c' := by
  rw [readGroups_eq, if_neg (Reader.not_atEnd_of_key hkey), Run.andThen, hkey]

theorem decided_readInside {rest : List UInt8} (field : UInt32 × WireType)
    (ih : ∀ g outer done rest', rest'.length ≤ rest.length →
      Run.Decided (readGroups g outer done) rest') :
    (readInside g outer done field).Decided rest := by
  obtain ⟨id, w⟩ := field
  by_cases hend : w = .endGroup
  · subst hend
    show Run.Decided (fun c => if g.id = id then _ else _) rest
    split
    · cases outer with
      | nil => exact Run.decided_ok rest _
      | cons g' outer => exact ih g' outer _ rest (Nat.le_refl _)
    · exact Run.decided_error rest _
  by_cases hstart : w = .startGroup
  · subst hstart
    exact ih ⟨id, done⟩ (g :: outer) [] rest (Nat.le_refl _)
  · rw [readInside_plain hstart hend]
    refine (local_readPlain w rest).andThen fun taken p rest' hrest => ih _ _ _ _ ?_
    rw [hrest, List.length_append]
    exact Nat.le_add_left _ _

end Loop

/-- The loop over groups is decided by the bytes up to the end tag of the outermost group. The
induction is on the bytes that are left, since the stack of open groups may grow. -/
theorem local_readGroups (g : OpenGroup) (outer : List OpenGroup) (done : List Record) :
    Run.Local (readGroups g outer done) := by
  intro bytes
  induction hn : bytes.length using Nat.strongRecOn generalizing g outer done bytes with
  | ind n ih =>
    subst hn
    cases Reader.local_key bytes with
    | takes k field hkey rest =>
      refine (decided_readInside field fun g outer done rest' hle => ?_).after
        fun position rest => readGroups_of_key (hkey position rest)
      have hlt : rest'.length < (k ++ rest).length := by
        have := List.length_pos_iff.mpr (Reader.Reads.ne_nil hkey Reader.key_consumes)
        rw [List.length_append]
        omega
      exact ih _ hlt g outer done rest' rfl
    | fails _ fault hfails =>
      by_cases hend : bytes = []
      · subst hend
        exact .fails [] (Ending.atEnd.within g done outer) fun position =>
          ⟨⟨position, []⟩, by rw [readGroups_eq]; exact if_pos rfl⟩
      · refine .fails bytes ((Ending.badKey fault).within g done outer) fun position => ?_
        obtain ⟨c, hc⟩ := hfails position
        refine ⟨c, ?_⟩
        rw [readGroups_eq, if_neg (by simpa [Cursor.atEnd] using hend), Run.andThen, hc]

/-- A payload that is no group is plain. -/
theorem readPayload_eq {id : UInt32} {w : WireType} (hw : w ≠ .startGroup) :
    readPayload id w =
      Run.andThen (readPlain w).runAt (.badPayload id w) fun p c => (.ok p, c) := by
  funext c
  rw [readPayload, Run.andThen]
  · rcases (readPlain w).runAt c with ⟨fault | p, c'⟩ <;> rfl
  · exact hw

theorem local_readPayload (id : UInt32) (w : WireType) : Run.Local (readPayload id w) := by
  by_cases hw : w = .startGroup
  · subst hw
    exact local_readGroups ⟨id, []⟩ [] []
  · rw [readPayload_eq hw]
    exact fun bytes => (local_readPlain w bytes).andThen fun _ p rest _ => Run.decided_ok rest p

/-! ### Groups in groups -/

theorem Ending.within_append (ending : Ending) (g : OpenGroup) (done : List Record)
    (inside : List OpenGroup) (g' : OpenGroup) (outer : List OpenGroup) :
    ending.within g done (inside ++ g' :: outer) =
      (ending.within g done inside).within g'
        ((g :: inside).getLast (List.cons_ne_nil _ _)).before outer := by
  induction inside generalizing ending g done with
  | nil => rfl
  | cons g₁ inside ih => exact ih _ g₁ _

/-- A group that lies in others is read to its end, and then the others are. -/
theorem readGroups_append (g : OpenGroup) (inside : List OpenGroup) (g' : OpenGroup)
    (outer : List OpenGroup) (done : List Record) (c : Cursor) :
    readGroups g (inside ++ g' :: outer) done c =
      let last := (g :: inside).getLast (List.cons_ne_nil _ _)
      Run.andThen (readGroups g inside done) (fun ending => ending.within g' last.before outer)
        (fun p => readGroups g' outer ((last.id, p) :: last.before)) c := by
  dsimp only
  rw [Run.andThen]
  fun_induction readGroups g inside done c with
  | case1 g inside done c hend =>
    rw [readGroups_eq, if_pos hend, Ending.within_append]
  | case2 g inside done c hend fault c₁ hkey =>
    rw [readGroups_eq, if_neg hend, Run.andThen, hkey]
    dsimp only
    rw [Ending.within_append]
  | case3 g done c _ c₁ hkey =>
    rw [List.nil_append, readGroups_of_key hkey, readInside, if_pos rfl]
    rfl
  | case4 g done c _ c₁ g₁ inside hkey ih =>
    rw [List.unattach_reverse, List.unattach_attach] at ih
    rw [readGroups_of_key hkey, List.cons_append, readInside, if_pos rfl]
    exact ih
  | case5 g inside done c _ id c₁ hkey hid =>
    rw [readGroups_of_key hkey]
    simp only [readInside, if_neg hid, Ending.within_append]
  | case6 g inside done c _ id c₁ hkey ih =>
    rw [readGroups_of_key hkey]
    exact ih
  | case7 g inside done c _ id w c₁ hend hstart hkey fault c₂ hplain =>
    rw [readGroups_of_key hkey, readInside_plain hstart hend, Run.andThen, hplain]
    dsimp only
    rw [Ending.within_append]
  | case8 g inside done c _ id w c₁ hend hstart hkey p c₂ hplain ih =>
    rw [readGroups_of_key hkey, readInside_plain hstart hend, Run.andThen, hplain]
    exact ih

/-- What stands before a group does not matter to what is in it. -/
theorem readGroups_root (id : UInt32) (before before' done : List Record) (c : Cursor) :
    readGroups ⟨id, before⟩ [] done c = readGroups ⟨id, before'⟩ [] done c := by
  induction hn : c.rest.length using Nat.strongRecOn generalizing done c with
  | ind n ih =>
    subst hn
    rw [readGroups_eq, readGroups_eq]
    split
    · rfl
    · rw [Run.andThen, Run.andThen]
      rcases hkey : Reader.key.runAt c with ⟨fault | ⟨i, w⟩, c₁⟩
      · rfl
      have hlt := Reader.key_shorter hkey
      have hmore : ∀ p c₂, c₂.rest.length ≤ c₁.rest.length →
          readGroups ⟨id, before⟩ [] ((i, p) :: done) c₂ =
            readGroups ⟨id, before'⟩ [] ((i, p) :: done) c₂ :=
        fun p c₂ hle => ih _ (Nat.lt_of_le_of_lt hle hlt) _ c₂ rfl
      by_cases hend : w = .endGroup
      · subst hend
        rfl
      by_cases hstart : w = .startGroup
      · subst hstart
        -- a group that lies in this one is read by itself, and then this one goes on
        have hsplit : ∀ before, readInside ⟨id, before⟩ [] done (i, .startGroup) c₁ = _ :=
          fun before => readGroups_append ⟨i, done⟩ [] ⟨id, before⟩ [] [] c₁
        dsimp only
        rw [hsplit, hsplit]
        dsimp only [Run.andThen, List.getLast_singleton]
        rcases hgroup : readGroups ⟨i, done⟩ [] [] c₁ with ⟨ending | p, c₂⟩
        · rfl
        · exact hmore p c₂ (readGroups_le hgroup)
      · dsimp only
        rw [readInside_plain hstart hend, readInside_plain hstart hend, Run.andThen, Run.andThen]
        rcases hplain : (readPlain w).runAt c₁ with ⟨fault | p, c₂⟩
        · rfl
        · exact hmore p c₂ (Nat.le_of_lt (readPlain_consumes w _ _ _ hplain))

/-- The records of a group are read one after the other, whatever lies in them. -/
theorem readGroups_of_payload {g : OpenGroup} {outer : List OpenGroup} {done : List Record}
    {id : UInt32} {w : WireType} {c c' : Cursor} (hkey : Reader.key.runAt c = (.ok (id, w), c'))
    (hend : w ≠ .endGroup) :
    readGroups g outer done c = Run.andThen (readPayload id w)
      (fun ending => ending.within g done outer) (fun p => readGroups g outer ((id, p) :: done))
      c' := by
  rw [readGroups_of_key hkey]
  by_cases hstart : w = .startGroup
  · subst hstart
    have hsplit := readGroups_append ⟨id, done⟩ [] g outer [] c'
    dsimp only [Run.andThen, List.getLast_singleton] at hsplit
    rw [readGroups_root id done []] at hsplit
    exact hsplit
  · rw [readInside_plain hstart hend, readPayload_eq hstart, Run.andThen, Run.andThen, Run.andThen]
    rcases (readPlain w).runAt c' with ⟨fault | p, c''⟩ <;> rfl

/-! ### Records -/

/-- The bytes are one record, though its key and its lengths may be written in more bytes than are
needed. -/
inductive Spells : List UInt8 → Record → Prop
  | intro {k body : List UInt8} {id : UInt32} {w : WireType} {p : Payload}
      (key : Run.Takes Reader.key.runAt k (id, w)) (opens : w ≠ .endGroup)
      (payload : Run.Takes (readPayload id w) body p) : Spells (k ++ body) (id, p)

theorem Spells.length_pos {u : List UInt8} {r : Record} (h : Spells u r) : 0 < u.length := by
  obtain ⟨hkey, -, -⟩ := h
  have := List.length_pos_iff.mpr (Reader.Reads.ne_nil hkey Reader.key_consumes)
  rw [List.length_append]
  omega

theorem Ending.within_ne_atEnd (ending : Ending) (g : OpenGroup) (done : List Record)
    (outer : List OpenGroup) : ending.within g done outer ≠ .atEnd := by
  induction outer generalizing ending g done with
  | nil => simp [within]
  | cons g' outer ih => exact ih _ _ _

/-- Groups do not just stop. -/
theorem ne_atEnd_of_readGroups {g : OpenGroup} {outer : List OpenGroup} {done : List Record}
    {c c' : Cursor} {ending : Ending} (h : readGroups g outer done c = (.error ending, c')) :
    ending ≠ .atEnd := by
  fun_induction readGroups g outer done c with
  | case1 | case2 | case5 | case7 =>
    cases h
    exact Ending.within_ne_atEnd _ _ _ _
  | case3 => cases h
  | case4 =>
    rename_i ih
    exact ih (by simpa using h)
  | case6 | case8 =>
    rename_i ih
    exact ih h

theorem ne_atEnd_of_readPayload {id : UInt32} {w : WireType} {c c' : Cursor} {ending : Ending}
    (h : readPayload id w c = (.error ending, c')) : ending ≠ .atEnd := by
  by_cases hw : w = .startGroup
  · subst hw
    exact ne_atEnd_of_readGroups h
  · rw [readPayload_eq hw, Run.andThen] at h
    split at h <;> cases h
    simp

namespace Stream

theorem scan_eq (done : List Record) (c : Cursor) :
    scan done c =
      if c.atEnd then ⟨done.reverse, .atEnd⟩
      else match Reader.key.runAt c with
        | (.error fault, _) => ⟨done.reverse, .badKey fault⟩
        | (.ok (id, .endGroup), _) => ⟨done.reverse, .closed id⟩
        | (.ok (id, w), c') =>
          match readPayload id w c' with
          | (.error ending, _) => ⟨done.reverse, ending⟩
          | (.ok p, c'') => scan ((id, p) :: done) c'' := by
  rw [scan]
  split
  · rfl
  · rcases Reader.key.runAt c with ⟨fault | ⟨id, w⟩, c'⟩
    · rfl
    · cases w <;>
        first
        | rfl
        | (dsimp only
           rcases readPayload id _ c' with ⟨fault | p, c''⟩ <;> rfl)

theorem scan_nil (done : List Record) (position : Nat) :
    scan done ⟨position, []⟩ = ⟨done.reverse, .atEnd⟩ := by
  rw [scan_eq]
  exact if_pos rfl

theorem scan_spells {u : List UInt8} {r : Record} (h : Spells u r) (done : List Record)
    (position : Nat) (rest : List UInt8) :
    scan done ⟨position, u ++ rest⟩ = scan (r :: done) ⟨position + u.length, rest⟩ := by
  obtain ⟨hkey, hopens, hpayload⟩ := h
  rename_i k body id w p
  rw [List.append_assoc, scan_eq, if_neg (Reader.not_atEnd_of_key (hkey _ _)), hkey,
    List.length_append, ← Nat.add_assoc]
  cases w with
  | endGroup => exact absurd rfl hopens
  | _ =>
    dsimp only
    rw [hpayload]

/-- What may stand at the front of bytes: nothing, a record, or something that no record begins
with. -/
inductive Front : List UInt8 → Prop
  | nothing : Front []
  | record (u : List UInt8) (r : Record) (h : Spells u r) (rest : List UInt8) : Front (u ++ rest)
  | broken (bytes : List UInt8) (ending : Ending) (hne : ending ≠ .atEnd)
      (h : ∀ done position, scan done ⟨position, bytes⟩ = ⟨done.reverse, ending⟩) : Front bytes

theorem front (bytes : List UInt8) : Front bytes := by
  cases Reader.local_key bytes with
  | fails _ fault hfails =>
    by_cases hend : bytes = []
    · subst hend
      exact .nothing
    · refine .broken bytes (.badKey fault) (by simp) fun done position => ?_
      obtain ⟨c, hc⟩ := hfails position
      rw [scan_eq, if_neg (by simpa [Cursor.atEnd] using hend), hc]
  | takes k field hkey rest =>
    obtain ⟨id, w⟩ := field
    have hscan : ∀ done position rest, scan done ⟨position, k ++ rest⟩ = _ :=
      fun done position rest => by
        rw [scan_eq, if_neg (Reader.not_atEnd_of_key (hkey _ _)), hkey]
    by_cases hend : w = .endGroup
    · subst hend
      exact .broken _ (.closed id) (by simp) fun done position => hscan done position rest
    · cases local_readPayload id w rest with
      | takes body p hpayload rest =>
        rw [← List.append_assoc]
        exact .record (k ++ body) (id, p) (.intro hkey hend hpayload) rest
      | fails _ ending hfails =>
        refine .broken _ ending ?_ fun done position => ?_
        · obtain ⟨c, hc⟩ := hfails 0
          exact ne_atEnd_of_readPayload hc
        · obtain ⟨c, hc⟩ := hfails (position + k.length)
          rw [hscan]
          cases w with
          | endGroup => exact absurd rfl hend
          | _ =>
            dsimp only
            rw [hc]

/-- Records that have been read already stand before those of the bytes that follow. -/
theorem scan_eq_ofBytes (done : List Record) (position : Nat) (bytes : List UInt8) :
    scan done ⟨position, bytes⟩ =
      ⟨done.reverse ++ (ofBytes bytes).records, (ofBytes bytes).ending⟩ := by
  induction hn : bytes.length using Nat.strongRecOn generalizing done position bytes with
  | ind n ih =>
    subst hn
    cases front bytes with
    | nothing => rw [ofBytes, Cursor.ofBytes, scan_nil, scan_nil, List.reverse_nil, List.append_nil]
    | record u r hu rest =>
      have hlt : rest.length < (u ++ rest).length := by
        have := hu.length_pos
        rw [List.length_append]
        omega
      rw [ofBytes, Cursor.ofBytes, scan_spells hu, scan_spells hu, ih _ hlt _ _ rest rfl,
        ih _ hlt _ _ rest rfl, List.reverse_cons, List.append_assoc]
      rfl
    | broken _ ending _ hscan =>
      rw [ofBytes, Cursor.ofBytes, hscan, hscan, List.reverse_nil, List.append_nil]

@[simp] theorem ofBytes_nil : ofBytes [] = ⟨[], .atEnd⟩ :=
  scan_nil [] 0

/-- A record at the front of bytes is the first one that is read from them. -/
theorem ofBytes_spells {u : List UInt8} {r : Record} (h : Spells u r) (rest : List UInt8) :
    ofBytes (u ++ rest) = ⟨r :: (ofBytes rest).records, (ofBytes rest).ending⟩ := by
  rw [ofBytes, Cursor.ofBytes, scan_spells h, scan_eq_ofBytes]
  rfl

/-- Behind bytes that end with a record, reading starts anew. -/
theorem ofBytes_append {a : List UInt8} (h : (ofBytes a).ending = .atEnd) (b : List UInt8) :
    ofBytes (a ++ b) = ⟨(ofBytes a).records ++ (ofBytes b).records, (ofBytes b).ending⟩ := by
  induction hn : a.length using Nat.strongRecOn generalizing a with
  | ind n ih =>
    subst hn
    cases front a with
    | nothing => rw [List.nil_append, ofBytes_nil, List.nil_append]
    | record u r hu rest =>
      have hlt : rest.length < (u ++ rest).length := by
        have := hu.length_pos
        rw [List.length_append]
        omega
      rw [ofBytes_spells hu] at h
      rw [List.append_assoc, ofBytes_spells hu, ofBytes_spells hu, ih _ hlt h rfl]
      rfl
    | broken _ ending hne hscan =>
      rw [ofBytes, Cursor.ofBytes, hscan] at h
      exact absurd h hne

end Stream

end Wire

end Protobuf

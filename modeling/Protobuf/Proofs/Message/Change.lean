import Protobuf.Proofs.Message.Carried

/-!
# Records as changes

What a record does to the message that is being read depends on the type of the message, but not on
what has been read before: a record says that a value is put, that elements are appended, or that an
entry is added to a map. So reading a message is done in two passes, in which first the records are
turned into changes, and then the changes are applied one after the other. The first pass is the one
that is refused and that notes what is absent inside; the second one is a plain fold over messages.

## Main definitions

* `Change`, `Change.apply` — what a record does to a message.
* `Decoding.change` — the change that a record makes.
* `Decoding.Steady` — reading does not depend on what has been noted before.
* `Message.IsReadFrom` — bytes are read as a message, though required fields may be absent from it.

## Main results

* `Decoding.messageWith_eq` — reading a message is reading changes and applying them
* `Decoding.message_eq_ok` — when a message is read, and what is noted
* `Message.isReadFrom_iff` — the same for bytes
-/

namespace Protobuf

/-- What a record does to the message that it is taken into. -/
inductive Change where
  | keep
  | put (f : NodeId) (v : Value)
  | append (f : NodeId) (items : List Value)
  | putEntry (f : NodeId) (s : Slot) (keyType : Scalar) (key : Atom) (v : Value)

namespace Change

/-- The message after a change. -/
def apply (m : Message) : Change → Message
  | keep => m
  | put f v => m.put f v
  | append f items => m.append f items
  | putEntry f s keyType key v => m.putEntry f s keyType key v

/-- A message that is being read, after a change. The last element of a list stands first in it. -/
def applyTurned (m : Message) : Change → Message
  | append f items => Decoding.prepend m f items
  | c => c.apply m

/-- Only single values are put. -/
def PutsSingle : Change → Prop
  | put _ v => Decoding.turnValue v = v
  | _ => True

theorem type_apply (m : Message) (c : Change) : (c.apply m).type = m.type := by
  cases c with
  | keep => rfl
  | put f v => exact Decoding.type_put m f v
  | append f items =>
    rw [apply, Message.append]
    split <;> rfl
  | putEntry f s keyType key v => exact Decoding.type_putEntry m f s keyType key v

theorem type_applyTurned (m : Message) (c : Change) : (c.applyTurned m).type = m.type := by
  cases c with
  | append f items => exact Decoding.type_prepend m f items
  | _ => exact type_apply m _

theorem type_foldl (m : Message) (cs : List Change) : (cs.foldl apply m).type = m.type := by
  induction cs generalizing m with
  | nil => rfl
  | cons c more ih => rw [List.foldl_cons, ih, type_apply]

/-- Where no defaults are asked for, the changes are all that there is to a message. -/
theorem populate_foldl {t : MessageType} (h : t.graph.settings.populateDefaults = false)
    (cs : List Change) :
    (cs.foldl apply (Message.empty t)).populate = cs.foldl apply (Message.empty t) := by
  rw [Message.populate, Message.graph, type_foldl]
  exact if_neg (by simpa [Message.empty] using h)

theorem turn_erase (m : Message) (f : NodeId) :
    Decoding.turn (m.erase f) = (Decoding.turn m).erase f := by
  simp only [Decoding.turn, Message.erase, Keyed.erase, List.filter_map]
  rfl

theorem turn_foldl_erase (m : Message) (fields : List NodeId) :
    Decoding.turn (fields.foldl Message.erase m) =
      fields.foldl Message.erase (Decoding.turn m) := by
  induction fields generalizing m with
  | nil => rfl
  | cons f more ih => rw [List.foldl_cons, List.foldl_cons, ih, turn_erase]

theorem turn_putEntry (m : Message) (f : NodeId) (s : Slot) (keyType : Scalar) (key : Atom)
    (v : Value) :
    Decoding.turn (m.putEntry f s keyType key v) =
      (Decoding.turn m).putEntry f s keyType key v := by
  rw [Message.putEntry, Message.putEntry, Decoding.value?_turn]
  cases m.value? f with
  | none => exact Decoding.turn_insert _ _ _
  | some w => cases w <;> first | rfl | exact Decoding.turn_insert _ _ _

/-- What is done to a message while it is being read is done to the message that it will be. -/
theorem turn_applyTurned (m : Message) {c : Change} (h : c.PutsSingle) :
    Decoding.turn (c.applyTurned m) = c.apply (Decoding.turn m) := by
  cases c with
  | keep => rfl
  | put f v =>
    show Decoding.turn (((m.rivals f).foldl Message.erase m).insert f v) = _
    rw [Decoding.turn_insert, turn_foldl_erase, show Decoding.turnValue v = v from h]
    rfl
  | append f items => exact Decoding.turn_prepend m f items
  | putEntry f s keyType key v => exact turn_putEntry m f s keyType key v

theorem turn_foldl (m : Message) {cs : List Change} (h : ∀ c ∈ cs, c.PutsSingle) :
    Decoding.turn (cs.foldl applyTurned m) = cs.foldl apply (Decoding.turn m) := by
  induction cs generalizing m with
  | nil => rfl
  | cons c more ih =>
    rw [List.foldl_cons, List.foldl_cons, ih _ fun c hc => h c (List.mem_cons_of_mem _ hc),
      turn_applyTurned m (h c List.mem_cons_self)]

end Change

namespace Decoding

/-! ### The change that a record makes -/

/-- The change that a payload makes that is laid out as the field wants it. -/
def shapedChange (inner : Inner) (levels : Nat) (t : MessageType) (f : NodeId) (s : Slot) :
    Shape → Wire.Payload → Decoding Change
  | .single, p => return .put f (← value inner t s p)
  | .list, .bytes content => do
    if s.isPackable then return .append f (← packed s content)
    else return .append f [← value inner t s (.bytes content)]
  | .list, p => return .append f [← value inner t s p]
  | .map key, .bytes content => do
    let (k, v) ← entry inner levels t s key content
    return .putEntry f s key k v
  | .map _, p => throw (.wireTypeMismatch s.label s.wireType p.wireType)

/-- The change that the payload of a field makes. -/
def fieldChange (inner : Inner) (levels : Nat) (t : MessageType) (f : NodeId) (s : Slot)
    (p : Wire.Payload) : Decoding Change := do
  expect s p.wireType
  shapedChange inner levels t f s s.shape p

/-- The change that a record makes. -/
def change (inner : Inner) (levels : Nat) (t : MessageType) : Wire.Record → Decoding Change
  | (id, p) => do
    match t.fieldById? id with
    | some f => fieldChange inner levels t f (← slot t.graph f) p
    | none =>
      pass levels p
      return .keep

section

variable {inner : Inner} {levels : Nat} {t : MessageType}

theorem field_eq (m : Message) (f : NodeId) (s : Slot) (p : Wire.Payload) :
    field inner levels m f s p =
      Change.applyTurned m <$> fieldChange inner levels m.type f s p := by
  simp only [field, fieldChange, map_bind]
  congr 1
  funext _
  cases s.shape with
  | single => simp only [shapedChange, map_bind, map_pure]; rfl
  | list =>
    cases p with
    | bytes content =>
      dsimp only [shapedChange]
      split
      · simp only [map_bind, map_pure]
        rfl
      · simp only [map_bind, map_pure]
        rfl
    | _ => simp only [shapedChange, map_bind, map_pure]; rfl
  | map key =>
    cases p with
    | bytes content => simp only [shapedChange, map_bind, map_pure]; rfl
    | _ => rfl

theorem record_eq (m : Message) (r : Wire.Record) :
    record inner levels m r = Change.applyTurned m <$> change inner levels m.type r := by
  obtain ⟨id, p⟩ := r
  rw [record, change]
  cases m.type.fieldById? id with
  | some f =>
    simp only [map_bind, field_eq]
    rfl
  | none =>
    simp only [map_bind, map_pure]
    rfl

theorem foldlM_record (m : Message) (records : List Wire.Record) :
    records.foldlM (record inner levels) m =
      (fun cs => cs.foldl Change.applyTurned m) <$> records.mapM (change inner levels m.type) := by
  induction records generalizing m with
  | nil => simp
  | cons r more ih =>
    simp only [List.foldlM_cons, List.mapM_cons, record_eq, bind_map_left, map_bind, map_pure]
    congr 1
    funext c
    rw [ih, Change.type_applyTurned, map_eq_pure_bind]
    rfl

/-! ### Messages -/

/-- A single value is no list. -/
theorem yields_value (s : Slot) (p : Wire.Payload) :
    Yields (value inner t s p) fun v => turnValue v = v := by
  simp only [value]
  split
  · exact (Yields.trivial.mono fun _ _ => rfl).map
  · exact (Yields.trivial.mono fun _ _ => rfl).map
  · exact (Yields.trivial.mono fun _ _ => rfl).map

theorem yields_fieldChange (f : NodeId) (s : Slot) (p : Wire.Payload) :
    Yields (fieldChange inner levels t f s p) Change.PutsSingle := by
  rw [fieldChange]
  refine Yields.andThen fun _ => ?_
  unfold shapedChange
  split
  · exact (yields_value s _).bind fun v hv => Yields.pure hv
  · split
    · exact Yields.andThen fun items => Yields.pure trivial
    · exact Yields.andThen fun v => Yields.pure trivial
  · exact Yields.andThen fun v => Yields.pure trivial
  · exact Yields.andThen fun e => Yields.pure trivial
  · exact Yields.throw _

theorem yields_change (r : Wire.Record) : Yields (change inner levels t r) Change.PutsSingle := by
  obtain ⟨id, p⟩ := r
  rw [change]
  split
  · exact Yields.andThen fun s => yields_fieldChange _ s p
  · exact Yields.andThen fun _ => Yields.pure trivial

/-- The end of a message: its bytes have to be used up, and required fields that are absent are
noted. -/
def conclude (inner : Inner) (levels : Nat) (t : MessageType) (ending : Wire.Ending) (m : Message) :
    Decoding Message := do
  finish inner levels t (known t) (fun id => throw (.unexpectedEndGroup id)) ending
  modify (· ++ m.missingFields)
  return m.populate

/-- Reading a message is reading the changes that its records make, and applying them. -/
theorem messageWith_eq (stream : Wire.Stream) :
    messageWith inner levels t stream = stream.records.mapM (change inner levels t) >>= fun cs =>
      conclude inner levels t stream.ending (cs.foldl Change.apply (Message.empty t)) := by
  have hturn : turn <$> stream.records.foldlM (record inner levels) (Message.empty t) =
      (fun cs => cs.foldl Change.apply (Message.empty t)) <$>
        stream.records.mapM (change inner levels t) := by
    rw [foldlM_record, Functor.map_map]
    exact Yields.map_congr ((Yields.mapM fun r _ => yields_change r).mono
      fun _ h => Change.turn_foldl _ h)
  calc messageWith inner levels t stream
      = turn <$> stream.records.foldlM (record inner levels) (Message.empty t) >>=
          conclude inner levels t stream.ending := by rw [bind_map_left]; rfl
    _ = _ := by rw [hturn, bind_map_left]

/-! ### Notes -/

end

/-- What the action gives and what it notes does not depend on what has been noted before. Fields
that are absent are no reason to refuse anything. -/
structure Steady {α : Type} (p : Decoding α) : Prop where
  run : ∀ noted, p.run noted = (p.run []).map fun r => (r.1, noted ++ r.2)
  refusal : ∀ e, p.run [] = .error e → e.isRefusal

namespace Steady

variable {α β : Type} {p : Decoding α} {f : α → Decoding β}

theorem pure (a : α) : Steady (Pure.pure a : Decoding α) := by
  constructor
  · intro noted
    show Except.ok (a, noted) = Except.ok (a, noted ++ [])
    rw [List.append_nil]
  · intro e h
    cases h

theorem throw {e : DecodeError} (he : e.isRefusal) :
    Steady (MonadExcept.throw e : Decoding α) := by
  constructor
  · intro noted
    rfl
  · intro e' h
    cases h
    exact he

theorem note (missing : List String) : Steady (modify (· ++ missing) : Decoding PUnit) :=
  ⟨fun _ => rfl, fun _ h => by cases h⟩

theorem bind (hp : Steady p) (hf : ∀ a, Steady (f a)) : Steady (p >>= f) := by
  constructor
  · intro noted
    rw [StateT.run_bind, StateT.run_bind, hp.run]
    cases p.run [] with
    | error e => rfl
    | ok r =>
      show (f r.1).run (noted ++ r.2) = ((f r.1).run r.2).map fun r' => (r'.1, noted ++ r'.2)
      rw [(hf r.1).run (noted ++ r.2), (hf r.1).run r.2]
      cases (f r.1).run [] with
      | error e => rfl
      | ok r' =>
        show Except.ok (r'.1, noted ++ r.2 ++ r'.2) = Except.ok (r'.1, noted ++ (r.2 ++ r'.2))
        rw [List.append_assoc]
  · intro e h
    rw [StateT.run_bind] at h
    cases hfirst : p.run [] with
    | error e' =>
      rw [hfirst] at h
      cases h
      exact hp.refusal e hfirst
    | ok r =>
      rw [hfirst] at h
      change (f r.1).run r.2 = .error e at h
      rw [(hf r.1).run] at h
      cases hsecond : (f r.1).run [] with
      | error e' =>
        rw [hsecond] at h
        cases h
        exact (hf r.1).refusal e hsecond
      | ok r' =>
        rw [hsecond] at h
        cases h

theorem map (hp : Steady p) (g : α → β) : Steady (g <$> p) := by
  rw [map_eq_pure_bind]
  exact hp.bind fun a => pure (g a)

theorem mapM {step : α → Decoding β} (hstep : ∀ a, Steady (step a)) (items : List α) :
    Steady (items.mapM step) := by
  induction items with
  | nil => exact pure []
  | cons a more ih =>
    rw [List.mapM_cons]
    exact (hstep a).bind fun b => ih.bind fun bs => pure (b :: bs)

theorem foldlM {step : β → α → Decoding β} (hstep : ∀ b a, Steady (step b a)) (items : List α)
    (b : β) : Steady (items.foldlM step b) := by
  induction items generalizing b with
  | nil => exact pure b
  | cons a more ih =>
    rw [List.foldlM_cons]
    exact (hstep b a).bind ih

/-- What is given with no notes before is given with any. -/
theorem run_of_run_nil (hp : Steady p) {a : α} {noted : List String}
    (h : p.run [] = .ok (a, noted)) (before : List String) :
    p.run before = .ok (a, before ++ noted) := by
  rw [hp.run, h]
  rfl

end Steady

section

variable {inner : Inner} {t : MessageType}

theorem steady_expect (s : Slot) (w : WireType) : Steady (expect s w) := by
  rw [expect]
  split
  · exact .pure ()
  · exact .throw rfl

theorem steady_pass (levels : Nat) (p : Wire.Payload) : Steady (pass levels p) := by
  rw [pass]
  split
  · exact .pure ()
  · exact .throw rfl

theorem steady_atom (s : Slot) (p : Wire.Payload) : Steady (atom s p) := by
  rw [atom]
  split
  · exact .pure _
  · exact .throw rfl
  · exact .throw rfl

theorem steady_value (hinner : ∀ t stream, Steady (inner t stream)) (s : Slot)
    (p : Wire.Payload) : Steady (value inner t s p) := by
  simp only [value]
  split
  · exact (hinner _ _).map _
  · exact (hinner _ _).map _
  · exact (steady_atom s _).map _

theorem steady_packed (s : Slot) (content : List UInt8) : Steady (packed s content) := by
  rw [packed]
  split
  · exact .mapM (fun p => (steady_atom s p).map _) _
  · exact .throw rfl

theorem steady_finish (hinner : ∀ t stream, Steady (inner t stream)) (levels : Nat)
    {known : UInt32 → Decoding (Option Slot)} (hknown : ∀ id, Steady (known id))
    {closed : UInt32 → Decoding Unit} (hclosed : ∀ id, Steady (closed id))
    (ending : Wire.Ending) : Steady (finish inner levels t known closed ending) := by
  cases ending with
  | atEnd => exact .pure ()
  | closed id => exact hclosed id
  | badKey fault => exact .throw rfl
  | badPayload id w fault =>
    refine (hknown id).bind fun known => ?_
    cases known with
    | none => exact .throw rfl
    | some s => exact (steady_expect s w).bind fun _ => .throw rfl
  | openGroup id records ending =>
    refine (hknown id).bind fun known => ?_
    cases known with
    | none => exact .throw rfl
    | some s =>
      refine (steady_expect s _).bind fun _ => ?_
      simp only
      split
      · exact ((hinner _ _).map _).bind fun _ => .throw rfl
      · exact .throw rfl

theorem steady_half (hinner : ∀ t stream, Steady (inner t stream)) (levels : Nat) (s : Slot)
    (key : Scalar) (read : Option Atom × Option Value) (r : Wire.Record) :
    Steady (half inner levels t s key read r) := by
  obtain ⟨id, p⟩ := r
  rw [half]
  split
  · exact (steady_atom _ p).bind fun k => .pure _
  · split
    · exact (steady_value hinner _ p).bind fun v => .pure _
    · exact (steady_pass _ p).bind fun _ => .pure _

theorem steady_entry (hinner : ∀ t stream, Steady (inner t stream)) (levels : Nat) (s : Slot)
    (key : Scalar) (content : List UInt8) : Steady (entry inner levels t s key content) := by
  rw [entry]
  refine (Steady.foldlM (steady_half hinner levels s key) _ _).bind fun read => ?_
  refine (steady_finish hinner _ (fun id => .pure _) (fun id => ?_) _).bind fun _ => .pure _
  split
  · exact (steady_expect _ _).bind fun _ => .throw rfl
  · exact .throw rfl

theorem steady_slot (g : Graph) (f : NodeId) : Steady (slot g f) := by
  rw [slot]
  split
  · exact .pure _
  · exact .throw rfl

theorem steady_known (id : UInt32) : Steady (known t id) := by
  rw [known]
  split
  · exact (steady_slot _ _).map _
  · exact .pure none

theorem steady_fieldChange (hinner : ∀ t stream, Steady (inner t stream)) (levels : Nat)
    (f : NodeId) (s : Slot) (p : Wire.Payload) : Steady (fieldChange inner levels t f s p) := by
  rw [fieldChange]
  refine (steady_expect s _).bind fun _ => ?_
  unfold shapedChange
  split
  · exact (steady_value hinner s _).bind fun v => .pure _
  · split
    · exact (steady_packed s _).bind fun items => .pure _
    · exact (steady_value hinner s _).bind fun v => .pure _
  · exact (steady_value hinner s _).bind fun v => .pure _
  · exact (steady_entry hinner levels s _ _).bind fun e => .pure _
  · exact .throw rfl

theorem steady_change (hinner : ∀ t stream, Steady (inner t stream)) (levels : Nat)
    (r : Wire.Record) : Steady (change inner levels t r) := by
  obtain ⟨id, p⟩ := r
  rw [change]
  split
  · exact (steady_slot _ _).bind fun s => steady_fieldChange hinner levels _ s p
  · exact (steady_pass levels p).bind fun _ => .pure _

theorem steady_messageWith (hinner : ∀ t stream, Steady (inner t stream)) (levels : Nat)
    (stream : Wire.Stream) : Steady (messageWith inner levels t stream) := by
  rw [messageWith_eq]
  refine (Steady.mapM (steady_change hinner levels) _).bind fun cs => ?_
  refine (steady_finish hinner levels steady_known (fun id => .throw rfl) _).bind fun _ => ?_
  exact (Steady.note _).bind fun _ => .pure _

theorem steady_message (levels : Nat) (t : MessageType) (stream : Wire.Stream) :
    Steady (message levels t stream) := by
  induction levels generalizing t stream with
  | zero => exact steady_messageWith (fun _ _ => .throw rfl) 0 stream
  | succ levels ih => exact steady_messageWith ih (levels + 1) stream

theorem steady_below (levels : Nat) (t : MessageType) (stream : Wire.Stream) :
    Steady (below levels t stream) := by
  cases levels with
  | zero => exact .throw rfl
  | succ levels => exact steady_message levels t stream

/-! ### Bytes that are read -/

/-- Only records that stop at the end of their bytes are a message. -/
theorem yields_finish (levels : Nat) {known : UInt32 → Decoding (Option Slot)}
    {closed : UInt32 → Decoding Unit} (hclosed : ∀ id, Yields (closed id) fun _ => False)
    (ending : Wire.Ending) :
    Yields (finish inner levels t known closed ending) fun _ => ending = .atEnd := by
  cases ending with
  | atEnd => exact Yields.pure rfl
  | closed id => exact (hclosed id).mono fun _ h => h.elim
  | badKey fault => exact Yields.throw _
  | badPayload id w fault =>
    refine Yields.andThen fun known => ?_
    cases known with
    | none => exact Yields.throw _
    | some s => exact Yields.andThen fun _ => Yields.throw _
  | openGroup id records ending =>
    refine Yields.andThen fun known => ?_
    cases known with
    | none => exact Yields.throw _
    | some s =>
      refine Yields.andThen fun _ => ?_
      simp only
      split
      · exact Yields.andThen fun _ => Yields.throw _
      · exact Yields.throw _

end

/-- A message is read if its records end with its bytes and all of them make changes. The changes
make the message, and its required fields that are absent are noted behind those inside of it. -/
theorem message_eq_ok {levels : Nat} {t : MessageType} {stream : Wire.Stream}
    {noted noted' : List String} {m : Message} :
    (message levels t stream).run noted = .ok (m, noted') ↔ stream.ending = .atEnd ∧
      ∃ cs before, (stream.records.mapM (change (below levels) levels t)).run noted =
          .ok (cs, before) ∧
        m = (cs.foldl Change.apply (Message.empty t)).populate ∧
        noted' = before ++ (cs.foldl Change.apply (Message.empty t)).missingFields := by
  rw [message_eq, messageWith_eq, StateT.run_bind]
  constructor
  · intro h
    obtain ⟨⟨cs, before⟩, hchanges, h⟩ := bind_eq_ok.mp h
    change (conclude _ _ _ _ _).run before = _ at h
    rw [conclude, StateT.run_bind] at h
    obtain ⟨⟨_, noted₁⟩, hfinish, h⟩ := bind_eq_ok.mp h
    have hend := yields_finish levels (fun id => Yields.throw _) stream.ending _ _ _ hfinish
    rw [hend] at hfinish
    cases hfinish
    cases h
    exact ⟨hend, cs, before, hchanges, rfl, rfl⟩
  · rintro ⟨hend, cs, before, hchanges, rfl, rfl⟩
    rw [hchanges, hend]
    rfl

end Decoding

namespace Message

variable {t : MessageType} {bytes : List UInt8} {m : Message}

/-- What is decoded is what reading gives, or an error if anything has been noted. -/
theorem decode_eq (t : MessageType) (bytes : List UInt8) :
    decode t bytes = match (Decoding.message recursionLimit t (.ofBytes bytes)).run [] with
      | .error e => .error e
      | .ok (m, noted) =>
        if noted = [] then .ok m else .error (.missingRequired noted m none) := by
  rw [decode]
  rcases (Decoding.message recursionLimit t (.ofBytes bytes)).run [] with e | ⟨m, noted⟩
  · rfl
  · cases noted <;> rfl

theorem decode_eq_ok : decode t bytes = .ok m ↔
    (Decoding.message recursionLimit t (.ofBytes bytes)).run [] = .ok (m, []) := by
  rw [decode_eq]
  rcases (Decoding.message recursionLimit t (.ofBytes bytes)).run [] with e | ⟨m', noted⟩
  · simp
  · by_cases h : noted = [] <;> simp [h]

theorem decode_eq_missingRequired {missing : List String} {consumed : Option Nat} :
    decode t bytes = .error (.missingRequired missing m consumed) ↔
      (Decoding.message recursionLimit t (.ofBytes bytes)).run [] = .ok (m, missing) ∧
        missing ≠ [] ∧ consumed = none := by
  rw [decode_eq]
  cases hrun : (Decoding.message recursionLimit t (.ofBytes bytes)).run [] with
  | error e =>
    have hrefusal := (Decoding.steady_message recursionLimit t (.ofBytes bytes)).refusal e hrun
    cases e <;> simp [DecodeError.isRefusal] at hrefusal ⊢
  | ok r =>
    obtain ⟨m', noted⟩ := r
    by_cases h : noted = []
    · simp only [if_pos h, reduceCtorEq, false_iff]
      rintro ⟨heq, hne, -⟩
      cases heq
      exact hne h
    · simp only [if_neg h]
      constructor
      · intro heq
        cases heq
        exact ⟨rfl, h, rfl⟩
      · rintro ⟨heq, -, rfl⟩
        cases heq
        rfl

/-- The bytes are read as a message, though required fields may be absent from it. -/
def IsReadFrom (m : Message) (t : MessageType) (bytes : List UInt8) : Prop :=
  decode t bytes = .ok m ∨
    ∃ missing consumed, decode t bytes = .error (.missingRequired missing m consumed)

theorem isReadFrom_iff : m.IsReadFrom t bytes ↔
    ∃ noted, (Decoding.message recursionLimit t (.ofBytes bytes)).run [] = .ok (m, noted) := by
  simp only [IsReadFrom, decode_eq_ok, decode_eq_missingRequired]
  constructor
  · rintro (h | ⟨missing, -, h, -⟩)
    · exact ⟨[], h⟩
    · exact ⟨missing, h⟩
  · rintro ⟨noted, h⟩
    rcases eq_or_ne noted [] with rfl | hne
    · exact .inl h
    · exact .inr ⟨noted, none, h, hne, rfl⟩

end Message

end Protobuf

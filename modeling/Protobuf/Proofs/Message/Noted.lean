import Protobuf.Proofs.Message.Change
import Protobuf.Proofs.Message.Reencoded

/-!
# What is noted while a message is read

While a message is read, the required fields that are absent are noted for every message inside of
it as soon as that message ends. A message that has been read may still be replaced: by a later
value of its field, by another member of its oneof, or by a later entry of the same key or a later
half of its entry. What was noted for it is not taken back.

So the notes are those of all messages that were read, and the message that goes along with the
error may lack nothing. The other way round, everything inside of the message has been read, apart
from the new messages that stand for the missing values of map entries. This settles when the
message that goes along with the error cannot be written either.

## Main definitions

* `Decoding.readMessages`, `Message.readFrom` — the messages that are read, at any depth.
* `Decoding.Logs` — what an action notes, and what can be said of its result.

## Main results

* `Decoding.logs_message` — the notes are those of the messages that are read
* `Message.encode_of_decode_missingRequired` — when a noted field is absent to the writer as well
-/

namespace Protobuf

/-! ### The messages that are read -/

namespace Decoding

/-- The messages that are read from a stream of records. -/
abbrev Inside := MessageType → Wire.Stream → List Message

section

variable (inside : Inside) (t : MessageType)

/-- The messages that are read from a single value. -/
def readInValue : FieldType → Wire.Payload → List Message
  | .message node, .bytes content => inside (t.sibling node) (.ofBytes content)
  | .group node, .group records => inside (t.sibling node) ⟨records, .atEnd⟩
  | _, _ => []

/-- The messages that are read from a record of a map entry. -/
def readInHalf (s : Slot) (r : Wire.Record) : List Message :=
  if r.1 = 2 then readInValue inside t s.type r.2 else []

/-- The messages that are read from the payload of a field. -/
def readInField (s : Slot) (p : Wire.Payload) : List Message :=
  match s.shape, p with
  | .map _, .bytes content => (Wire.Stream.ofBytes content).records.flatMap (readInHalf inside t s)
  | _, p => readInValue inside t s.type p

/-- The messages that are read from a record. -/
def readInRecord (r : Wire.Record) : List Message :=
  ((t.fieldById? r.1).bind t.graph.slot?).elim [] fun s => readInField inside t s r.2

/-- The messages that are read from the records of a message, and last of all the message itself. -/
def readMessagesWith (levels : Nat) (stream : Wire.Stream) : List Message :=
  stream.records.flatMap (readInRecord inside t) ++
    ((message levels t stream).run []).toOption.toList.map Prod.fst

end

/-- All messages that are read from a stream of records, in the order in which they end. -/
def readMessages : (levels : Nat) → Inside
  | 0, t, stream => readMessagesWith (fun _ _ => []) t 0 stream
  | levels + 1, t, stream => readMessagesWith (readMessages levels) t (levels + 1) stream

/-- The messages that are read below a message. -/
def readBelow : Nat → Inside
  | 0 => fun _ _ => []
  | levels + 1 => readMessages levels

theorem readMessages_eq (levels : Nat) (t : MessageType) (stream : Wire.Stream) :
    readMessages levels t stream = readMessagesWith (readBelow levels) t levels stream := by
  cases levels <;> rfl

end Decoding

/-- All messages that are read when bytes are decoded, at any depth and in the order in which they
end, whether they are still there in the end or have been replaced. -/
def Message.readFrom (t : MessageType) (bytes : List UInt8) : List Message :=
  Decoding.readMessages recursionLimit t (.ofBytes bytes)

/-! ### Logs -/

namespace Decoding

variable {α β : Type} {p : Decoding α} {f : α → Decoding β} {read more : List Message}
  {Q : α → Prop} {R : β → Prop}

/-- The action notes the required fields that are absent from the messages `read`, one message after
the other, and gives something that has the property `Q`. -/
def Logs (p : Decoding α) (read : List Message) (Q : α → Prop) : Prop :=
  ∀ before a after, p.run before = .ok (a, after) →
    after = before ++ read.flatMap Message.missingFields ∧ Q a

namespace Logs

theorem pure {a : α} (h : Q a) : Logs (Pure.pure a) [] Q := by
  intro before b after hrun
  cases hrun
  exact ⟨by rw [List.flatMap_nil, List.append_nil], h⟩

theorem throw (e : DecodeError) : Logs (MonadExcept.throw e : Decoding α) read Q := by
  intro before b after hrun
  cases hrun

theorem mono {Q' : α → Prop} (hp : Logs p read Q) (h : ∀ a, Q a → Q' a) : Logs p read Q' := by
  intro before a after hrun
  exact ⟨(hp before a after hrun).1, h a (hp before a after hrun).2⟩

theorem bind (hp : Logs p read Q) (hf : ∀ a, Q a → Logs (f a) more R) :
    Logs (p >>= f) (read ++ more) R := by
  intro before b after hrun
  rw [StateT.run_bind] at hrun
  obtain ⟨⟨a, noted⟩, hfirst, hsecond⟩ := bind_eq_ok.mp hrun
  obtain ⟨hnoted, ha⟩ := hp _ _ _ hfirst
  obtain ⟨hafter, hb⟩ := hf a ha _ _ _ hsecond
  exact ⟨by rw [hafter, hnoted, List.flatMap_append, List.append_assoc], hb⟩

/-- An action that notes nothing goes first. -/
theorem after (hp : Logs p [] Q) (hf : ∀ a, Q a → Logs (f a) more R) : Logs (p >>= f) more R :=
  hp.bind hf

/-- An action that notes nothing goes last. -/
theorem before (hp : Logs p read Q) (hf : ∀ a, Q a → Logs (f a) [] R) :
    Logs (p >>= f) read R := by
  rw [← List.append_nil read]
  exact hp.bind hf

theorem andReturn {g : α → β} (hp : Logs p read fun a => R (g a)) :
    Logs (p >>= fun a => Pure.pure (g a)) read R :=
  hp.before fun _ ha => pure ha

theorem map {g : α → β} (hp : Logs p read fun a => R (g a)) : Logs (g <$> p) read R := by
  rw [map_eq_pure_bind]
  exact hp.andReturn

/-- What holds of a step for the messages that it reads, and lasts when more are read, holds of a
loop. -/
theorem foldlM {step : β → α → Decoding β} {inside : α → List Message} {I : List Message → β → Prop}
    (hstep : ∀ read b a, I read b → Logs (step b a) (inside a) (I (read ++ inside a)))
    (items : List α) {b : β} (hb : I read b) :
    Logs (items.foldlM step b) (items.flatMap inside) (I (read ++ items.flatMap inside)) := by
  induction items generalizing read b with
  | nil => exact Logs.pure (by rwa [List.flatMap_nil, List.append_nil])
  | cons a rest ih =>
    rw [List.foldlM_cons, List.flatMap_cons, ← List.append_assoc]
    exact (hstep read b a hb).bind fun b' hb' => ih hb'

theorem mapM {step : α → Decoding β} {inside : α → List Message} {I : List Message → β → Prop}
    (hmono : ∀ {read more b}, read ⊆ more → I read b → I more b)
    (hstep : ∀ a, Logs (step a) (inside a) (I (inside a))) (items : List α) :
    Logs (items.mapM step) (items.flatMap inside) fun bs =>
      ∀ b ∈ bs, I (items.flatMap inside) b := by
  induction items with
  | nil => exact Logs.pure (List.forall_mem_nil _)
  | cons a rest ih =>
    rw [List.mapM_cons, List.flatMap_cons]
    refine (hstep a).bind fun b hb => Logs.andReturn (ih.mono fun bs hbs => ?_)
    refine List.forall_mem_cons.mpr ⟨hmono (List.subset_append_left _ _) hb, fun b' hb' => ?_⟩
    exact hmono (List.subset_append_right _ _) (hbs b' hb')

end Logs

end Decoding

/-! ### What is kept of the messages that are read -/

/-- All messages in the value are among `read`, or are new ones. -/
def Value.StemsFrom (read : List Message) (v : Value) : Prop :=
  ∀ n ∈ v.messages, n ∈ read ∨ n = Message.new n.type

namespace Value.StemsFrom

variable {read more : List Message} {v : Value} {items : List Value}

theorem mono (hsub : read ⊆ more) (h : v.StemsFrom read) : v.StemsFrom more :=
  fun n hn => (h n hn).imp_left fun hmem => hsub hmem

theorem atom (a : Atom) : (Value.atom a).StemsFrom read := by
  intro n hn
  rw [messages] at hn
  cases hn

theorem list_iff : (Value.list items).StemsFrom read ↔ ∀ v ∈ items, v.StemsFrom read := by
  rw [StemsFrom, messages, messagesOfItems_eq]
  constructor
  · exact fun h v hv n hn => h n (List.mem_flatMap.mpr ⟨v, hv, hn⟩)
  · intro h n hn
    obtain ⟨v, hv, hn⟩ := List.mem_flatMap.mp hn
    exact h v hv n hn

theorem map_iff {m : MapValue} :
    (Value.map m).StemsFrom read ↔ ∀ e ∈ m.entries, e.2.StemsFrom read := by
  obtain ⟨key, type, owner, entries⟩ := m
  rw [StemsFrom, messages, messagesOfEntries_eq]
  constructor
  · exact fun h e he n hn => h n (List.mem_flatMap.mpr ⟨e, he, hn⟩)
  · intro h n hn
    obtain ⟨e, he, hn⟩ := List.mem_flatMap.mp hn
    exact h e he n hn

end Value.StemsFrom

/-- All values in the message stem from the messages `read`. -/
def Message.FieldsStemFrom (read : List Message) (m : Message) : Prop :=
  ∀ e ∈ m.entries, e.2.StemsFrom read

/-- All values in the change stem from the messages `read`. -/
inductive Change.StemsFrom (read : List Message) : Change → Prop
  | keep : StemsFrom read .keep
  | put {f : NodeId} {v : Value} (value : v.StemsFrom read) : StemsFrom read (.put f v)
  | append {f : NodeId} {items : List Value} (elements : ∀ v ∈ items, v.StemsFrom read) :
      StemsFrom read (.append f items)
  | putEntry {f : NodeId} {s : Slot} {key : Scalar} {k : Atom} {v : Value}
      (value : v.StemsFrom read) : StemsFrom read (.putEntry f s key k v)

theorem Change.StemsFrom.mono {read more : List Message} {c : Change} (hsub : read ⊆ more)
    (h : c.StemsFrom read) : c.StemsFrom more := by
  cases h with
  | keep => exact .keep
  | put value => exact .put (value.mono hsub)
  | append elements => exact .append fun v hv => (elements v hv).mono hsub
  | putEntry value => exact .putEntry (value.mono hsub)

namespace Message.FieldsStemFrom

variable {read : List Message} {m : Message} {f : NodeId}

theorem empty (t : MessageType) : (Message.empty t).FieldsStemFrom read :=
  List.forall_mem_nil _

theorem value (h : m.FieldsStemFrom read) {v : Value} (hv : m.value? f = some v) :
    v.StemsFrom read :=
  h (f, v) (mem_of_value? hv)

theorem insert (h : m.FieldsStemFrom read) {v : Value} (hv : v.StemsFrom read) :
    (m.insert f v).FieldsStemFrom read :=
  Keyed.forall_mem_insert hv h

theorem foldl_erase (h : m.FieldsStemFrom read) (fields : List NodeId) :
    (fields.foldl Message.erase m).FieldsStemFrom read :=
  List.foldlRecOn _ _ h fun _ h _ _ e he => h e (Keyed.mem_of_mem_erase he)

theorem items (h : m.FieldsStemFrom read) :
    ∀ v ∈ ((m.value? f).bind Value.list?).getD [], v.StemsFrom read := by
  intro v hv
  cases hvalue : m.value? f with
  | none => simp [hvalue] at hv
  | some w =>
    rw [hvalue, Option.bind_some] at hv
    cases w with
    | list items => exact Value.StemsFrom.list_iff.mp (h.value hvalue) v hv
    | _ => cases hv

/-- A change brings nothing into a message that it does not hold. -/
theorem apply (h : m.FieldsStemFrom read) {c : Change} (hc : c.StemsFrom read) :
    (c.apply m).FieldsStemFrom read := by
  cases hc with
  | keep => exact h
  | put hv => exact (h.foldl_erase _).insert hv
  | append hitems =>
    rw [Change.apply, append]
    split
    · exact h
    · refine h.insert (Value.StemsFrom.list_iff.mpr fun v hv => ?_)
      exact (List.mem_append.mp hv).elim (h.items v) (hitems v)
  | @putEntry f s keyType key v hv =>
    have hinserted : ∀ entries : MapValue, (∀ e ∈ entries.entries, e.2.StemsFrom read) →
        (Value.map (entries.insert key v)).StemsFrom read := by
      intro entries hentries
      exact Value.StemsFrom.map_iff.mpr (Keyed.forall_mem_insert hv hentries)
    rw [Change.apply, putEntry]
    split
    · exact h.insert (hinserted _ (List.forall_mem_nil _))
    · rename_i entries hvalue
      exact h.insert (hinserted _ (Value.StemsFrom.map_iff.mp (h.value hvalue)))
    · exact h

/-- What stems from messages does so with the message around it. -/
theorem message (h : m.FieldsStemFrom read) : (Value.message m).StemsFrom (read ++ [m]) := by
  intro n hn
  rw [messages_message, messages, Value.messagesOfFields_eq, List.mem_cons] at hn
  rcases hn with rfl | hn
  · exact .inl (List.mem_append_right _ (List.mem_singleton_self _))
  · obtain ⟨e, he, hn⟩ := List.mem_flatMap.mp hn
    exact (h e he n hn).imp_left (List.mem_append_left _)

theorem foldl (h : m.FieldsStemFrom read) {cs : List Change} (hcs : ∀ c ∈ cs, c.StemsFrom read) :
    (cs.foldl Change.apply m).FieldsStemFrom read := by
  induction cs generalizing m with
  | nil => exact h
  | cons c more ih =>
    exact ih (h.apply (hcs c List.mem_cons_self)) fun c hc => hcs c (List.mem_cons_of_mem _ hc)

end Message.FieldsStemFrom

/-! ### Reading -/

namespace Decoding

/-- The inner reader notes what is absent from the messages that it reads, and gives a message in
which there is nothing but these and new ones. -/
def Inner.Logs (S : Snapshot) (inner : Inner) (inside : Inside) : Prop :=
  ∀ t stream, t.snapshot = S → Decoding.Logs (inner t stream) (inside t stream)
    fun m => (Value.message m).StemsFrom (inside t stream)

section

variable {S : Snapshot} {inner : Inner} {inside : Inside} {t : MessageType}

theorem logs_expect (s : Slot) (w : WireType) : Logs (expect s w) [] fun _ => True := by
  rw [expect]
  split
  · exact .pure trivial
  · exact .throw _

theorem logs_pass (levels : Nat) (p : Wire.Payload) : Logs (pass levels p) [] fun _ => True := by
  rw [pass]
  split
  · exact .pure trivial
  · exact .throw _

theorem logs_atom (s : Slot) (p : Wire.Payload) : Logs (atom s p) [] fun _ => True := by
  rw [atom]
  split
  · exact .pure trivial
  · exact .throw _
  · exact .throw _

theorem logs_value (hinner : Inner.Logs S inner inside) (ht : t.snapshot = S) (s : Slot)
    (p : Wire.Payload) : Logs (value inner t s p) (readInValue inside t s.type p)
      (Value.StemsFrom (readInValue inside t s.type p)) := by
  have hatom : Logs (Value.atom <$> atom s p) [] (Value.StemsFrom []) :=
    ((logs_atom s p).mono fun a _ => Value.StemsFrom.atom a).map
  cases htype : s.type with
  | scalar _ =>
    simp only [value, htype]
    exact hatom
  | enumeration _ =>
    simp only [value, htype]
    exact hatom
  | message node =>
    cases p with
    | bytes content =>
      simp only [value, htype]
      exact (hinner (t.sibling node) _ ht).map
    | _ =>
      simp only [value, htype]
      exact hatom
  | group node =>
    cases p with
    | group records =>
      simp only [value, htype]
      exact (hinner (t.sibling node) _ ht).map
    | _ =>
      simp only [value, htype]
      exact hatom

theorem readInValue_of_isPackable {s : Slot} (h : s.isPackable) (p : Wire.Payload) :
    readInValue inside t s.type p = [] := by
  rw [Slot.isPackable, Bool.and_eq_true] at h
  cases htype : s.type with
  | scalar _ => rfl
  | enumeration _ => rfl
  | message node =>
    rw [htype] at h
    cases h.2
  | group node =>
    rw [htype] at h
    cases h.2

theorem logs_packed (s : Slot) (content : List UInt8) :
    Logs (packed s content) [] fun items => ∀ v ∈ items, v.StemsFrom [] := by
  rw [packed]
  split
  · rename_i payloads _
    have hatoms : Logs (payloads.mapM fun p => Value.atom <$> atom s p)
        (payloads.flatMap fun _ => []) fun items =>
          ∀ v ∈ items, Value.StemsFrom (payloads.flatMap fun _ => []) v :=
      Logs.mapM (I := Value.StemsFrom) Value.StemsFrom.mono
        (fun p => ((logs_atom s p).mono fun a _ => Value.StemsFrom.atom a).map) payloads
    rwa [List.flatMap_eq_nil_iff.mpr fun _ _ => rfl] at hatoms
  · exact .throw _

/-- An action that gives nothing has no log. -/
theorem Logs.of_yields {α : Type} {p : Decoding α} (h : Yields p fun _ => False)
    (read : List Message) (Q : α → Prop) : Logs p read Q :=
  fun before a after hrun => (h before a after hrun).elim

theorem logs_finish (levels : Nat) {known : UInt32 → Decoding (Option Slot)}
    {closed : UInt32 → Decoding Unit} (hclosed : ∀ id, Yields (closed id) fun _ => False)
    (ending : Wire.Ending) : Logs (finish inner levels t known closed ending) [] fun _ => True := by
  cases ending with
  | atEnd => exact .pure trivial
  | _ => exact .of_yields ((yields_finish levels hclosed _).mono fun _ h => by cases h) _ _

/-- The halves of a map entry that have been read stem from the messages that have been read. -/
theorem logs_half (hinner : Inner.Logs S inner inside) (ht : t.snapshot = S) (levels : Nat)
    (s : Slot) (key : Scalar) (before : List Message) (halves : Option Atom × Option Value)
    (r : Wire.Record) (h : ∀ v ∈ halves.2, v.StemsFrom before) :
    Logs (half inner levels t s key halves r) (readInHalf inside t s r)
      fun halves => ∀ v ∈ halves.2, v.StemsFrom (before ++ readInHalf inside t s r) := by
  obtain ⟨id, p⟩ := r
  simp only [half, readInHalf]
  split
  · rename_i hid
    rw [if_neg (by rw [hid]; decide), List.append_nil]
    exact Logs.andReturn ((logs_atom _ p).mono fun _ _ => h)
  · split
    · refine Logs.andReturn ((logs_value hinner ht s.entryValue p).mono fun v hv => ?_)
      rintro v' ⟨⟩
      exact hv.mono (List.subset_append_right _ _)
    · rw [List.append_nil]
      exact (logs_pass _ p).after fun _ _ => .pure h

theorem stemsFrom_absentHalf (hg : S.graph.Linked) (ht : t.snapshot = S) (type : FieldType)
    (read : List Message) : (absentHalf t type).StemsFrom read := by
  have hnew : ∀ node, (Value.message (Message.new (t.sibling node))).StemsFrom read := by
    intro node n hn
    rw [Message.messages_message] at hn
    have heq : n = Message.new (t.sibling node) :=
      Message.eq_new_of_mem_messages hg (t := t.sibling node) ht hn
    refine .inr ?_
    rw [heq, Message.new, Message.WellTyped.type_populate]
    rfl
  cases type with
  | scalar s => exact Value.StemsFrom.atom _
  | enumeration e => exact Value.StemsFrom.atom _
  | message node => exact hnew node
  | group node => exact hnew node

theorem logs_entry (hg : S.graph.Linked) (hinner : Inner.Logs S inner inside)
    (ht : t.snapshot = S) (levels : Nat) (s : Slot) (key : Scalar) (content : List UInt8) :
    Logs (entry inner levels t s key content)
      ((Wire.Stream.ofBytes content).records.flatMap (readInHalf inside t s)) fun e =>
      e.2.StemsFrom ((Wire.Stream.ofBytes content).records.flatMap (readInHalf inside t s)) := by
  have hnone : ∀ v ∈ ((none, none) : Option Atom × Option Value).2, v.StemsFrom [] := by simp
  have hhalves := Logs.foldlM (I := fun before (halves : Option Atom × Option Value) =>
    ∀ v ∈ halves.2, v.StemsFrom before) (logs_half hinner ht levels s key)
    (Wire.Stream.ofBytes content).records hnone
  rw [List.nil_append] at hhalves
  rw [entry]
  refine hhalves.before fun halves h => (logs_finish (levels - 1) (fun id => ?_) _).after
    fun _ _ => .pure ?_
  · dsimp only
    split
    · exact Yields.andThen fun _ => Yields.throw _
    · exact Yields.throw _
  · cases hv : halves.2 with
    | none => exact stemsFrom_absentHalf hg ht _ _
    | some v => exact h v hv

theorem logs_fieldChange (hg : S.graph.Linked) (hinner : Inner.Logs S inner inside)
    (ht : t.snapshot = S) (levels : Nat) (f : NodeId) (s : Slot) (p : Wire.Payload) :
    Logs (fieldChange inner levels t f s p) (readInField inside t s p)
      (Change.StemsFrom (readInField inside t s p)) := by
  have hvalue := logs_value hinner ht s p
  have helement : Logs (do return .append f [← value inner t s p]) (readInValue inside t s.type p)
      (Change.StemsFrom (readInValue inside t s.type p)) :=
    hvalue.before fun v hv => .pure (.append (List.forall_mem_singleton.mpr hv))
  rw [fieldChange]
  refine (logs_expect s _).after fun _ _ => ?_
  cases hshape : s.shape with
  | single =>
    simp only [readInField, hshape, shapedChange]
    exact hvalue.before fun v hv => .pure (.put hv)
  | list =>
    cases p with
    | bytes content =>
      simp only [readInField, hshape, shapedChange]
      split
      · rename_i hpackable
        rw [readInValue_of_isPackable hpackable]
        exact (logs_packed s content).before fun items h => .pure (.append h)
      · exact helement
    | _ =>
      simp only [readInField, hshape, shapedChange]
      exact helement
  | map key =>
    cases p with
    | bytes content =>
      simp only [readInField, hshape, shapedChange]
      exact (logs_entry hg hinner ht levels s key content).before fun e he =>
        .pure (.putEntry he)
    | _ => exact .throw _

theorem logs_change (hg : S.graph.Linked) (hinner : Inner.Logs S inner inside)
    (ht : t.snapshot = S) (levels : Nat) (r : Wire.Record) :
    Logs (change inner levels t r) (readInRecord inside t r)
      (Change.StemsFrom (readInRecord inside t r)) := by
  obtain ⟨id, p⟩ := r
  rw [change, readInRecord]
  cases t.fieldById? id with
  | none => exact (logs_pass levels p).after fun _ _ => .pure .keep
  | some f =>
    simp only [slot, Option.bind_some]
    cases hs : t.graph.slot? f with
    | none => exact .of_yields (Yields.bind (Yields.throw _) fun _ h => h) _ _
    | some s =>
      simp only [pure_bind]
      exact logs_fieldChange hg hinner ht levels f s p

/-- Whatever message is read, the notes are those of all messages that are read for it, and there is
nothing in it but these and new messages. -/
theorem logs_message (hg : S.graph.Linked) (hpopulate : S.graph.settings.populateDefaults = false)
    (levels : Nat) : Inner.Logs S (message levels) (readMessages levels) := by
  have hbelow : Inner.Logs S (below levels) (readBelow levels) := by
    cases levels with
    | zero => exact fun t stream ht => .throw _
    | succ levels => exact logs_message hg hpopulate levels
  intro t stream ht before m after hrun
  have hself : ((message levels t stream).run []).toOption.toList.map Prod.fst = [m] := by
    rw [(steady_message levels t stream).run] at hrun
    obtain ⟨r, hr, heq⟩ := map_eq_ok.mp hrun
    cases heq
    rw [hr]
    rfl
  obtain ⟨-, cs, noted, hcs, rfl, rfl⟩ := message_eq_ok.mp hrun
  have hoff : t.graph.settings.populateDefaults = false := by
    rw [← hpopulate, ← ht]
    rfl
  rw [readMessages_eq, readMessagesWith, hself, Change.populate_foldl hoff]
  obtain ⟨rfl, hstems⟩ := Logs.mapM (I := Change.StemsFrom) Change.StemsFrom.mono
    (logs_change hg hbelow ht levels) stream.records _ _ _ hcs
  refine ⟨?_, ((Message.FieldsStemFrom.empty t).foldl hstems).message⟩
  rw [List.flatMap_append, List.flatMap_singleton, List.append_assoc]

end

end Decoding

/-! ### What is absent in the end -/

namespace Message

variable {S : Snapshot} {t : MessageType} {bytes : List UInt8} {m : Message}

/-- A message cannot be written if a required field is absent from one of the messages in it. -/
theorem WellTyped.encode_missingRequired_iff (hg : S.graph.Linked) (hm : m.WellTyped S) :
    (∃ absent encoded, m.encode = .error (.missingRequired absent encoded)) ↔
      ∃ n ∈ m.messages, n.allMissing ≠ [] := by
  obtain ⟨e, he⟩ := hm.exists_sent hg
  have hnil := he.missing_eq_nil_iff
  rw [he.encode_eq]
  by_cases hmissing : e.missing = []
  · rw [if_pos (List.isEmpty_iff.mpr hmissing)]
    constructor
    · rintro ⟨absent, encoded, h⟩
      cases h
    · rintro ⟨n, hn, hne⟩
      exact absurd (hnil.mp hmissing n hn) hne
  · rw [if_neg (by rwa [List.isEmpty_iff])]
    rw [hnil] at hmissing
    push Not at hmissing
    exact ⟨fun _ => hmissing, fun _ => ⟨_, _, rfl⟩⟩

/-- The error of a decoder names the required fields that are absent from any of the messages that
have been read. The message that goes along with the error cannot be written either, exactly if one
of these is still in it, or if it lacks something that the reader does not look for: a required
extension, or a field of a new message that stands for the missing value of a map entry. -/
theorem encode_of_decode_missingRequired (hS : S.Loaded)
    (hpopulate : S.graph.settings.populateDefaults = false) (ht : t.snapshot = S)
    {missing : List String} {consumed : Option Nat}
    (h : decode t bytes = .error (.missingRequired missing m consumed)) :
    missing = (readFrom t bytes).flatMap missingFields ∧ missing ≠ [] ∧
      ((∃ absent encoded, m.encode = .error (.missingRequired absent encoded)) ↔
        (∃ n ∈ readFrom t bytes, n.missingFields ≠ [] ∧ n ∈ m.messages) ∨
        ∃ n ∈ m.messages, (n = new n.type ∧ n.missingFields ≠ []) ∨ n.missingExtensions ≠ []) := by
  have hg := hS.linked
  have hm := (wellTyped_of_decode_error hg ht h).2
  obtain ⟨hrun, hne, -⟩ := decode_eq_missingRequired.mp h
  obtain ⟨hnoted, hstems⟩ :=
    Decoding.logs_message hg hpopulate recursionLimit t (.ofBytes bytes) ht _ _ _ hrun
  refine ⟨hnoted, hne, ?_⟩
  simp only [hm.encode_missingRequired_iff hg, allMissing, ne_eq, List.append_eq_nil_iff,
    not_and_or]
  constructor
  · rintro ⟨n, hn, hown | hextension⟩
    · rcases hstems n (by rwa [messages_message]) with hread | hnew
      · exact .inl ⟨n, hread, hown, hn⟩
      · exact .inr ⟨n, hn, .inl ⟨hnew, hown⟩⟩
    · exact .inr ⟨n, hn, .inr hextension⟩
  · rintro (⟨n, -, hown, hn⟩ | ⟨n, hn, ⟨-, hown⟩ | hextension⟩)
    · exact ⟨n, hn, .inl hown⟩
    · exact ⟨n, hn, .inl hown⟩
    · exact ⟨n, hn, .inr hextension⟩

end Message

/-- A message in which another one with a required field may be present. -/
def Snapshot.carrier : Snapshot where
  stamp := 0
  graph :=
    { nodes := #[
        ⟨"", none, .package { children := [1, 3] }⟩,
        ⟨"A", some 0, .message { scope := { children := [2] }, fields := [2] }⟩,
        ⟨"x", some 1, .field (.plain .proto2 .required 1 "x" "int32"
          ⟨.scalar .int32, none, false, none⟩)⟩,
        ⟨"M", some 0, .message { scope := { children := [4] }, fields := [4] }⟩,
        ⟨"a", some 3, .field (.plain .proto2 .optional 1 "a" "A"
          ⟨.message 1, none, false, none⟩)⟩]
      extensions := []
      settings := { populateDefaults := false } }

theorem Snapshot.loaded_carrier : Snapshot.carrier.Loaded := by
  have h : (Registry.ofText { populateDefaults := false }
      "message A { required int32 x = 1; } message M { optional A a = 1; }").snapshot =
        some carrier := by
    cbv
  exact loaded_of_ofText h

namespace Message

/-- A message with the field x of the message A. -/
def carried (fields : List (NodeId × Value)) : Message :=
  ⟨⟨⟨.carrier, 1⟩⟩, fields⟩

/-- A message that holds that message. -/
def carrying (fields : List (NodeId × Value)) : Message :=
  ⟨⟨⟨.carrier, 3⟩⟩, [(4, .message (carried fields))]⟩

/-- The message that lacks a field is still there. -/
theorem encode_of_decode_missingRequired_kept :
    decode ⟨⟨.carrier, 3⟩⟩ [10, 0] = .error (.missingRequired [".A.x"] (carrying []) none) ∧
      ∃ absent encoded, (carrying []).encode = .error (.missingRequired absent encoded) := by
  have hdecode : decode ⟨⟨.carrier, 3⟩⟩ [10, 0] =
      .error (.missingRequired [".A.x"] (carrying []) none) :=
    decode_eq_missingRequired.mpr ⟨Decoding.message_eq_ok.mpr ⟨by cbv,
      [.put 4 (.message (carried []))], [".A.x"], by cbv, by cbv, by cbv⟩, by simp, rfl⟩
  obtain ⟨-, -, hencode⟩ := encode_of_decode_missingRequired Snapshot.loaded_carrier rfl rfl hdecode
  refine ⟨hdecode, hencode.mpr (.inl ⟨carried [], ?_, ?_, ?_⟩)⟩
  · have hinside : (Wire.Stream.ofBytes [10, 0]).records.flatMap
        (Decoding.readInRecord (Decoding.readBelow recursionLimit) ⟨⟨.carrier, 3⟩⟩) =
          [carried []] := by
      cbv
    rw [readFrom, Decoding.readMessages_eq, Decoding.readMessagesWith, hinside]
    exact List.mem_cons_self
  · decide_cbv
  · have hmessages : (carrying []).messages = [carrying [], carried []] := by cbv
    simp [hmessages]

/-- A message that lacks a required field is replaced by one that does not. The first one has been
noted, and nothing is absent in the end. -/
theorem encode_of_decode_missingRequired_replaced : Snapshot.carrier.Loaded ∧
    Snapshot.carrier.graph.settings.populateDefaults = false ∧
    decode ⟨⟨.carrier, 3⟩⟩ [10, 0, 10, 2, 8, 5] =
      .error (.missingRequired [".A.x"] (carrying [(2, .atom (.i32 5))]) none) ∧
    (carrying [(2, .atom (.i32 5))]).encode = .ok [10, 2, 8, 5] := by
  refine ⟨Snapshot.loaded_carrier, rfl, decode_eq_missingRequired.mpr ⟨Decoding.message_eq_ok.mpr
    ⟨by cbv, [.put 4 (.message (carried [])), .put 4 (.message (carried [(2, .atom (.i32 5))]))],
      [".A.x"], by cbv, by cbv, by cbv⟩, by simp, rfl⟩, ?_⟩
  cbv

end Message

end Protobuf

import Protobuf.Proofs.Message.Typed

/-!
# Values that are in order

Messages keep their fields and maps keep their entries in order, and so does everything inside of
them. This needs no definitions: whatever is put into a message goes into its place, and what is
read is put there record by record. So it also holds where members of a oneof are filled in side by
side, and of messages into which anything has been put without a check.

## Main definitions

* `Value.Sorted` — all messages and maps in a value are in order.
* `Change.Sorted` — a change puts such values only.

## Main results

* `Change.Sorted.apply`, `Message.Sorted.populate` — changes and defaults
* `Message.IsReadFrom.sorted` — whatever is read is in order
-/

namespace Protobuf

/-- The fields of messages and the entries of maps are in order, however deep inside. -/
inductive Value.Sorted : Value → Prop
  | atom (a : Atom) : Sorted (.atom a)
  | list {items : List Value} (elements : ∀ v ∈ items, Sorted v) : Sorted (.list items)
  | map {m : MapValue} (ascending : Keyed.Ascending (fun e => e.1.keyText) m.entries)
      (values : ∀ e ∈ m.entries, Sorted e.2) : Sorted (.map m)
  | message {m : Message} (ascending : Keyed.Ascending Prod.fst m.entries)
      (values : ∀ e ∈ m.entries, Sorted e.2) : Sorted (.message m)

/-- The fields of the message are in order, and so is everything in them. -/
def Message.Sorted (m : Message) : Prop :=
  (Value.message m).Sorted

namespace Message

theorem sorted_iff {m : Message} :
    m.Sorted ↔ Keyed.Ascending Prod.fst m.entries ∧ ∀ e ∈ m.entries, e.2.Sorted := by
  constructor
  · rintro (_ | _ | _ | ⟨hascending, hvalues⟩)
    exact ⟨hascending, hvalues⟩
  · rintro ⟨hascending, hvalues⟩
    exact .message hascending hvalues

namespace Sorted

variable {m : Message} {f : NodeId} {v : Value}

theorem ascending (hm : m.Sorted) : Keyed.Ascending Prod.fst m.entries :=
  (sorted_iff.mp hm).1

theorem value (hm : m.Sorted) (hv : m.value? f = some v) : v.Sorted :=
  (sorted_iff.mp hm).2 (f, v) (mem_of_value? hv)

/-! ### Changes -/

theorem empty (t : MessageType) : (Message.empty t).Sorted :=
  sorted_iff.mpr ⟨Keyed.ascending_nil, by simp [Message.empty]⟩

theorem insert (hm : m.Sorted) (hv : v.Sorted) (f : NodeId) : (m.insert f v).Sorted :=
  sorted_iff.mpr ⟨hm.ascending.insert _, Keyed.forall_mem_insert hv (sorted_iff.mp hm).2⟩

theorem erase (hm : m.Sorted) (f : NodeId) : (m.erase f).Sorted :=
  sorted_iff.mpr ⟨hm.ascending.erase f, fun e he =>
    (sorted_iff.mp hm).2 e (Keyed.mem_of_mem_erase he)⟩

theorem put (hm : m.Sorted) (hv : v.Sorted) (f : NodeId) : (m.put f v).Sorted := by
  have herase : ((m.rivals f).foldl Message.erase m).Sorted :=
    List.foldlRecOn _ _ hm fun _ hm f _ => hm.erase f
  exact herase.insert hv f

/-- The elements of a list field are in order, if there are any. -/
theorem items (hm : m.Sorted) (f : NodeId) :
    ∀ v ∈ ((m.value? f).bind Value.list?).getD [], v.Sorted := by
  cases hv : m.value? f with
  | none => simp
  | some w =>
    cases hm.value hv with
    | list helements => exact helements
    | _ => simp [Value.list?]

theorem append (hm : m.Sorted) (f : NodeId) {items : List Value} (hitems : ∀ v ∈ items, v.Sorted) :
    (m.append f items).Sorted := by
  rw [Message.append]
  split
  · exact hm
  · exact hm.insert (.list fun v hv => (List.mem_append.mp hv).elim (hm.items f v) (hitems v)) f

theorem fill (hm : m.Sorted) (f : NodeId) : (m.fill f).Sorted := by
  rw [Message.fill]
  split
  · exact hm.insert (.atom _) f
  · exact hm

theorem populate (hm : m.Sorted) : m.populate.Sorted := by
  rw [Message.populate]
  split
  · exact List.foldlRecOn _ _ hm fun _ hm f _ => hm.fill f
  · exact hm

theorem new (t : MessageType) : (Message.new t).Sorted :=
  (empty t).populate

end Sorted

end Message

/-! ### Maps -/

namespace MapValue

variable {m : MapValue}

theorem sorted_empty (key : Scalar) (t : FieldType) (owner : Option Snapshot) :
    (Value.map (MapValue.empty key t owner)).Sorted :=
  .map Keyed.ascending_nil (by simp [MapValue.empty])

theorem sorted_insert (hm : (Value.map m).Sorted) (k : Atom) {v : Value} (hv : v.Sorted) :
    (Value.map (m.insert k v)).Sorted := by
  cases hm with
  | map hascending hvalues =>
    exact .map (hascending.insert _) (Keyed.forall_mem_insert hv hvalues)

end MapValue

theorem Message.Sorted.putEntry {m : Message} (hm : m.Sorted) (f : NodeId) (s : Slot)
    (keyType : Scalar) (k : Atom) {v : Value} (hv : v.Sorted) :
    (m.putEntry f s keyType k v).Sorted := by
  rw [Message.putEntry]
  split
  · exact hm.insert (MapValue.sorted_insert (MapValue.sorted_empty _ _ _) k hv) f
  · rename_i hmap
    exact hm.insert (MapValue.sorted_insert (hm.value hmap) k hv) f
  · exact hm

/-! ### Records -/

/-- The change puts values that are in order. -/
def Change.Sorted : Change → Prop
  | keep => True
  | put _ v => v.Sorted
  | append _ items => ∀ v ∈ items, v.Sorted
  | putEntry _ _ _ _ v => v.Sorted

theorem Change.Sorted.apply {m : Message} (hm : m.Sorted) {c : Change} (hc : c.Sorted) :
    (c.apply m).Sorted := by
  cases c with
  | keep => exact hm
  | put f v => exact hm.put hc f
  | append f items => exact hm.append f hc
  | putEntry f s key k v => exact hm.putEntry f s key k hc

theorem Change.Sorted.foldl {m : Message} (hm : m.Sorted) {cs : List Change}
    (hcs : ∀ c ∈ cs, c.Sorted) : (cs.foldl Change.apply m).Sorted := by
  induction cs generalizing m with
  | nil => exact hm
  | cons c more ih =>
    exact ih (Change.Sorted.apply hm (hcs c List.mem_cons_self)) fun c hc =>
      hcs c (List.mem_cons_of_mem _ hc)

/-! ### Reading -/

namespace Decoding

/-- A reader for the messages inside of a message gives messages that are in order. -/
def Inner.Sorted (inner : Inner) : Prop :=
  ∀ t stream, Yields (inner t stream) Message.Sorted

section

variable {inner : Inner} {t : MessageType}

theorem sorted_value (hinner : Inner.Sorted inner) (s : Slot) (p : Wire.Payload) :
    Yields (value inner t s p) Value.Sorted := by
  have hmessage : ∀ t stream, Yields (Value.message <$> inner t stream) Value.Sorted :=
    fun t stream => Yields.map ((hinner t stream).mono fun m hm => hm)
  simp only [value]
  split
  · exact hmessage _ _
  · exact hmessage _ _
  · exact (Yields.trivial.mono fun a _ => .atom a).map

theorem sorted_packed (s : Slot) (content : List UInt8) :
    Yields (packed s content) fun items => ∀ v ∈ items, v.Sorted := by
  rw [packed]
  split
  · exact Yields.mapM fun p _ => (Yields.trivial.mono fun a _ => .atom a).map
  · exact Yields.throw _

theorem sorted_absentHalf (t : MessageType) (type : FieldType) : (absentHalf t type).Sorted := by
  cases type with
  | scalar s => exact .atom _
  | enumeration e => exact .atom _
  | message node => exact Message.Sorted.new _
  | group node => exact Message.Sorted.new _

theorem sorted_half (hinner : Inner.Sorted inner) (levels : Nat) (s : Slot) (key : Scalar)
    {read : Option Atom × Option Value} (hread : ∀ v, read.2 = some v → v.Sorted)
    (r : Wire.Record) :
    Yields (half inner levels t s key read r) fun read => ∀ v, read.2 = some v → v.Sorted := by
  obtain ⟨id, p⟩ := r
  rw [half]
  split
  · exact Yields.andThen fun k => Yields.pure hread
  · split
    · refine (sorted_value hinner s.entryValue p).bind fun v hv => Yields.pure fun v' hv' => ?_
      cases hv'
      exact hv
    · exact Yields.andThen fun _ => Yields.pure hread

theorem sorted_entry (hinner : Inner.Sorted inner) (levels : Nat) (s : Slot) (key : Scalar)
    (content : List UInt8) : Yields (entry inner levels t s key content) fun e => e.2.Sorted := by
  rw [entry]
  refine (Yields.foldlM (fun read hread r _ => sorted_half hinner levels s key hread r)
    (by simp)).bind fun read hread => ?_
  refine Yields.andThen fun _ => Yields.pure ?_
  cases hv : read.2 with
  | none => exact sorted_absentHalf t s.type
  | some v => exact hread v hv

theorem sorted_change (hinner : Inner.Sorted inner) (levels : Nat) (r : Wire.Record) :
    Yields (change inner levels t r) Change.Sorted := by
  obtain ⟨id, p⟩ := r
  rw [change]
  split
  · refine Yields.andThen fun s => ?_
    rw [fieldChange]
    refine Yields.andThen fun _ => ?_
    have hsingle : ∀ v : Value, v.Sorted → ∀ w ∈ [v], w.Sorted := fun v hv => by simpa using hv
    unfold shapedChange
    split
    · exact (sorted_value hinner s _).bind fun v hv => Yields.pure hv
    · split
      · exact (sorted_packed s _).bind fun items hitems => Yields.pure hitems
      · exact (sorted_value hinner s _).bind fun v hv => Yields.pure (hsingle v hv)
    · exact (sorted_value hinner s _).bind fun v hv => Yields.pure (hsingle v hv)
    · exact (sorted_entry hinner levels s _ _).bind fun e he => Yields.pure he
    · exact Yields.throw _
  · exact Yields.andThen fun _ => Yields.pure trivial

theorem sorted_messageWith (hinner : Inner.Sorted inner) (levels : Nat) :
    Inner.Sorted (messageWith inner levels) := by
  intro t stream
  rw [messageWith_eq]
  refine (Yields.mapM fun r _ => sorted_change hinner levels r).bind fun cs hcs => ?_
  refine Yields.andThen fun _ => Yields.andThen fun _ => Yields.pure ?_
  exact (Change.Sorted.foldl (.empty t) hcs).populate

/-- Whatever is read is in order. The induction is on the levels that may be begun. -/
theorem sorted_message (levels : Nat) : Inner.Sorted (message levels) := by
  induction levels with
  | zero => exact sorted_messageWith (fun _ _ => Yields.throw _) 0
  | succ levels ih => exact sorted_messageWith ih (levels + 1)

end

end Decoding

theorem Message.IsReadFrom.sorted {t : MessageType} {bytes : List UInt8} {m : Message}
    (h : m.IsReadFrom t bytes) : m.Sorted := by
  obtain ⟨noted, hrun⟩ := isReadFrom_iff.mp h
  exact Decoding.sorted_message recursionLimit t (.ofBytes bytes) _ _ _ hrun

end Protobuf

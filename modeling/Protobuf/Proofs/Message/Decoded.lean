import Protobuf.Message.Decoding
import Protobuf.Proofs.Action
import Protobuf.Proofs.Message.Nesting
import Protobuf.Proofs.Message.WellTyped

/-!
# Messages that have been read

Whatever bytes are read, the message that comes out is well typed: every record is either refused or
turned into a value of its field. And if no required field was noted as absent, then no message in
it lacks one, but for the new messages that stand in for the missing values of map entries.

Both are shown along the same lines, for what is in the bytes of a message and for what a reader of
the messages inside of it gives.

## Main definitions

* `Value.Complete` — no message lacks a required field of its own or a default.
* `Decoding.Collects` — what reading gives, and what it gives when nothing has been noted.

## Main results

* `Message.wellTyped_of_decode` — what is read is well typed, and complete if nothing is noted
-/

namespace Protobuf

/-- No message in the value has been left without a required field of its own, or without a default.
New messages may stand for the values that the entries of a map were left without. -/
inductive Value.Complete : Value → Prop
  | atom (a : Atom) : Complete (.atom a)
  | message {m : Message} (own : m.missingFields = []) (populated : m.Populated)
      (fields : ∀ f v, m.value? f = some v → Complete v) : Complete (.message m)
  | list {items : List Value} (elements : ∀ v ∈ items, Complete v) : Complete (.list items)
  | map {m : MapValue}
      (values : ∀ e ∈ m.entries, (∀ t, e.2 ≠ .message (Message.new t)) → Complete e.2) :
      Complete (.map m)

/-- The bytes are no message, not even one that lacks required fields. -/
def DecodeError.isRefusal : DecodeError → Bool
  | missingRequired _ _ _ => false
  | _ => true

namespace Decoding

/-! ### Notes -/

/-- Whatever the action gives has the property `A`; and if nothing is noted in the end, nothing was
noted before, and it has the property `B` as well. Fields that are absent are no reason to refuse
anything. -/
def Collects {α : Type} (p : Decoding α) (A B : α → Prop) : Prop :=
  ∀ noted, (∀ a noted', p.run noted = .ok (a, noted') →
      A a ∧ (noted' = [] → noted = [] ∧ B a)) ∧
    ∀ e, p.run noted = .error e → e.isRefusal

/-- The action gives anything, and takes no note back. -/
abbrev Grows {α : Type} (p : Decoding α) : Prop :=
  Collects p (fun _ => True) fun _ => True

namespace Collects

variable {α β : Type} {p : Decoding α} {f : α → Decoding β} {A B : α → Prop} {C D : β → Prop}

theorem pure {a : α} (ha : A a) (hb : B a) : Collects (Pure.pure a : Decoding α) A B := by
  refine fun noted => ⟨fun a' noted' hrun => ?_, fun e hrun => ?_⟩
  · cases hrun
    exact ⟨ha, fun h => ⟨h, hb⟩⟩
  · cases hrun

theorem throw {e : DecodeError} (he : e.isRefusal) :
    Collects (MonadExcept.throw e : Decoding α) A B := by
  refine fun noted => ⟨fun a noted' hrun => ?_, fun e hrun => ?_⟩
  · cases hrun
  · cases hrun
    exact he

theorem yields (h : Collects p A B) : Yields p A :=
  fun noted a noted' hrun => ((h noted).1 a noted' hrun).1

theorem bind (hp : Collects p A B)
    (hf : ∀ a, A a → Collects (f a) C fun b => B a → D b) : Collects (p >>= f) C D := by
  refine fun noted => ⟨fun b noted'' hrun => ?_, fun e hrun => ?_⟩
  · rw [StateT.run_bind] at hrun
    obtain ⟨⟨a, noted'⟩, hfirst, hsecond⟩ := bind_eq_ok.mp hrun
    obtain ⟨ha, hnote⟩ := (hp noted).1 a noted' hfirst
    obtain ⟨hb, hnote'⟩ := (hf a ha noted').1 b noted'' hsecond
    refine ⟨hb, fun h => ?_⟩
    obtain ⟨h', hBB⟩ := hnote' h
    obtain ⟨h'', hB⟩ := hnote h'
    exact ⟨h'', hBB hB⟩
  · rw [StateT.run_bind] at hrun
    cases hfirst : p.run noted with
    | error e' =>
      rw [hfirst] at hrun
      cases hrun
      exact (hp noted).2 e hfirst
    | ok r =>
      rw [hfirst] at hrun
      exact (hf r.1 ((hp noted).1 r.1 r.2 hfirst).1 r.2).2 e hrun

theorem mono (hp : Collects p A B) {A₁ B₁ : α → Prop} (hA : ∀ a, A a → A₁ a)
    (hB : ∀ a, A a → B a → B₁ a) : Collects p A₁ B₁ := by
  refine fun noted => ⟨fun a noted' hrun => ?_, (hp noted).2⟩
  obtain ⟨ha, hnote⟩ := (hp noted).1 a noted' hrun
  exact ⟨hA a ha, fun h => ⟨(hnote h).1, hB a ha (hnote h).2⟩⟩

/-- The result of the first action does not matter. -/
theorem andThen (hp : Grows p) (hf : ∀ a, Collects (f a) C D) : Collects (p >>= f) C D :=
  hp.bind fun a _ => (hf a).mono (fun _ h => h) fun _ _ h _ => h

theorem map {g : α → β} (hp : Collects p A B) (hA : ∀ a, A a → C (g a))
    (hB : ∀ a, A a → B a → D (g a)) : Collects (g <$> p) C D := by
  rw [map_eq_pure_bind]
  exact hp.bind fun a ha => pure (hA a ha) (hB a ha)

theorem foldlM {step : β → α → Decoding β} {items : List α}
    (hstep : ∀ b, C b → ∀ a ∈ items, Collects (step b a) C fun b' => D b → D b') {b : β}
    (hb : C b) : Collects (items.foldlM step b) C fun b' => D b → D b' := by
  induction items generalizing b with
  | nil => exact pure hb id
  | cons a more ih =>
    rw [List.foldlM_cons]
    refine (hstep b hb a List.mem_cons_self).bind fun b' hb' => ?_
    exact (ih (fun b hb a ha => hstep b hb a (List.mem_cons_of_mem _ ha)) hb').mono
      (fun _ h => h) fun _ _ h h' h'' => h (h' h'')

theorem mapM {step : α → Decoding β} {items : List α}
    (hstep : ∀ a ∈ items, Collects (step a) C D) :
    Collects (items.mapM step) (fun bs => ∀ b ∈ bs, C b) fun bs => ∀ b ∈ bs, D b := by
  induction items with
  | nil => exact pure (by simp) (by simp)
  | cons a more ih =>
    rw [List.mapM_cons]
    refine (hstep a List.mem_cons_self).bind fun b hb => ?_
    refine (ih fun a ha => hstep a (List.mem_cons_of_mem _ ha)).bind fun bs hbs => ?_
    refine pure (fun c hc => ?_) fun hbs' hb' c hc => ?_
    · rcases List.mem_cons.mp hc with rfl | hc
      · exact hb
      · exact hbs c hc
    · rcases List.mem_cons.mp hc with rfl | hc
      · exact hb'
      · exact hbs' c hc

end Collects

/-! ### Values -/

section

variable {S : Snapshot} {inner : Inner} {t : MessageType}

/-- What a reader for the messages inside of a message has to give. -/
def Inner.Sound (S : Snapshot) (inner : Inner) : Prop :=
  ∀ t stream, t.snapshot = S → Collects (inner t stream)
    (fun m => m.type = t ∧ m.WellTyped S) fun m => (Value.message m).Complete

theorem collects_expect (s : Slot) (w : WireType) : Grows (expect s w) := by
  rw [expect]
  split
  · exact Collects.pure trivial trivial
  · exact Collects.throw rfl

theorem collects_pass (levels : Nat) (p : Wire.Payload) : Grows (pass levels p) := by
  rw [pass]
  split
  · exact Collects.pure trivial trivial
  · exact Collects.throw rfl

theorem collects_atom (s : Slot) (p : Wire.Payload) :
    Collects (atom s p) (fun a => s.type.holds a) fun _ => True := by
  rw [atom]
  split
  · rename_i a ha
    exact Collects.pure (FieldType.holds_of_ofPayload ha) trivial
  · exact Collects.throw rfl
  · exact Collects.throw rfl

theorem collects_atom_value (s : Slot) (p : Wire.Payload) :
    Collects (Value.atom <$> atom s p) (fun v => v.Fills S .single s.type) Value.Complete :=
  (collects_atom s p).map (fun _ h => .atom h) fun a _ _ => .atom a

theorem collects_value (hinner : Inner.Sound S inner) (ht : t.snapshot = S) (s : Slot)
    (p : Wire.Payload) :
    Collects (value inner t s p) (fun v => v.Fills S .single s.type) Value.Complete := by
  have hmessage : ∀ node stream, s.type.message? = some node →
      Collects (Value.message <$> inner (t.sibling node) stream)
        (fun v => v.Fills S .single s.type) Value.Complete := by
    intro node stream hnode
    refine (hinner (t.sibling node) stream ht).map (fun m hm => ?_) fun m _ h => h
    refine Value.fills_message_iff.mpr ⟨?_, hm.2⟩
    rw [hnode, hm.1]
    rfl
  simp only [value]
  split
  · rename_i node content htype
    exact hmessage node _ (by rw [htype]; rfl)
  · rename_i node records htype
    exact hmessage node _ (by rw [htype]; rfl)
  · exact collects_atom_value s _

theorem collects_packed (s : Slot) (content : List UInt8) :
    Collects (packed s content) (fun items => ∀ v ∈ items, v.Fills S .single s.type)
      fun items => ∀ v ∈ items, v.Complete := by
  rw [packed]
  split
  · exact Collects.mapM fun p _ => collects_atom_value s p
  · exact Collects.throw rfl

theorem collects_finish (hinner : Inner.Sound S inner) (ht : t.snapshot = S) (levels : Nat)
    {known : UInt32 → Decoding (Option Slot)} (hknown : ∀ id, Grows (known id))
    {closed : UInt32 → Decoding Unit} (hclosed : ∀ id, Grows (closed id)) (ending : Wire.Ending) :
    Grows (finish inner levels t known closed ending) := by
  cases ending with
  | atEnd => exact Collects.pure trivial trivial
  | closed id => exact hclosed id
  | badKey fault => exact Collects.throw rfl
  | badPayload id w fault =>
    refine (hknown id).andThen fun known => ?_
    cases known with
    | none => exact Collects.throw rfl
    | some s => exact (collects_expect s w).andThen fun _ => Collects.throw rfl
  | openGroup id records ending =>
    refine (hknown id).andThen fun known => ?_
    cases known with
    | none => exact Collects.throw rfl
    | some s =>
      refine (collects_expect s _).andThen fun _ => ?_
      simp only
      split
      · rename_i node _
        refine Collects.andThen ?_ fun _ => Collects.throw rfl
        exact (hinner (t.sibling node) _ ht).map (fun _ _ => trivial) fun _ _ _ => trivial
      · exact Collects.throw rfl

/-! ### Map entries -/

/-- The value of an entry that has none fits; it is complete unless it is a new message. -/
theorem fills_absentHalf (hg : S.graph.Linked) (ht : t.snapshot = S) (type : FieldType) :
    (absentHalf t type).Fills S .single type ∧
      ((∀ t', absentHalf t type ≠ .message (Message.new t')) → (absentHalf t type).Complete) := by
  have hmessage : ∀ node, type.message? = some node →
      (Value.message (Message.new (t.sibling node))).Fills S .single type := by
    intro node hnode
    refine Value.fills_message_iff.mpr ⟨?_, .new hg ht⟩
    rw [hnode, Message.new, Message.WellTyped.type_populate]
    rfl
  cases type with
  | scalar s => exact ⟨.atom s.holds_zero, fun _ => .atom _⟩
  | enumeration e => exact ⟨.atom rfl, fun _ => .atom _⟩
  | message node => exact ⟨hmessage node rfl, fun h => (h _ rfl).elim⟩
  | group node => exact ⟨hmessage node rfl, fun h => (h _ rfl).elim⟩

/-- The halves that have been read are what they should be. -/
def GoodHalves (S : Snapshot) (s : Slot) (key : Scalar) (read : Option Atom × Option Value) :
    Prop :=
  (∀ k, read.1 = some k → key.holds k) ∧ ∀ v, read.2 = some v → v.Fills S .single s.type

theorem collects_half (hinner : Inner.Sound S inner) (ht : t.snapshot = S) (levels : Nat)
    (s : Slot) (key : Scalar) {read : Option Atom × Option Value} (hread : GoodHalves S s key read)
    (r : Wire.Record) :
    Collects (half inner levels t s key read r) (GoodHalves S s key) fun read' =>
      (∀ v, read.2 = some v → v.Complete) → ∀ v, read'.2 = some v → v.Complete := by
  obtain ⟨id, p⟩ := r
  rw [half]
  split
  · refine (collects_atom (s.entryKey key) p).bind fun k hk => ?_
    refine Collects.pure ⟨fun k' hk' => ?_, hread.2⟩ fun _ h => h
    cases hk'
    exact hk
  · split
    · refine (collects_value hinner ht s.entryValue p).bind fun v hv => ?_
      refine Collects.pure ⟨hread.1, fun v' hv' => ?_⟩ fun hcomplete _ v' hv' => ?_
      · cases hv'
        exact hv
      · cases hv'
        exact hcomplete
    · exact (collects_pass _ p).andThen fun _ => Collects.pure hread fun h => h

theorem collects_entry (hg : S.graph.Linked) (hinner : Inner.Sound S inner) (ht : t.snapshot = S)
    (levels : Nat) (s : Slot) (key : Scalar) (content : List UInt8) :
    Collects (entry inner levels t s key content)
      (fun e => key.holds e.1 ∧ e.2.Fills S .single s.type)
      fun e => (∀ t, e.2 ≠ .message (Message.new t)) → e.2.Complete := by
  rw [entry]
  refine (Collects.foldlM (fun read hread r _ => collects_half hinner ht levels s key hread r)
    ⟨by simp, by simp⟩).bind fun read hread => ?_
  refine Collects.bind (collects_finish hinner ht _ (fun id => Collects.pure trivial trivial)
    (fun id => ?_) _) fun _ _ => Collects.pure ⟨?_, ?_⟩ fun _ hcomplete hnew => ?_
  · split
    · exact (collects_expect _ _).andThen fun _ => Collects.throw rfl
    · exact Collects.throw rfl
  · cases hk : read.1 with
    | none => exact key.holds_zero
    | some k => exact hread.1 k hk
  · cases hv : read.2 with
    | none => exact (fills_absentHalf hg ht s.type).1
    | some v => exact hread.2 v hv
  · cases hv : read.2 with
    | none =>
      simp only [hv, Option.getD_none] at hnew
      exact (fills_absentHalf hg ht s.type).2 hnew
    | some v => exact hcomplete (by simp) v hv

/-! ### Messages -/

/-- All values of the message are complete. -/
def AllComplete (m : Message) : Prop :=
  ∀ f v, m.value? f = some v → v.Complete

theorem AllComplete.insert {m : Message} (hm : AllComplete m) {f : NodeId} {v : Value}
    (hv : v.Complete) : AllComplete (m.insert f v) := by
  intro f' v' hv'
  rw [Message.value?_insert] at hv'
  split at hv'
  · cases hv'
    exact hv
  · exact hm f' v' hv'

theorem AllComplete.put {m : Message} (hm : AllComplete m) {f : NodeId} {v : Value}
    (hv : v.Complete) : AllComplete (m.put f v) := by
  refine AllComplete.insert (fun f' v' hv' => ?_) hv
  rw [Message.WellTyped.value?_foldl_erase] at hv'
  split at hv'
  · cases hv'
  · exact hm f' v' hv'

theorem AllComplete.prepend {m : Message} (hm : AllComplete m) {f : NodeId} {items : List Value}
    (hitems : ∀ v ∈ items, v.Complete) : AllComplete (prepend m f items) := by
  rw [Decoding.prepend]
  split
  · exact hm
  · refine hm.insert (.list fun v hv => ?_)
    rw [List.reverseAux_eq, List.mem_append, List.mem_reverse] at hv
    rcases hv with hv | hv
    · exact hitems v hv
    · cases hw : m.value? f with
      | none => simp [hw] at hv
      | some w =>
        have hwc := hm f w hw
        cases w with
        | list items' =>
          rw [hw] at hv
          cases hwc with
          | list hitems' => exact hitems' v hv
        | _ => simp [hw, Value.list?] at hv

theorem AllComplete.putEntry {m : Message} (hm : AllComplete m) {f : NodeId} {s : Slot}
    {key : Scalar} {k : Atom} {v : Value}
    (hv : (∀ t, v ≠ .message (Message.new t)) → v.Complete) :
    AllComplete (m.putEntry f s key k v) := by
  rw [Message.putEntry]
  split
  · refine hm.insert (.map fun e he hnew => ?_)
    rcases Keyed.mem_insert he with rfl | he
    · exact hv hnew
    · cases he
  · rename_i entries hentries
    refine hm.insert (.map fun e he hnew => ?_)
    rcases Keyed.mem_insert he with rfl | he
    · exact hv hnew
    · have hold := hm f _ hentries
      cases hold with
      | map hvalues => exact hvalues e he hnew
  · exact hm

theorem wellTyped_prepend (hg : S.graph.Linked) {m : Message} (hm : m.WellTyped S) {f : NodeId}
    {s : Slot} (hf : f ∈ S.graph.allFields m.type.node) (hs : S.graph.slot? f = some s)
    (hshape : s.shape = .list) {items : List Value}
    (hitems : ∀ v ∈ items, v.Fills S .single s.type) : (prepend m f items).WellTyped S := by
  rw [prepend]
  split
  · exact hm
  · refine hm.insert_collection hg hf hs (by simp [hshape]) ?_
    rw [hshape]
    refine .list fun v hv => ?_
    rw [List.reverseAux_eq, List.mem_append, List.mem_reverse] at hv
    rcases hv with hv | hv
    · exact hitems v hv
    · exact hm.items hs hshape v hv

theorem wellTyped_putEntry (hg : S.graph.Linked) {m : Message} (hm : m.WellTyped S) {f : NodeId}
    {s : Slot} (hf : f ∈ S.graph.allFields m.type.node) (hs : S.graph.slot? f = some s)
    {key : Scalar} (hshape : s.shape = .map key) {k : Atom} {v : Value} (hk : key.holds k)
    (hv : v.Fills S .single s.type) : (m.putEntry f s key k v).WellTyped S := by
  have hne : s.shape ≠ .single := by simp [hshape]
  rw [Message.putEntry]
  split
  · refine hm.insert_collection hg hf hs hne ?_
    rw [hshape, Message.emptyMap, hm.snapshot]
    exact MapValue.fills_insert MapValue.fills_empty hk hv
  · rename_i entries hentries
    refine hm.insert_collection hg hf hs hne ?_
    have hold := hm.fills hentries hs
    rw [hshape] at hold ⊢
    cases hold with
    | map hascending hkeys hvalues =>
      exact MapValue.fills_insert (.map hascending hkeys hvalues) hk hv
  · exact hm

theorem type_putEntry (m : Message) (f : NodeId) (s : Slot) (key : Scalar) (k : Atom) (v : Value) :
    (m.putEntry f s key k v).type = m.type := by
  rw [Message.putEntry]
  split <;> rfl

theorem type_prepend (m : Message) (f : NodeId) (items : List Value) :
    (prepend m f items).type = m.type := by
  rw [prepend]
  split <;> rfl

theorem type_put (m : Message) (f : NodeId) (v : Value) : (m.put f v).type = m.type :=
  Message.WellTyped.type_foldl_erase m _

/-- The payload of a field is taken into a message. -/
theorem collects_field (hg : S.graph.Linked) (hinner : Inner.Sound S inner) (levels : Nat)
    {m : Message} (hm : m.WellTyped S) {f : NodeId} {s : Slot}
    (hf : f ∈ S.graph.allFields m.type.node) (hs : S.graph.slot? f = some s) (p : Wire.Payload) :
    Collects (field inner levels m f s p) (fun m' => m'.type = m.type ∧ m'.WellTyped S)
      fun m' => AllComplete m → AllComplete m' := by
  have hlist : s.shape = .list → ∀ items, (∀ v ∈ items, v.Fills S .single s.type) →
      (prepend m f items).type = m.type ∧ (prepend m f items).WellTyped S :=
    fun hshape items hitems => ⟨type_prepend m f items, wellTyped_prepend hg hm hf hs hshape hitems⟩
  have helement : s.shape = .list → ∀ p, Collects
      (do return prepend m f [← value inner m.type s p])
      (fun m' => m'.type = m.type ∧ m'.WellTyped S) fun m' => AllComplete m → AllComplete m' := by
    intro hshape p
    refine (collects_value hinner hm.snapshot s p).bind fun v hv => ?_
    exact Collects.pure (hlist hshape [v] (by simpa using hv)) fun hc hm' =>
      hm'.prepend (by simpa using hc)
  simp only [field]
  refine (collects_expect s p.wireType).andThen fun _ => ?_
  split
  · rename_i hshape
    refine (collects_value hinner hm.snapshot s _).bind fun v hv => ?_
    refine Collects.pure ⟨type_put m f v, hm.put hg.toSound hf hs ?_⟩ fun hc hm' => hm'.put hc
    rw [hshape]
    exact hv
  · rename_i content hshape
    split
    · refine Collects.bind (collects_packed (S := S) s content) fun items hitems => ?_
      exact Collects.pure (hlist hshape items hitems) fun hc hm' => hm'.prepend hc
    · exact helement hshape _
  · rename_i hshape _
    exact helement hshape _
  · rename_i key content hshape
    refine (collects_entry hg hinner hm.snapshot levels s key content).bind fun e he => ?_
    exact Collects.pure ⟨type_putEntry m f s key e.1 e.2,
      wellTyped_putEntry hg hm hf hs hshape he.1 he.2⟩ fun hc hm' => hm'.putEntry hc
  · exact Collects.throw rfl

theorem collects_slot (g : Graph) (f : NodeId) :
    Collects (slot g f) (fun s => g.slot? f = some s) fun _ => True := by
  rw [slot]
  split
  · rename_i s hs
    exact Collects.pure hs trivial
  · exact Collects.throw rfl

/-- A record is taken into a message. -/
theorem collects_record (hg : S.graph.Linked) (hinner : Inner.Sound S inner) (levels : Nat)
    {m : Message} (hm : m.WellTyped S) (r : Wire.Record) :
    Collects (record inner levels m r) (fun m' => m'.type = m.type ∧ m'.WellTyped S)
      fun m' => AllComplete m → AllComplete m' := by
  obtain ⟨id, p⟩ := r
  rw [record]
  split
  · rename_i f hf
    have hgraph : m.type.graph = S.graph := hm.graph
    rw [MessageType.fieldById?, hgraph] at hf
    refine (collects_slot m.graph f).bind fun s hs => ?_
    rw [hm.graph] at hs
    exact (collects_field hg hinner levels hm (hg.fieldById?_eq_some.mp hf).1 hs p).mono
      (fun _ h => h) fun _ _ h _ => h
  · exact (collects_pass levels p).andThen fun _ => Collects.pure ⟨rfl, hm⟩ fun h => h

/-! ### Turning -/

theorem fills_turnValue {shape : Shape} {type : FieldType} {v : Value}
    (h : v.Fills S shape type) : (turnValue v).Fills S shape type := by
  cases h with
  | list hitems => exact .list fun v hv => hitems v (List.mem_reverse.mp hv)
  | atom hholds => exact .atom hholds
  | message hnode hsnapshot hregular hfields => exact .message hnode hsnapshot hregular hfields
  | map hascending hkeys hvalues => exact .map hascending hkeys hvalues

theorem wellTyped_turn {m : Message} (hm : m.WellTyped S) : (turn m).WellTyped S := by
  have hback : ∀ f v, (turn m).value? f = some v → ∃ w, m.value? f = some w ∧ turnValue w = v := by
    intro f v hv
    rw [value?_turn] at hv
    exact Option.map_eq_some_iff.mp hv
  refine Message.wellTyped_iff.mpr ⟨hm.snapshot, ⟨hm.regular.ascending.map fst_turnEntry,
    fun f v hv => ?_, fun f f' v v' hv hv' => ?_⟩, fun f v s hv hs => ?_⟩
  · obtain ⟨w, hw, -⟩ := hback f v hv
    exact hm.regular.known f w hw
  · obtain ⟨w, hw, -⟩ := hback f v hv
    obtain ⟨w', hw', -⟩ := hback f' v' hv'
    exact hm.regular.apart f f' w w' hw hw'
  · obtain ⟨w, hw, rfl⟩ := hback f v hv
    exact fills_turnValue (hm.fills hw hs)

theorem AllComplete.turn {m : Message} (hm : AllComplete m) : AllComplete (turn m) := by
  intro f v hv
  rw [value?_turn] at hv
  obtain ⟨w, hw, rfl⟩ := Option.map_eq_some_iff.mp hv
  have hc := hm f w hw
  cases w with
  | list items =>
    cases hc with
    | list hitems => exact .list fun v hv => hitems v (List.mem_reverse.mp hv)
  | _ => exact hc

/-! ### Defaults -/

theorem exists_atom_of_standIn? {m : Message} {f : NodeId} {v : Value}
    (h : m.standIn? f = some v) : ∃ a, v = .atom a := by
  rw [Message.standIn?] at h
  split at h
  · obtain ⟨a, -, rfl⟩ := Option.map_eq_some_iff.mp h
    exact ⟨a, rfl⟩
  · cases h

/-- Defaults are atoms, and they make nothing absent. -/
theorem AllComplete.populate {m : Message} (hm : AllComplete m) : AllComplete m.populate := by
  intro f v hv
  rw [Message.WellTyped.value?_populate] at hv
  rcases Option.or_eq_some_iff.mp hv with hv | ⟨-, hv⟩
  · exact hm f v hv
  · obtain ⟨a, rfl⟩ := exists_atom_of_standIn? hv
    exact .atom a

theorem missingFields_populate {m : Message} (h : m.missingFields = []) :
    m.populate.missingFields = [] := by
  have hgraph : m.populate.graph = m.graph := by
    rw [Message.graph, Message.WellTyped.type_populate]
    rfl
  rw [Message.missingFields_eq, Message.absentRequired, List.map_eq_nil_iff,
    List.filter_eq_nil_iff] at h ⊢
  rw [hgraph, Message.WellTyped.type_populate]
  intro f hf hmissing
  refine h f hf ?_
  rw [Bool.and_eq_true, Option.isNone_iff_eq_none] at hmissing ⊢
  refine ⟨hmissing.1, ?_⟩
  have hnone := hmissing.2
  rw [Message.WellTyped.value?_populate] at hnone
  exact (Option.or_eq_none_iff.mp hnone).1

/-! ### Whole messages -/

theorem collects_note (missing : List String) :
    Collects (modify (· ++ missing)) (fun _ => True) fun _ => missing = [] := by
  refine fun noted => ⟨fun a noted' hrun => ?_, fun e hrun => ?_⟩
  · cases hrun
    exact ⟨trivial, fun h => List.append_eq_nil_iff.mp h⟩
  · cases hrun

theorem sound_messageWith (hg : S.graph.Linked) (hinner : Inner.Sound S inner) (levels : Nat) :
    Inner.Sound S (messageWith inner levels) := by
  intro t stream ht
  rw [messageWith]
  refine Collects.bind (Collects.foldlM (C := fun m => m.type = t ∧ m.WellTyped S)
    (D := AllComplete) (fun m hm r _ => (collects_record hg hinner levels hm.2 r).mono
      (fun _ h => ⟨h.1.trans hm.1, h.2⟩) fun _ _ h => h)
    ⟨rfl, Message.WellTyped.empty ht⟩) fun m hm => ?_
  have hclosed : ∀ id, Grows (MonadExcept.throw (DecodeError.unexpectedEndGroup id)
      : Decoding Unit) := fun id => Collects.throw rfl
  have hknown : ∀ id, Grows (known t id) := by
    intro id
    rw [known]
    split
    · exact (collects_slot _ _).map (fun _ _ => trivial) fun _ _ _ => trivial
    · exact Collects.pure trivial trivial
  refine (collects_finish hinner ht levels hknown hclosed stream.ending).andThen fun _ => ?_
  refine (collects_note _).bind fun _ _ => Collects.pure ?_ fun hmissing hcomplete => ?_
  · exact ⟨(Message.WellTyped.type_populate _).trans hm.1, (wellTyped_turn hm.2).populate hg⟩
  · have hall : AllComplete m := hcomplete fun f v hv => by cases hv
    exact .message (missingFields_populate hmissing) (Message.WellTyped.populated_populate _)
      hall.turn.populate

theorem sound_message (hg : S.graph.Linked) (levels : Nat) : Inner.Sound S (message levels) := by
  induction levels with
  | zero => exact sound_messageWith hg (fun t stream _ => Collects.throw rfl) 0
  | succ levels ih => exact sound_messageWith hg ih (levels + 1)

end

end Decoding

namespace Message

variable {S : Snapshot} {t : MessageType} {bytes : List UInt8} {m : Message}

/-- A message is read without complaint, or required fields are absent from it, or else the bytes
are refused. -/
theorem decode_cases (hg : S.graph.Linked) (ht : t.snapshot = S) (bytes : List UInt8) :
    (∃ m, decode t bytes = .ok m ∧ m.type = t ∧ m.WellTyped S ∧ (Value.message m).Complete) ∨
      (∃ missing m, decode t bytes = .error (.missingRequired missing m none) ∧ missing ≠ [] ∧
        m.type = t ∧ m.WellTyped S) ∨
      ∃ e, decode t bytes = .error e ∧ e.isRefusal := by
  obtain ⟨hok, herror⟩ := Decoding.sound_message hg recursionLimit t (.ofBytes bytes) ht []
  cases hrun : (Decoding.message recursionLimit t (.ofBytes bytes)).run [] with
  | error e =>
    refine .inr (.inr ⟨e, ?_, herror e hrun⟩)
    rw [decode, hrun]
    rfl
  | ok r =>
    obtain ⟨⟨htype, hm⟩, hcomplete⟩ := hok r.1 r.2 hrun
    cases hnoted : r.2 with
    | nil =>
      refine .inl ⟨r.1, ?_, htype, hm, (hcomplete hnoted).2⟩
      rw [decode, hrun, bind_eq_ok]
      exact ⟨r, rfl, by simp only [hnoted, List.isEmpty_nil]; rfl⟩
    | cons path more =>
      refine .inr (.inl ⟨path :: more, r.1, ?_, List.cons_ne_nil _ _, htype, hm⟩)
      rw [decode, hrun]
      show (if r.2.isEmpty then pure r.1 else throw (DecodeError.missingRequired r.2 r.1 none)) = _
      rw [hnoted]
      rfl

/-- What is read without complaint is well typed and complete. -/
theorem wellTyped_of_decode (hg : S.graph.Linked) (ht : t.snapshot = S)
    (h : decode t bytes = .ok m) : m.type = t ∧ m.WellTyped S ∧ (Value.message m).Complete := by
  rcases decode_cases hg ht bytes with ⟨m', hm', hgood⟩ | ⟨missing, m', hm', -⟩ | ⟨e, he, -⟩
  · rw [h] at hm'
    cases hm'
    exact hgood
  · rw [h] at hm'
    cases hm'
  · rw [h] at he
    cases he

/-- What is read although required fields are absent is well typed, too. -/
theorem wellTyped_of_decode_error (hg : S.graph.Linked) (ht : t.snapshot = S)
    {missing : List String} {consumed : Option Nat}
    (h : decode t bytes = .error (.missingRequired missing m consumed)) :
    m.type = t ∧ m.WellTyped S := by
  rcases decode_cases hg ht bytes with ⟨m', hm', -⟩ | ⟨missing', m', hm', -, hgood⟩ | ⟨e, he, h'⟩
  · rw [h] at hm'
    cases hm'
  · rw [h] at hm'
    cases hm'
    exact hgood
  · rw [h] at he
    cases he
    cases h'

end Message

end Protobuf

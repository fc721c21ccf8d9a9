import Mathlib.Tactic.Common
import Protobuf.Proofs.Message.Change
import Protobuf.Proofs.Registry.Loaded

/-!
# Levels of messages

A message that is read takes one level more than those inside of it, and the messages inside are
read with one level less to go. So what is read nests no deeper than the levels that are left. There
is one kind of message that is not read: where the entry of a map has no value, a new message stands
in for it, and no levels are looked at then. In a message on the last level, such an entry holds a
message one level deeper.

A new message has nothing in it but defaults, so there is no way to get any deeper.

## Main definitions

* `Message.Contains` — a message lies so many levels below another one.
* `Message.MapsTo` — a message is the value of an entry in a map of another one.
* `Message.NestsWithin` — messages lie at most so many levels deep, apart from such new ones.

## Main results

* `Decoding.yields_holding` — what a message holds that is read
* `Decoding.yields_nestsWithin` — how deep it nests
* `Message.IsReadFrom.nesting_bounded` — how deep the messages nest that bytes hold
-/

namespace Protobuf

/-! ### Levels -/

/-- The value holds the message, and no other one around that. -/
inductive Value.Holds : Value → Message → Prop
  | message (m : Message) : Holds (.message m) m
  | element {items : List Value} {v : Value} {m : Message} (hv : v ∈ items) (h : Holds v m) :
      Holds (.list items) m
  | entry {map : MapValue} {e : Atom × Value} {m : Message} (he : e ∈ map.entries)
      (h : Holds e.2 m) : Holds (.map map) m

/-- The message `p` lies so many levels below the message. -/
inductive Message.Contains : (m : Message) → (level : Nat) → (p : Message) → Prop
  | self (m : Message) : Contains m 0 m
  | inside {m n p : Message} {e : NodeId × Value} {level : Nat} (he : e ∈ m.entries)
      (hn : e.2.Holds n) (hp : Contains n level p) : Contains m (level + 1) p

namespace Message

/-- The message `n` is the value of an entry in a map of the message. -/
def MapsTo (m n : Message) : Prop :=
  ∃ f map k, (f, Value.map map) ∈ m.entries ∧ (k, Value.message n) ∈ map.entries

/-- Messages lie at most so many levels below the message, but for new ones that are values of maps
on the last level. -/
def NestsWithin (levels : Nat) (m : Message) : Prop :=
  ∀ level p, m.Contains level p → level ≤ levels ∨
    (level = levels + 1 ∧ p = new p.type ∧ ∃ n, m.Contains levels n ∧ n.MapsTo p)

end Message

/-! ### What values hold -/

/-- The value is an atom or a message that has the property. -/
inductive Value.Single (P : Message → Prop) : Value → Prop
  | atom (a : Atom) : Single P (.atom a)
  | message {m : Message} (h : P m) : Single P (.message m)

/-- All messages in the value have the property `P`, if they are not the values of a map, which have
the property `Q`. -/
inductive Value.Within (P Q : Message → Prop) : Value → Prop
  | single {v : Value} (h : v.Single P) : Within P Q v
  | list {items : List Value} (h : ∀ v ∈ items, v.Single P) : Within P Q (.list items)
  | map {map : MapValue} (h : ∀ e ∈ map.entries, e.2.Single Q) : Within P Q (.map map)

/-- All values that the change brings into a message are of that kind. -/
inductive Change.Brings (P Q : Message → Prop) : Change → Prop
  | keep : Brings P Q .keep
  | put {f : NodeId} {v : Value} (h : v.Single P) : Brings P Q (.put f v)
  | append {f : NodeId} {items : List Value} (h : ∀ v ∈ items, v.Single P) :
      Brings P Q (.append f items)
  | putEntry {f : NodeId} {s : Slot} {keyType : Scalar} {k : Atom} {v : Value} (h : v.Single Q) :
      Brings P Q (.putEntry f s keyType k v)

/-- All values in the message are of that kind. -/
def Message.Holding (P Q : Message → Prop) (m : Message) : Prop :=
  ∀ e ∈ m.entries, e.2.Within P Q

section

variable {P P' Q Q' : Message → Prop}

theorem Value.Single.mono {v : Value} (h : v.Single P) (hP : ∀ m, P m → P' m) : v.Single P' := by
  cases h with
  | atom a => exact .atom a
  | message h => exact .message (hP _ h)

theorem Value.Single.of_holds {v : Value} (h : v.Single P) {n : Message} (hn : v.Holds n) :
    v = .message n ∧ P n := by
  cases h with
  | atom a => cases hn
  | message h =>
    cases hn
    exact ⟨rfl, h⟩

/-- A message in a value of a message is no value of a map, or it is. -/
theorem Message.Holding.of_holds {m : Message} (h : m.Holding P Q) {e : NodeId × Value}
    (he : e ∈ m.entries) {n : Message} (hn : e.2.Holds n) : P n ∨ (Q n ∧ m.MapsTo n) := by
  obtain ⟨f, v⟩ := e
  cases h _ he with
  | single hsingle => exact .inl (hsingle.of_holds hn).2
  | list hitems =>
    cases hn with
    | element hv hn => exact .inl ((hitems _ hv).of_holds hn).2
  | @map map hentries =>
    cases hn with
    | @entry _ e' _ he' hn =>
      obtain ⟨hvalue, hQ⟩ := (hentries _ he').of_holds hn
      refine .inr ⟨hQ, f, map, e'.1, he, ?_⟩
      rw [← hvalue]
      exact he'

namespace Message.Holding

variable {m : Message} {f : NodeId}

theorem empty (t : MessageType) : (Message.empty t).Holding P Q :=
  List.forall_mem_nil _

theorem insert (h : m.Holding P Q) {v : Value} (hv : v.Within P Q) : (m.insert f v).Holding P Q :=
  Keyed.forall_mem_insert hv h

theorem value (h : m.Holding P Q) {v : Value} (hv : m.value? f = some v) : v.Within P Q :=
  h (f, v) (mem_of_value? hv)

/-- A change brings nothing into a message that it does not hold. -/
theorem apply (h : m.Holding P Q) {c : Change} (hc : c.Brings P Q) : (c.apply m).Holding P Q := by
  cases hc with
  | keep => exact h
  | @put f v hv =>
    have herased : ((m.rivals f).foldl Message.erase m).Holding P Q :=
      List.foldlRecOn _ _ h fun _ h _ _ e he => h e (Keyed.mem_of_mem_erase he)
    exact herased.insert (.single hv)
  | @append f items hitems =>
    rw [Change.apply, append]
    split
    · exact h
    · refine h.insert (.list fun v hv => (List.mem_append.mp hv).elim (fun hv => ?_) (hitems v))
      cases hvalue : m.value? f with
      | none =>
        rw [hvalue] at hv
        cases hv
      | some w =>
        rw [hvalue, Option.bind_some] at hv
        cases h.value hvalue with
        | single hsingle => cases hsingle <;> cases hv
        | list hitems => exact hitems v hv
        | map hentries => cases hv
  | @putEntry f s keyType k v hv =>
    have hinserted : ∀ map : MapValue, (∀ e ∈ map.entries, e.2.Single Q) →
        (Value.map (map.insert k v)).Within P Q := by
      intro map hmap
      exact .map (Keyed.forall_mem_insert hv hmap)
    rw [Change.apply, putEntry]
    split
    · exact h.insert (hinserted _ (List.forall_mem_nil _))
    · rename_i map hvalue
      cases h.value hvalue with
      | single hsingle => cases hsingle
      | map hentries => exact h.insert (hinserted map hentries)
    · exact h

theorem foldl (h : m.Holding P Q) {cs : List Change} (hcs : ∀ c ∈ cs, c.Brings P Q) :
    (cs.foldl Change.apply m).Holding P Q :=
  List.foldlRecOn _ _ h fun _ h c hc => h.apply (hcs c hc)

/-- Defaults are no messages. -/
theorem populate (h : m.Holding P Q) : m.populate.Holding P Q := by
  rw [Message.populate]
  split
  · refine List.foldlRecOn _ _ h fun m h f _ => ?_
    rw [fill]
    split
    · exact h.insert (.single (.atom _))
    · exact h
  · exact h

end Message.Holding

end

theorem Message.eq_new (t : MessageType) : new t = new (new t).type := by
  have htype : (new t).type = t := WellTyped.type_populate _
  rw [htype]

/-- There is no message in a new one. -/
theorem Message.contains_new {t : MessageType} {level : Nat} {p : Message}
    (h : (new t).Contains level p) : level = 0 ∧ p = new t := by
  cases h with
  | self => exact ⟨rfl, rfl⟩
  | inside he hn hp =>
    have hholding : (new t).Holding (fun _ => False) fun _ => False := (Holding.empty t).populate
    rcases hholding.of_holds he hn with hfalse | ⟨hfalse, -⟩ <;> exact hfalse.elim

/-- Where no messages are read, there are only new ones in the maps. -/
theorem Message.Holding.nestsWithin_zero {m : Message}
    (h : m.Holding (fun _ => False) fun n => False ∨ n = new n.type) : m.NestsWithin 0 := by
  intro level p hp
  cases hp with
  | self => exact .inl (Nat.le_refl 0)
  | inside he hn hp =>
    rcases h.of_holds he hn with hfalse | ⟨hfalse | hnew, hmaps⟩
    · exact hfalse.elim
    · exact hfalse.elim
    · rw [hnew] at hp
      obtain ⟨rfl, rfl⟩ := contains_new hp
      rw [← hnew]
      exact .inr ⟨rfl, hnew, m, .self m, hmaps⟩

/-- Around messages that nest within so many levels there is one level more. A new message has no
levels of its own. -/
theorem Message.Holding.nestsWithin_succ {m : Message} {levels : Nat}
    (h : m.Holding (NestsWithin levels) fun n => n.NestsWithin levels ∨ n = new n.type) :
    m.NestsWithin (levels + 1) := by
  intro level p hp
  cases hp with
  | self => exact .inl (Nat.zero_le _)
  | @inside _ n _ e level he hn hp =>
    have hcases : n.NestsWithin levels ∨ n = new n.type :=
      (h.of_holds he hn).elim .inl And.left
    rcases hcases with hread | hnew
    · rcases hread level p hp with hle | ⟨rfl, hnew, n', hn', hmaps⟩
      · exact .inl (Nat.succ_le_succ hle)
      · exact .inr ⟨rfl, hnew, n', .inside he hn hn', hmaps⟩
    · rw [hnew] at hp
      rw [(contains_new hp).1]
      exact .inl (Nat.succ_le_succ (Nat.zero_le _))

/-! ### Reading -/

namespace Decoding

variable {inner : Inner} {levels : Nat} {t : MessageType} {P : Message → Prop}

theorem yields_packed_single (s : Slot) (content : List UInt8) :
    Yields (packed s content) fun items => ∀ v ∈ items, v.Single P := by
  rw [packed]
  split
  · exact Yields.mapM fun p _ => (Yields.trivial.mono fun a _ => .atom a).map
  · exact Yields.throw _

section

variable (hinner : ∀ t stream, Yields (inner t stream) P)

include hinner

theorem yields_value_single (s : Slot) (p : Wire.Payload) :
    Yields (value inner t s p) (Value.Single P) := by
  simp only [value]
  split
  · exact ((hinner _ _).mono fun _ h => .message h).map
  · exact ((hinner _ _).mono fun _ h => .message h).map
  · exact (Yields.trivial.mono fun a _ => .atom a).map

/-- The value of an entry has been read, or it is a new message. -/
theorem yields_entry_single (s : Slot) (key : Scalar) (content : List UInt8) :
    Yields (entry inner levels t s key content) fun e =>
      e.2.Single fun n => P n ∨ n = Message.new n.type := by
  have hhalf : ∀ read : Option Atom × Option Value, (∀ v, read.2 = some v → v.Single P) →
      ∀ r, Yields (half inner levels t s key read r) fun read =>
        ∀ v, read.2 = some v → v.Single P := by
    rintro read hread ⟨id, p⟩
    rw [half]
    split
    · exact Yields.andThen fun k => Yields.pure hread
    · split
      · refine (yields_value_single hinner s.entryValue p).bind fun v hv => Yields.pure ?_
        rintro v' heq
        cases heq
        exact hv
      · exact Yields.andThen fun _ => Yields.pure hread
  rw [entry]
  refine (Yields.foldlM (fun read hread r _ => hhalf read hread r) ?_).bind fun read hread => ?_
  · rintro v heq
    cases heq
  refine Yields.andThen fun _ => Yields.pure ?_
  cases hvalue : read.2 with
  | some v => exact (hread v hvalue).mono fun _ h => .inl h
  | none =>
    show (absentHalf t s.type).Single _
    cases s.type with
    | scalar type => exact .atom _
    | enumeration node => exact .atom _
    | message node => exact .message (.inr (Message.eq_new _))
    | group node => exact .message (.inr (Message.eq_new _))

theorem yields_brings (r : Wire.Record) :
    Yields (change inner levels t r) (Change.Brings P fun n => P n ∨ n = Message.new n.type) := by
  obtain ⟨id, p⟩ := r
  rw [change]
  split
  · refine Yields.andThen fun s => Yields.andThen fun _ => ?_
    unfold shapedChange
    split
    · exact (yields_value_single hinner s _).bind fun v hv => Yields.pure (.put hv)
    · split
      · exact (yields_packed_single s _).bind fun items h => Yields.pure (.append h)
      · refine (yields_value_single hinner s _).bind fun v hv => Yields.pure (.append ?_)
        exact List.forall_mem_singleton.mpr hv
    · refine (yields_value_single hinner s _).bind fun v hv => Yields.pure (.append ?_)
      exact List.forall_mem_singleton.mpr hv
    · exact (yields_entry_single hinner s _ _).bind fun e he => Yields.pure (.putEntry he)
    · exact Yields.throw _
  · exact Yields.andThen fun _ => Yields.pure .keep

/-- What a message holds that is read has been read, or it is a new message in a map. -/
theorem yields_holding (stream : Wire.Stream) :
    Yields (messageWith inner levels t stream)
      (Message.Holding P fun n => P n ∨ n = Message.new n.type) := by
  rw [messageWith_eq]
  refine (Yields.mapM fun r _ => yields_brings hinner r).bind fun cs hcs => ?_
  refine Yields.andThen fun _ => Yields.andThen fun _ => Yields.pure ?_
  exact ((Message.Holding.empty t).foldl hcs).populate

end

/-- A message that is read nests no deeper than the levels that are left, but for new messages in
maps on the last one. -/
theorem yields_nestsWithin (levels : Nat) (t : MessageType) (stream : Wire.Stream) :
    Yields (message levels t stream) (Message.NestsWithin levels) := by
  induction levels generalizing t stream with
  | zero =>
    have hnone : ∀ t stream, Yields (below 0 t stream) fun _ => False := fun _ _ => Yields.throw _
    rw [message_eq]
    exact (yields_holding hnone stream).mono fun m hm => hm.nestsWithin_zero
  | succ levels ih =>
    rw [message_eq]
    exact (yields_holding ih stream).mono fun m hm => hm.nestsWithin_succ

end Decoding

namespace Message

/-- A message in a map lies one level deeper. -/
theorem Contains.mapsTo {m n p : Message} {level : Nat} (h : m.Contains level n) (hp : n.MapsTo p) :
    m.Contains (level + 1) p := by
  induction h with
  | self =>
    obtain ⟨f, map, k, hmap, hp⟩ := hp
    exact .inside hmap (.entry hp (.message p)) (.self p)
  | inside he hn _ ih => exact .inside he hn (ih hp)

/-- Where bytes are read as a message, required fields or not, the messages in it lie at most a
hundred levels below it. There may be new messages one level deeper, that stand for the values of
entries in maps of messages on the last level; so the bound holds exactly if there are no entries in
maps of messages there. -/
theorem IsReadFrom.nesting_bounded {m : Message} {t : MessageType} {bytes : List UInt8}
    (h : m.IsReadFrom t bytes) :
    m.NestsWithin recursionLimit ∧
      ((∀ level p, m.Contains level p → level ≤ recursionLimit) ↔
        ∀ n p, m.Contains recursionLimit n → ¬n.MapsTo p) := by
  obtain ⟨noted, hrun⟩ := isReadFrom_iff.mp h
  have hnests := Decoding.yields_nestsWithin recursionLimit t _ _ _ _ hrun
  refine ⟨hnests, fun hbound n p hn hmaps => ?_, fun hnone level p hp => ?_⟩
  · exact absurd (hbound _ p (hn.mapsTo hmaps)) (Nat.not_succ_le_self _)
  · rcases hnests level p hp with hle | ⟨-, -, n, hn, hmaps⟩
    · exact hle
    · exact absurd hmaps (hnone n p hn)

end Message

/-- Chains of messages, and maps of them. -/
def Snapshot.chained : Snapshot where
  stamp := 0
  graph :=
    { nodes := #[
        ⟨"", none, .package { children := [1] }⟩,
        ⟨"M", some 0, .message { scope := { children := [2, 3] }, fields := [2, 3] }⟩,
        ⟨"a", some 1, .field (.plain .proto2 .optional 1 "a" "M"
          ⟨.message 1, none, false, none⟩)⟩,
        ⟨"m", some 1, .field { FieldNode.plain .proto2 .map 2 "m" "M"
          ⟨.message 1, some .int32, false, none⟩ with keyTypeName := some "int32" }⟩]
      extensions := []
      settings := {} }

theorem Snapshot.loaded_chained : Snapshot.chained.Loaded := by
  have h : (Registry.ofText {} "message M { optional M a = 1; map<int32, M> m = 2; }").snapshot =
      some chained := by
    cbv
  exact loaded_of_ofText h

namespace Message

/-- The type of the messages in the chain. -/
def link : MessageType :=
  ⟨⟨.chained, 1⟩⟩

/-- The records of a chain. The last message of it has an entry that is empty. -/
def chainRecords : Nat → List Wire.Record
  | 0 => [(2, .bytes [])]
  | level + 1 => [(1, .bytes (Wire.write (chainRecords level)))]

/-- The chain. -/
def chain : Nat → Message
  | 0 => ⟨link, [(3, .map ⟨.int32, .message 1, some .chained, [(.i32 0, .message (new link))]⟩)]⟩
  | level + 1 => ⟨link, [(2, .message (chain level))]⟩

theorem numbered_chainRecords (level : Nat) : Wire.Numbered (chainRecords level) := by
  have hsingle : ∀ (id : UInt32) content, id ≠ 0 → Wire.Numbered [(id, .bytes content)] :=
    fun id content hid => Wire.numbered_cons.mpr
      ⟨⟨hid, Wire.Payload.numbered_of_ne_group (by simp)⟩, Wire.numbered_nil⟩
  cases level with
  | zero => exact hsingle 2 _ (by decide)
  | succ level => exact hsingle 1 _ (by decide)

/-- A message of the chain is taken into the one around it. -/
theorem run_change_chain {inner : Inner} {levels : Nat} {content : List UInt8} {m : Message}
    (h : (inner link (.ofBytes content)).run [] = .ok (m, [])) :
    (Decoding.change inner levels link (1, .bytes content)).run [] =
      .ok (.put 2 (.message m), []) := by
  have hfield : link.fieldById? 1 = some 2 := by cbv
  have hslot : link.graph.slot? 2 = some ⟨"a", 1, .message 1, .single, false, false⟩ := by cbv
  rw [Decoding.change, hfield]
  simp only [Decoding.slot, hslot]
  show ((Value.message <$> inner link (.ofBytes content)) >>= fun v =>
    pure (Change.put 2 v)).run [] = _
  rw [StateT.run_bind, StateT.run_map, h]
  rfl

/-- A chain is read if there are as many levels left as it has. -/
theorem run_message_chain {level levels : Nat} (hle : level ≤ levels)
    (h : Wire.Addressable (Wire.write (chainRecords level))) :
    (Decoding.message levels link (.ofBytes (Wire.write (chainRecords level)))).run [] =
      .ok (chain level, []) := by
  rw [Wire.Stream.ofBytes_write (numbered_chainRecords level) h]
  induction level generalizing levels with
  | zero =>
    refine Decoding.message_eq_ok.mpr ⟨rfl, [.putEntry 3
      ⟨"m", 2, .message 1, .map .int32, false, false⟩ .int32 (.i32 0) (.message (new link))],
        [], ?_, ?_, ?_⟩
    · cbv
    · cbv
    · cbv
  | succ level ih =>
    obtain ⟨levels, rfl⟩ : ∃ l, levels = l + 1 := ⟨levels - 1, by omega⟩
    have haddressable : Wire.Addressable (Wire.write (chainRecords level)) :=
      (h.of_mem List.mem_cons_self).of_bytes
    have hinner : (Decoding.message levels link
        (.ofBytes (Wire.write (chainRecords level)))).run [] = .ok (chain level, []) := by
      rw [Wire.Stream.ofBytes_write (numbered_chainRecords level) haddressable]
      exact ih (Nat.le_of_succ_le_succ hle) haddressable
    refine Decoding.message_eq_ok.mpr ⟨rfl, [.put 2 (.message (chain level))], [], ?_, ?_, ?_⟩
    · rw [chainRecords, Decoding.below, List.mapM_cons, StateT.run_bind, run_change_chain hinner]
      rfl
    · cbv
    · cbv

theorem contains_chain (level : Nat) : (chain level).Contains (level + 1) (new link) := by
  induction level with
  | zero => exact .inside List.mem_cons_self (.entry List.mem_cons_self (.message _)) (.self _)
  | succ level ih => exact .inside List.mem_cons_self (.message _) ih

set_option maxRecDepth 8192 in
theorem decode_chain : decode link (Wire.write (chainRecords recursionLimit)) =
    .ok (chain recursionLimit) := by
  have haddressable : Wire.Addressable (Wire.write (chainRecords recursionLimit)) := by
    cbv
  exact decode_eq_ok.mpr (run_message_chain (Nat.le_refl _) haddressable)

/-- In the chain that is as long as is allowed, the last message has an entry in a map. -/
theorem nesting_bounded_chain : (chain recursionLimit).NestsWithin recursionLimit ∧
    ∃ n p, (chain recursionLimit).Contains recursionLimit n ∧ n.MapsTo p := by
  obtain ⟨hnests, hiff⟩ := IsReadFrom.nesting_bounded (.inl decode_chain)
  refine ⟨hnests, by_contra fun hnone => ?_⟩
  have hbound := hiff.mpr fun n p hn hp => hnone ⟨n, p, hn, hp⟩
  exact absurd (hbound _ _ (contains_chain recursionLimit)) (Nat.not_succ_le_self _)

/-- The new message that stands in for the value of that entry lies a hundred and one levels below
the outermost one. -/
theorem contains_beyond_limit : Snapshot.chained.Loaded ∧
    decode link (Wire.write (chainRecords 100)) = .ok (chain 100) ∧
    (chain 100).Contains 101 (new link) :=
  ⟨Snapshot.loaded_chained, decode_chain, contains_chain 100⟩

end Message

end Protobuf

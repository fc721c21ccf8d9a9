import Protobuf.Proofs.Message.Made
import Protobuf.Proofs.Message.Sent
import Protobuf.Proofs.Registry.Loaded

/-!
# Round trips

A message that has been made without unchecked changes can be written, unless required fields are
absent, and what has been written is read back as the message in its normal form. If required fields
are absent, what could be written is read back in the same way.

Both sides note what is absent, but the reader does not look at extensions.

## Main definitions

* `Message.branch` — a message that has another one in a list, as an instance.
* `Snapshot.extended`, `Message.single` — a schema with two required fields, one of them an
  extension, and messages that have one of the two.

## Main results

* `Message.Sent.encode_eq`, `Message.Sent.decode_eq` — what writing and reading give
* `Message.Made.decode_of_encode` — what has been written is read back
* `Message.Made.decode_of_missingRequired` — what is absent to the writer is absent to the reader,
  exactly if no extension is
-/

namespace Protobuf.Message

variable {S : Snapshot} {m : Message} {e : Encoding} {bytes : List UInt8}

/-! ### Bytes -/

/-- The records are what is written, in whatever frame. -/
theorem Sent.encodeFramed_eq (h : m.Sent e) (frame : List UInt8 → List UInt8) :
    m.encodeFramed frame = if e.missing.isEmpty then .ok (frame e.bytes)
      else .error (.missingRequired e.missing (frame e.bytes)) :=
  Message.encodeFramed_eq h.encoding frame

/-- The records are what is written; it goes along with the error if required fields are absent. -/
theorem Sent.encode_eq (h : m.Sent e) :
    m.encode = if e.missing.isEmpty then .ok e.bytes
      else .error (.missingRequired e.missing e.bytes) :=
  h.encodeFramed_eq id

/-- The records are read back from their bytes. -/
theorem Sent.decode_eq (h : m.Sent e) (haddr : Wire.Addressable e.bytes)
    (hdepth : m.depth ≤ recursionLimit) :
    ∃ noted, noted.Perm ((Value.message m).gather missingFields) ∧
      decode m.type e.bytes = if noted.isEmpty then .ok m.canonical
        else .error (.missingRequired noted m.canonical none) := by
  have hstream : Wire.Stream.ofBytes e.bytes = ⟨e.records, .atEnd⟩ :=
    Wire.Stream.ofBytes_write h.numbered haddr
  obtain ⟨noted, hrun, hperm⟩ := (h.read haddr recursionLimit).ok hdepth []
  refine ⟨noted, hperm, ?_⟩
  rw [decode, hstream, hrun]
  rfl

/-- Messages that nest deeper than the reader goes are refused. -/
theorem Sent.decode_eq_tooDeep (h : m.Sent e) (haddr : Wire.Addressable e.bytes)
    (hdepth : ¬m.depth ≤ recursionLimit) : decode m.type e.bytes = .error (.wire .tooDeep) := by
  have hstream : Wire.Stream.ofBytes e.bytes = ⟨e.records, .atEnd⟩ :=
    Wire.Stream.ofBytes_write h.numbered haddr
  have hrun := (h.read haddr recursionLimit).tooDeep hdepth []
  rw [decode, hstream, hrun]
  rfl

theorem gather_eq_flatMap (m : Message) (paths : Message → List String) :
    (Value.message m).gather paths = m.messages.flatMap paths := by
  rw [Value.gather, messages_message]

/-- Nothing is absent to the writer if nothing is at any level. -/
theorem Sent.missing_eq_nil_iff (h : m.Sent e) :
    e.missing = [] ↔ ∀ n ∈ m.messages, n.allMissing = [] := by
  have hperm := h.missing
  rw [gather_eq_flatMap] at hperm
  rw [← List.flatMap_eq_nil_iff]
  constructor
  · intro hnil
    rw [hnil] at hperm
    exact hperm.symm.eq_nil
  · intro hnil
    rw [hnil] at hperm
    exact hperm.eq_nil

/-- The reader is content if no own field is absent. -/
theorem Sent.decode_eq_ok (h : m.Sent e) (haddr : Wire.Addressable e.bytes)
    (hdepth : m.depth ≤ recursionLimit) (hown : ∀ n ∈ m.messages, n.missingFields = []) :
    decode m.type e.bytes = .ok m.canonical := by
  obtain ⟨noted, hnoted, hdecode⟩ := h.decode_eq haddr hdepth
  rw [gather_eq_flatMap, List.flatMap_eq_nil_iff.mpr hown] at hnoted
  rw [hnoted.eq_nil] at hdecode
  exact hdecode

/-! ### Complete messages -/

/-- What has been written is read back: at every level zero values are gone that are left out when
they are written, and the defaults are there. The bytes have to fit into memory. -/
theorem Made.decode_of_encode (hS : S.Loaded) (hm : m.Made S) (hdepth : m.depth ≤ recursionLimit)
    (h : m.encode = .ok bytes) (haddr : Wire.Addressable bytes) :
    ∃ m', decode m.type bytes = .ok m' ∧ m' == m.normal := by
  have hg := hS.linked
  have htyped := hm.wellTyped hg
  obtain ⟨e, he⟩ := htyped.exists_sent hg
  rw [he.encode_eq] at h
  split at h
  · rename_i hmissing
    cases h
    have hall := he.missing_eq_nil_iff.mp (List.isEmpty_iff.mp hmissing)
    refine ⟨m.canonical, he.decode_eq_ok haddr hdepth fun n hn => ?_,
      htyped.same_canonical_normal hg⟩
    exact (List.append_eq_nil_iff.mp (hall n hn)).1
  · cases h

/-- A tree with one branch. -/
def branch (populateDefaults : Bool) : Message :=
  ⟨⟨⟨.tree populateDefaults, 1⟩⟩, [(2, .atom (.i32 5)),
    (3, .list [.message (Message.new ⟨⟨.tree populateDefaults, 1⟩⟩)])]⟩

theorem made_branch (populateDefaults : Bool) :
    (branch populateDefaults).Made (.tree populateDefaults) := by
  have hleaf : (Message.new ⟨⟨.tree populateDefaults, 1⟩⟩).set "a" (.atom (.i32 5)) =
      .ok ⟨⟨⟨.tree populateDefaults, 1⟩⟩, [(2, .atom (.i32 5))]⟩ := by
    cases populateDefaults <;> rfl
  have hbranch : Message.add ⟨⟨⟨.tree populateDefaults, 1⟩⟩, [(2, .atom (.i32 5))]⟩ "b"
      (.message (Message.new ⟨⟨.tree populateDefaults, 1⟩⟩)) = .ok (branch populateDefaults) := by
    cases populateDefaults <;> rfl
  exact ⟨rfl, .add (.set (.new rfl) (.atom _) hleaf) (.new rfl) hbranch⟩

theorem decode_of_encode_branch : (branch true).encode = .ok [8, 5, 18, 0] ∧
    ∃ m', decode (branch true).type [8, 5, 18, 0] = .ok m' ∧ m' == (branch true).normal := by
  have hencode : (branch true).encode = .ok [8, 5, 18, 0] := by decide +kernel
  have hdepth : (branch true).depth ≤ recursionLimit := by decide_cbv
  exact ⟨hencode, (made_branch true).decode_of_encode (Snapshot.loaded_tree true) hdepth hencode
    (by rw [Wire.Addressable]; decide)⟩

/-! ### Messages that lack required fields -/

/-- The writer notes own fields, and extensions on top of them. -/
theorem Sent.perm_missing (h : m.Sent e) :
    e.missing.Perm (m.messages.flatMap missingFields ++ m.messages.flatMap missingExtensions) := by
  have hmissing := h.missing
  rw [gather_eq_flatMap] at hmissing
  exact hmissing.trans (List.flatMap_append_perm _ _ _).symm

/-- If own fields are noted as the writer notes all of them, no extension is absent. -/
theorem Sent.perm_missing_iff (h : m.Sent e) {noted : List String}
    (hnoted : noted.Perm (m.messages.flatMap missingFields)) :
    noted.Perm e.missing ↔ ∀ n ∈ m.messages, n.missingExtensions = [] := by
  rw [← List.flatMap_eq_nil_iff]
  constructor
  · intro hperm
    have hlength := (hperm.trans h.perm_missing).length_eq
    rw [List.length_append, ← hnoted.length_eq] at hlength
    exact List.eq_nil_of_length_eq_zero (by omega)
  · intro hnil
    have hmissing := h.perm_missing
    rw [hnil, List.append_nil] at hmissing
    exact hnoted.trans hmissing.symm

/-- What could be written of a message that lacks required fields is read back in the same way, and
the reader notes the own fields that are absent. So the same is absent to both sides, in another
order, exactly if no required extension is absent at any level. -/
theorem Made.decode_of_missingRequired (hS : S.Loaded) (hm : m.Made S)
    (hdepth : m.depth ≤ recursionLimit) {missing : List String}
    (h : m.encode = .error (.missingRequired missing bytes)) (haddr : Wire.Addressable bytes) :
    ∃ m', m' == m.normal ∧
      (m.messages.flatMap missingFields = [] ∧ decode m.type bytes = .ok m' ∨
        ∃ missing', missing' ≠ [] ∧ missing'.Perm (m.messages.flatMap missingFields) ∧
          decode m.type bytes = .error (.missingRequired missing' m' none)) ∧
      ((∃ missing', missing'.Perm missing ∧
          decode m.type bytes = .error (.missingRequired missing' m' none)) ↔
        ∀ n ∈ m.messages, n.missingExtensions = []) := by
  have hg := hS.linked
  have htyped := hm.wellTyped hg
  obtain ⟨e, he⟩ := htyped.exists_sent hg
  rw [he.encode_eq] at h
  split at h
  · cases h
  · rename_i hmissing
    cases h
    obtain ⟨noted, hnoted, hdecode⟩ := he.decode_eq haddr hdepth
    rw [gather_eq_flatMap] at hnoted
    refine ⟨m.canonical, htyped.same_canonical_normal hg, ?_, ?_⟩
    · cases noted with
      | nil => exact .inl ⟨hnoted.symm.eq_nil, hdecode⟩
      | cons path more => exact .inr ⟨path :: more, List.cons_ne_nil _ _, hnoted, hdecode⟩
    · rw [← he.perm_missing_iff hnoted]
      constructor
      · rintro ⟨missing', hperm, hmissing'⟩
        rw [hdecode] at hmissing'
        split at hmissing'
        · cases hmissing'
        · cases hmissing'
          exact hperm
      · intro hperm
        refine ⟨noted, hperm, ?_⟩
        rw [hdecode, if_neg]
        rw [hperm.isEmpty_eq]
        exact hmissing

/-- The message of which only one field is present. -/
def single (f : NodeId) (a : Atom) : Message :=
  ⟨⟨⟨.extended, 1⟩⟩, [(f, .atom a)]⟩

theorem made_single : (single 2 (.i32 5)).Made .extended ∧ (single 4 (.i32 5)).Made .extended := by
  have hown : (new ⟨⟨.extended, 1⟩⟩).set "a" (.atom (.i32 5)) = .ok (single 2 (.i32 5)) := by
    rfl
  have hextension : (new ⟨⟨.extended, 1⟩⟩).set "x" (.atom (.i32 5)) = .ok (single 4 (.i32 5)) := by
    cbv
  exact ⟨⟨rfl, .set (.new rfl) (.atom _) hown⟩, ⟨rfl, .set (.new rfl) (.atom _) hextension⟩⟩

/-- The extension is there, and both sides note the field of the message. -/
theorem decode_of_missingRequired_field : (single 4 (.i32 5)).encode =
      .error (.missingRequired [".M.a"] [160, 6, 5]) ∧
    ∃ missing' m', missing'.Perm [".M.a"] ∧ m' == (single 4 (.i32 5)).normal ∧
      decode (single 4 (.i32 5)).type [160, 6, 5] = .error (.missingRequired missing' m' none) := by
  have hencode : (single 4 (.i32 5)).encode = .error (.missingRequired [".M.a"] [160, 6, 5]) := by
    decide_cbv
  have hdepth : (single 4 (.i32 5)).depth ≤ recursionLimit := by decide_cbv
  obtain ⟨m', hnormal, -, hmirror⟩ := made_single.2.decode_of_missingRequired
    Snapshot.loaded_extended hdepth hencode (by rw [Wire.Addressable]; decide)
  obtain ⟨missing', hperm, hdecode⟩ := hmirror.mpr (by
    have hmessages : (single 4 (.i32 5)).messages = [single 4 (.i32 5)] := by cbv
    rw [hmessages]
    intro n hn
    rw [List.mem_singleton.mp hn]
    decide_cbv)
  exact ⟨hencode, missing', m', hperm, hnormal, hdecode⟩

/-- The extension is absent, and only the writer notes it. -/
theorem decode_of_missingRequired_extension : Snapshot.extended.Loaded ∧
    (single 2 (.i32 5)).Made .extended ∧ (single 2 (.i32 5)).depth ≤ recursionLimit ∧
    (single 2 (.i32 5)).encode = .error (.missingRequired [".x"] [8, 5]) ∧
    decode (single 2 (.i32 5)).type [8, 5] = .ok (single 2 (.i32 5)) := by
  refine ⟨Snapshot.loaded_extended, made_single.1, by decide_cbv, by decide_cbv, ?_⟩
  cbv

end Protobuf.Message

import Mathlib.Tactic.Ring
import Protobuf.Wire.Record

/-!
# Items are read back

Every item of the wire format is written so that it says where it ends. A reader that is put in
front of a written item therefore gives the item and stops right behind it, whatever follows.
`Reader.Reads` says that of a reader, some bytes and a value; it composes along `>>=`, which is how
a length-delimited item is read back once varints are.

## Main definitions

* `Reader.Reads` — a reader takes exactly these bytes for that value.
* `Wire.Payload.IsPlain` — a payload without tags around it, short enough for its length prefix.

## Main results

* `Reader.reads_varint`, `Reader.reads_fixed32`, `Reader.reads_fixed64`,
  `Reader.reads_lengthDelimited`, `Reader.reads_key` — the items of the format
* `Wire.reads_content` — a plain payload behind its key
* `Wire.readPacked_content` — payloads under one key
-/

namespace Protobuf

/-! ### Varints -/

namespace Varint

theorem digits_of_lt {n : Nat} (h : n < 128) : digits n = [n.toUInt8] := by
  rw [digits, if_pos h]

theorem digits_of_le {n : Nat} (h : 128 ≤ n) :
    digits n = (n % 128 + 128).toUInt8 :: digits (n / 128) := by
  rw [digits, if_neg (Nat.not_lt.mpr h)]

theorem toNat_toUInt8 {n : Nat} (h : n < 256) : n.toUInt8.toNat = n := by
  simp [Nat.mod_eq_of_lt h]

theorem digits_ne_nil (n : Nat) : digits n ≠ [] := by
  rw [digits]
  split <;> simp

/-- The first `read` digits are gone already, so only numbers below `2 ^ 64 / 128 ^ read` are left
to be read. -/
theorem scanFrom_digits {n read : Nat} (h : n * 128 ^ read < 2 ^ 64) (rest : List UInt8) :
    scanFrom read (digits n ++ rest) = .ok ⟨n, (digits n).length, rest⟩ := by
  induction n using Nat.strongRecOn generalizing read with
  | ind n ih =>
    -- At the tenth digit there is room for one bit.
    have hlast : read + 1 = maxLength → n < 2 := by
      intro hread
      obtain rfl : read = 9 := by simpa [maxLength] using hread
      omega
    rcases Nat.lt_or_ge n 128 with hn | hn
    · have hbyte : n.toUInt8.toNat = n := toNat_toUInt8 (by omega)
      rw [digits_of_lt hn, List.singleton_append, scanFrom, if_neg, if_pos]
      · rw [hbyte]
        rfl
      · rw [UInt8.lt_iff_toNat_lt, hbyte]
        exact hn
      · rintro ⟨hread, hlt⟩
        rw [UInt8.lt_iff_toNat_lt, hbyte] at hlt
        have := hlast hread
        have : (1 : UInt8).toNat = 1 := rfl
        omega
    · have hbyte : (n % 128 + 128).toUInt8.toNat = n % 128 + 128 := toNat_toUInt8 (by omega)
      have hsmaller : n / 128 * 128 ^ (read + 1) < 2 ^ 64 := by
        calc n / 128 * 128 ^ (read + 1) = n / 128 * 128 * 128 ^ read := by ring
          _ ≤ n * 128 ^ read := Nat.mul_le_mul_right _ (Nat.div_mul_le_self n 128)
          _ < 2 ^ 64 := h
      rw [digits_of_le hn, List.cons_append, scanFrom, if_neg, if_neg,
        ih (n / 128) (by omega) hsmaller]
      · simp only [hbyte, Except.ok.injEq, Scanned.mk.injEq, List.length_cons, and_true]
        omega
      · rw [UInt8.lt_iff_toNat_lt, hbyte]
        have : (128 : UInt8).toNat = 128 := rfl
        omega
      · rintro ⟨hread, -⟩
        have := hlast hread
        omega

theorem scan_encode (v : UInt64) (rest : List UInt8) :
    scan (encode v ++ rest) = .ok ⟨v.toNat, (encode v).length, rest⟩ :=
  scanFrom_digits (by simpa using v.toNat_lt) rest

end Varint

/-! ### Readers that take exactly some bytes -/

namespace Reader

/-- The reader takes exactly `bytes` for `a`, whatever lies before and after them. -/
def Reads {α : Type} (r : Reader α) (bytes : List UInt8) (a : α) : Prop :=
  ∀ (position : Nat) (rest : List UInt8),
    r.runAt ⟨position, bytes ++ rest⟩ = (.ok a, ⟨position + bytes.length, rest⟩)

theorem Reads.bind {α β : Type} {r : Reader α} {f : α → Reader β} {first second : List UInt8}
    {a : α} {b : β} (hr : r.Reads first a) (hf : (f a).Reads second b) :
    (r >>= f).Reads (first ++ second) b := by
  intro position rest
  rw [runAt_bind, List.append_assoc, hr]
  simp only
  rw [hf, List.length_append, Nat.add_assoc]

theorem Reads.map {α β : Type} {r : Reader α} {bytes : List UInt8} {a : α} (h : r.Reads bytes a)
    (f : α → β) : (f <$> r).Reads bytes (f a) := by
  intro position rest
  rw [runAt_map, h]

/-- A reader that moves on takes at least one byte. -/
theorem Reads.ne_nil {α : Type} {r : Reader α} {bytes : List UInt8} {a : α} (h : r.Reads bytes a)
    (hr : r.Consumes) : bytes ≠ [] := by
  rintro rfl
  exact Nat.lt_irrefl _ (hr _ _ _ (h 0 []))

theorem reads_pure {α : Type} (a : α) : (pure a : Reader α).Reads [] a :=
  fun _ _ => rfl

theorem reads_varint (v : UInt64) : varint.Reads (Varint.encode v) v := by
  intro position rest
  simp only [runAt, varint, ExceptT.run, ExceptT.mk, StateT.run, Varint.scan_encode,
    Nat.toUInt64_eq, UInt64.ofNat_toNat]

theorem reads_bytes {content : List UInt8} {count : Nat} (h : content.length = count) :
    (bytes count).Reads content content := by
  intro position rest
  subst h
  simp only [runAt, bytes, ExceptT.run, ExceptT.mk, StateT.run, List.take_left, List.drop_left,
    Nat.lt_irrefl, if_false]

theorem reads_fixed32 (v : UInt32) : fixed32.Reads (Wire.fixed32 v) v := by
  have h := (reads_bytes (Wire.length_littleEndian 4 v.toNat)).map
    fun word => (Wire.ofLittleEndian word).toUInt32
  rw [← Wire.fixed32, Wire.ofLittleEndian_fixed32, Nat.toUInt32_eq, UInt32.ofNat_toNat] at h
  exact h

theorem reads_fixed64 (v : UInt64) : fixed64.Reads (Wire.fixed64 v) v := by
  have h := (reads_bytes (Wire.length_littleEndian 8 v.toNat)).map
    fun word => (Wire.ofLittleEndian word).toUInt64
  rw [← Wire.fixed64, Wire.ofLittleEndian_fixed64, Nat.toUInt64_eq, UInt64.ofNat_toNat] at h
  exact h

/-- The length prefix is a 64-bit word, so it can tell of fewer than `2 ^ 64` bytes only. -/
theorem reads_lengthDelimited {content : List UInt8} (h : content.length < 2 ^ 64) :
    lengthDelimited.Reads (Wire.lengthDelimited content) content := by
  refine (reads_varint _).bind (reads_bytes ?_)
  rw [Nat.toUInt64_eq, UInt64.toNat_ofNat', Nat.mod_eq_of_lt h]

end Reader

/-! ### Keys -/

namespace WireType

theorem toNat_code_lt (w : WireType) : w.code.toNat < 8 := by
  cases w <;> decide

end WireType

namespace Wire

/-- The code of the layout takes the low three bits, so a key is a plain sum. -/
theorem toNat_key (id : UInt32) (w : WireType) :
    (key id w).toNat = 8 * id.toNat + w.code.toNat := by
  have hid := id.toNat_lt
  have hcode := w.toNat_code_lt
  have hshift : (id.toUInt64 <<< 3).toNat = id.toNat <<< 3 := by
    rw [UInt64.toNat_shiftLeft, UInt32.toNat_toUInt64]
    simp only [UInt64.reduceToNat, Nat.reduceMod, Nat.shiftLeft_eq]
    omega
  rw [key, UInt64.toNat_or, hshift, UInt8.toNat_toUInt64,
    ← Nat.shiftLeft_add_eq_or_of_lt hcode, Nat.shiftLeft_eq]
  omega

theorem splitKey_key {id : UInt32} (hid : id ≠ 0) (w : WireType) :
    Reader.splitKey (key id w) = .ok (id, w) := by
  have hkey := toNat_key id w
  have hlt := id.toNat_lt
  have hcode := w.toNat_code_lt
  have hlow : (key id w &&& 7).toUInt8 = w.code := by
    rw [← UInt8.toNat_inj, UInt64.toNat_toUInt8, UInt64.toNat_and,
      show (7 : UInt64).toNat = 2 ^ 3 - 1 from rfl, Nat.and_two_pow_sub_one_eq_mod, hkey]
    omega
  have hhigh : (key id w >>> 3).toNat = id.toNat := by
    rw [UInt64.toNat_shiftRight, show (3 : UInt64).toNat % 64 = 3 from rfl,
      Nat.shiftRight_eq_div_pow, hkey]
    omega
  rw [Reader.splitKey, hlow, WireType.ofCode?_code]
  simp only
  rw [if_neg, Except.ok.injEq, Prod.mk.injEq]
  · refine ⟨?_, rfl⟩
    rw [← UInt32.toNat_inj, UInt64.toNat_toUInt32, hhigh]
    exact Nat.mod_eq_of_lt hlt
  · rintro (h | h)
    · refine hid (UInt32.toNat_inj.mp ?_)
      rw [← hhigh, h]
      rfl
    · rw [UInt64.lt_iff_toNat_lt, hhigh] at h
      have : (0xffffffff : UInt64).toNat = 4294967295 := rfl
      omega

theorem keyBytes_ne_nil (id : UInt32) (w : WireType) : keyBytes id w ≠ [] :=
  Varint.digits_ne_nil _

end Wire

theorem Reader.reads_key {id : UInt32} (hid : id ≠ 0) (w : WireType) :
    Reader.key.Reads (Wire.keyBytes id w) (id, w) := by
  rw [← List.append_nil (Wire.keyBytes id w)]
  refine (Reader.reads_varint _).bind ?_
  rw [Wire.splitKey_key hid]
  exact Reader.reads_pure _

/-! ### Plain payloads -/

namespace Wire

/-- The payload stands without tags around it, and its length fits a length prefix. -/
def Payload.IsPlain : Payload → Prop
  | .bytes content => content.length < 2 ^ 64
  | .group _ => False
  | _ => True

theorem reads_content {p : Payload} (h : p.IsPlain) : (readPlain p.wireType).Reads p.content p := by
  cases p with
  | varint v =>
    rw [Payload.content]
    exact (Reader.reads_varint v).map Payload.varint
  | fixed64 v =>
    rw [Payload.content]
    exact (Reader.reads_fixed64 v).map Payload.fixed64
  | fixed32 v =>
    rw [Payload.content]
    exact (Reader.reads_fixed32 v).map Payload.fixed32
  | bytes content =>
    rw [Payload.content]
    exact (Reader.reads_lengthDelimited h).map Payload.bytes
  | group records => exact h.elim

/-- The layout of a payload is the one that it was read in. -/
theorem wireType_of_readPlain {w : WireType} {c c' : Cursor} {p : Payload}
    (h : (readPlain w).runAt c = (.ok p, c')) : p.wireType = w := by
  cases w with
  | startGroup => cases h
  | endGroup => cases h
  | _ =>
    simp only [readPlain, Reader.runAt_map] at h
    split at h <;> cases h
    rfl

/-- A payload at the front of the bytes under one key is the first one under it. -/
theorem readPacked_reads {w : WireType} {bytes : List UInt8} {p : Payload}
    (h : (readPlain w).Reads bytes p) (position : Nat) (rest : List UInt8) :
    readPacked w ⟨position, bytes ++ rest⟩ =
      (readPacked w ⟨position + bytes.length, rest⟩).map (p :: ·) := by
  rw [readPacked, if_neg (by simp [Cursor.atEnd, h.ne_nil (readPlain_consumes w)])]
  split
  · rename_i hread
    rw [h] at hread
    cases hread
  · rename_i hread
    rw [h, Prod.mk.injEq, Except.ok.injEq] at hread
    obtain ⟨rfl, rfl⟩ := hread
    rfl

/-- Payloads of one layout that are written one after the other are told apart again. -/
theorem readPacked_content {w : WireType} {payloads : List Payload}
    (h : ∀ p ∈ payloads, p.IsPlain ∧ p.wireType = w) (position : Nat) :
    readPacked w ⟨position, payloads.flatMap Payload.content⟩ = .ok payloads := by
  induction payloads generalizing position with
  | nil => simp [readPacked, Cursor.atEnd]
  | cons p more ih =>
    obtain ⟨hp, rfl⟩ := h p List.mem_cons_self
    rw [List.flatMap_cons, readPacked_reads (reads_content hp),
      ih fun q hq => h q (List.mem_cons_of_mem _ hq)]
    rfl

end Wire

end Protobuf

import Protobuf.Text.Utf8

/-!
# Text is read back

The bytes of a character are cut off as that character, whatever follows. The bounds on the second
byte are the only delicate point: they leave out numbers that have a shorter spelling, surrogates
and numbers beyond the last code point, and a character is none of these.

So where the bytes of a text begin with those of some characters, the text begins with these
characters. Only the first byte of a character can be below 128.

## Main definitions

* `Utf8.bytesOf` — the bytes of characters in a row.

## Main results

* `Utf8.items_encode` — the items of the bytes of a text are its characters
* `Utf8.decode_encode`, `Utf8.repair_encode` — text is read back from its bytes
* `Utf8.exists_of_bytesOf_append` — characters are cut off a text by their bytes
-/

namespace Protobuf.Utf8

theorem toNat_ofNat {n : Nat} (h : n < 256) : (UInt8.ofNat n).toNat = n := by
  rw [UInt8.toNat_ofNat', Nat.mod_eq_of_lt h]

/-! ### Single bytes -/

/-- The last byte of a character completes it. -/
theorem itemsFrom_last {p : Pending} {n : Nat} (hneed : p.need = 1) (hn : n < 256)
    (hlo : p.lo.toNat ≤ n) (hhi : n ≤ p.hi.toNat) (rest : List UInt8) :
    itemsFrom (some p) (UInt8.ofNat n :: rest) =
      .char (Char.ofNat (p.code * 64 + n % 64)) :: itemsFrom none rest := by
  have hb := toNat_ofNat hn
  rw [itemsFrom, step, if_pos, if_pos hneed]
  · simp only [hb]
    rfl
  · rw [UInt8.le_iff_toNat_le, UInt8.le_iff_toNat_le, hb]
    exact ⟨hlo, hhi⟩

/-- Another byte of a character leaves less to come. -/
theorem itemsFrom_next {p : Pending} {n : Nat} (hneed : p.need ≠ 1) (hn : n < 256)
    (hlo : p.lo.toNat ≤ n) (hhi : n ≤ p.hi.toNat) (rest : List UInt8) :
    itemsFrom (some p) (UInt8.ofNat n :: rest) =
      itemsFrom (some ⟨p.need - 1, 0x80, 0xBF, p.code * 64 + n % 64, p.taken + 1⟩) rest := by
  have hb := toNat_ofNat hn
  rw [itemsFrom, step, if_pos, if_neg hneed]
  · simp only [hb]
    rfl
  · rw [UInt8.le_iff_toNat_le, UInt8.le_iff_toNat_le, hb]
    exact ⟨hlo, hhi⟩

/-- The first byte of a longer character leaves it pending. -/
theorem itemsFrom_first {b : UInt8} {p : Pending} (h : start b = .inr p) (rest : List UInt8) :
    itemsFrom none (b :: rest) = itemsFrom (some p) rest := by
  rw [itemsFrom, step, begin, h]
  rfl

section

variable {n : Nat}

theorem start_single (h : n < 0x80) :
    start (UInt8.ofNat n) = .inl (.char (Char.ofNat n)) := by
  have hb := toNat_ofNat (n := n) (by omega)
  rw [start, if_pos (UInt8.lt_iff_toNat_lt.mpr (by rw [hb]; exact h)), hb]

theorem start_two (hlo : 0xC2 ≤ n) (hhi : n < 0xE0) :
    start (UInt8.ofNat n) = .inr ⟨1, 0x80, 0xBF, n % 32, 1⟩ := by
  have hb := toNat_ofNat (n := n) (by omega)
  simp only [start, UInt8.lt_iff_toNat_lt, hb, UInt8.reduceToNat]
  rw [if_neg (by omega), if_neg (by omega), if_pos hhi]

theorem start_three (hlo : 0xE0 ≤ n) (hhi : n < 0xF0) :
    start (UInt8.ofNat n) = .inr ⟨2, if n = 0xE0 then 0xA0 else 0x80,
      if n = 0xED then 0x9F else 0xBF, n % 16, 1⟩ := by
  have hb := toNat_ofNat (n := n) (by omega)
  simp only [start, UInt8.lt_iff_toNat_lt, ← UInt8.toNat_inj, hb, UInt8.reduceToNat]
  rw [if_neg (by omega), if_neg (by omega), if_neg (by omega), if_pos hhi]

theorem start_four (hlo : 0xF0 ≤ n) (hhi : n < 0xF5) :
    start (UInt8.ofNat n) = .inr ⟨3, if n = 0xF0 then 0x90 else 0x80,
      if n = 0xF4 then 0x8F else 0xBF, n % 8, 1⟩ := by
  have hb := toNat_ofNat (n := n) (by omega)
  simp only [start, UInt8.lt_iff_toNat_lt, ← UInt8.toNat_inj, hb, UInt8.reduceToNat]
  rw [if_neg (by omega), if_neg (by omega), if_neg (by omega), if_neg (by omega), if_pos hhi]

end

/-! ### Characters -/

theorem toNat_valid (c : Char) :
    c.toNat < 0xD800 ∨ 0xDFFF < c.toNat ∧ c.toNat < 0x110000 :=
  c.valid

theorem itemsFrom_encodeChar (c : Char) (rest : List UInt8) :
    itemsFrom none (String.utf8EncodeChar c ++ rest) = .char c :: itemsFrom none rest := by
  have hvalid := toNat_valid c
  have hval : c.val.toNat = c.toNat := rfl
  have hchar : ∀ n, n = c.toNat → Char.ofNat n = c := fun n h => by rw [h, Char.ofNat_toNat]
  rw [String.utf8EncodeChar]
  simp only [hval]
  -- a character has one to four bytes, and the first of them tells how many
  split
  · rename_i h
    rw [List.singleton_append, itemsFrom, step, begin, start_single (by omega), hchar _ rfl]
    rfl
  · split
    · rename_i h1 h2
      rw [List.cons_append, List.singleton_append,
        itemsFrom_first (start_two (by omega) (by omega)), itemsFrom_last rfl (by omega) (by simp)
          (by simp; omega), hchar]
      simp only
      omega
    · split
      · rename_i h1 h2 h3
        rw [List.cons_append, List.cons_append, List.singleton_append,
          itemsFrom_first (start_three (by omega) (by omega)),
          itemsFrom_next (by simp) (by omega), itemsFrom_last rfl (by omega) (by simp)
            (by simp; omega), hchar]
        · simp only
          omega
        · simp only [apply_ite UInt8.toNat, UInt8.reduceToNat]
          split <;> omega
        · simp only [apply_ite UInt8.toNat, UInt8.reduceToNat]
          split <;> omega
      · rename_i h1 h2 h3
        rw [List.cons_append, List.cons_append, List.cons_append, List.singleton_append,
          itemsFrom_first (start_four (by omega) (by omega)),
          itemsFrom_next (by simp) (by omega), itemsFrom_next (by simp) (by omega) (by simp)
            (by simp; omega), itemsFrom_last rfl (by omega) (by simp) (by simp; omega), hchar]
        · simp only
          omega
        · simp only [apply_ite UInt8.toNat, UInt8.reduceToNat]
          split <;> omega
        · simp only [apply_ite UInt8.toNat, UInt8.reduceToNat]
          split <;> omega

/-- The bytes of characters in a row. -/
def bytesOf (chars : List Char) : List UInt8 :=
  chars.flatMap String.utf8EncodeChar

theorem bytesOf_cons (c : Char) (chars : List Char) :
    bytesOf (c :: chars) = String.utf8EncodeChar c ++ bytesOf chars :=
  List.flatMap_cons

theorem bytesOf_append (chars more : List Char) :
    bytesOf (chars ++ more) = bytesOf chars ++ bytesOf more :=
  List.flatMap_append

theorem items_bytesOf_append (chars : List Char) (source : List UInt8) :
    items (bytesOf chars ++ source) = chars.map .char ++ items source := by
  induction chars with
  | nil => rfl
  | cons c more ih =>
    rw [bytesOf_cons, List.append_assoc, items, itemsFrom_encodeChar, ← items, ih]
    rfl

theorem items_bytesOf (chars : List Char) : items (bytesOf chars) = chars.map .char := by
  have h := items_bytesOf_append chars []
  rwa [List.append_nil, show items [] = [] from rfl, List.append_nil] at h

/-! ### Texts -/

/-- The bytes of a text are cut into its characters. -/
theorem items_encode (s : String) : items (encode s) = s.toList.map .char :=
  items_bytesOf s.toList

theorem collect_map_char (chars : List Char) (index : Nat) :
    collect index (chars.map .char) = .ok chars := by
  induction chars generalizing index with
  | nil => rfl
  | cons c more ih =>
    rw [List.map_cons, collect, ih]
    rfl

/-- Text is read back from its bytes. -/
theorem decode_encode (s : String) : decode (encode s) = .ok s := by
  rw [decode, items_encode, collect_map_char]
  show Except.ok (String.ofList s.toList) = .ok s
  rw [String.ofList_toList]

/-- Nothing has to be repaired in the bytes of a text. -/
theorem repair_encode (s : String) : repair (encode s) = s := by
  rw [repair, items_encode, List.map_map]
  calc String.ofList (s.toList.map (Item.repaired ∘ .char))
      = String.ofList s.toList := congrArg String.ofList (List.map_id s.toList)
    _ = s := String.ofList_toList

/-! ### Cutting off characters -/

/-- A character has a first byte, and none of the others is below 128. -/
theorem exists_encodeChar (c : Char) :
    ∃ b conts, String.utf8EncodeChar c = b :: conts ∧ ∀ b ∈ conts, 128 ≤ b := by
  have hcont : ∀ n, (128 : UInt8) ≤ UInt8.ofNat (n % 64 + 128) := fun n => by
    rw [UInt8.le_iff_toNat_le, toNat_ofNat (by omega)]
    exact Nat.le_add_left 128 _
  have hone : ∀ n, ∀ b ∈ [UInt8.ofNat (n % 64 + 128)], 128 ≤ b := fun n =>
    List.forall_mem_singleton.mpr (hcont n)
  unfold String.utf8EncodeChar
  dsimp only
  split
  · exact ⟨_, _, rfl, List.forall_mem_nil _⟩
  · split
    · exact ⟨_, _, rfl, hone _⟩
    · split
      · exact ⟨_, _, rfl, List.forall_mem_cons.mpr ⟨hcont _, hone _⟩⟩
      · exact ⟨_, _, rfl,
          List.forall_mem_cons.mpr ⟨hcont _, List.forall_mem_cons.mpr ⟨hcont _, hone _⟩⟩⟩

theorem eq_nil_of_bytesOf {text : List Char} (h : bytesOf text = []) : text = [] := by
  cases text with
  | nil => rfl
  | cons c more =>
    obtain ⟨b, conts, hc, -⟩ := exists_encodeChar c
    rw [bytesOf_cons, hc] at h
    cases h

/-- A text whose bytes begin with those of some characters begins with these characters. -/
theorem exists_of_bytesOf_append {text chars : List Char} {source : List UInt8}
    (h : bytesOf text = bytesOf chars ++ source) :
    ∃ more, text = chars ++ more ∧ bytesOf more = source := by
  have hitems : text.map Item.char = chars.map .char ++ items source := by
    rw [← items_bytesOf_append, ← h, items_bytesOf]
  obtain ⟨front, more, rfl, hfront, -⟩ := List.map_eq_append_iff.mp hitems
  obtain rfl : front = chars := (List.map_inj_right fun _ _ => Item.char.inj).mp hfront
  exact ⟨more, rfl, List.append_cancel_left ((bytesOf_append front more).symm.trans h)⟩

/-- The first byte of a text begins its first character. -/
theorem exists_of_bytesOf_cons {text : List Char} {b : UInt8} {source : List UInt8}
    (h : bytesOf text = b :: source) : ∃ c more conts, text = c :: more ∧
      String.utf8EncodeChar c = b :: conts ∧ (∀ b ∈ conts, 128 ≤ b) ∧
      conts ++ bytesOf more = source := by
  cases text with
  | nil => cases h
  | cons c more =>
    obtain ⟨b', conts, hc, hconts⟩ := exists_encodeChar c
    rw [bytesOf_cons, hc, List.cons_append] at h
    obtain ⟨rfl, hmore⟩ := List.cons.inj h
    exact ⟨c, more, conts, rfl, hc, hconts, hmore⟩

end Protobuf.Utf8

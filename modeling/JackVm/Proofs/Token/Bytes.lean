import JackVm.Token.Cursor

/-!
# Texts in bytes

A text is read by its characters and stored in UTF-8. A character below 128 is one byte with the
same number, and the bytes of all others are 128 or more. So a property that only characters below
128 have can be asked of single bytes, wherever in the text they stand.
-/

namespace JackVm

abbrev Bytes : Type :=
  List UInt8

def utf8 (cs : List Char) : Bytes :=
  cs.flatMap String.utf8EncodeChar

/-- Whether a byte is a character below 128 with a property. -/
def onByte (p : Char → Bool) (b : UInt8) : Bool :=
  b < 128 && p (Char.ofNat b.toNat)

@[simp] theorem utf8_nil : utf8 [] = [] := rfl

@[simp] theorem utf8_cons (c : Char) (cs : List Char) :
    utf8 (c :: cs) = String.utf8EncodeChar c ++ utf8 cs := rfl

@[simp] theorem utf8_append (cs ds : List Char) : utf8 (cs ++ ds) = utf8 cs ++ utf8 ds :=
  List.flatMap_append

theorem utf8_toList (text : String) : text.toUTF8.data.toList = utf8 text.toList := by
  have encoded : text.toUTF8 = text.toList.utf8Encode := by
    conv => lhs; rw [← String.ofList_toList (s := text)]
    rw [String.toUTF8_eq_toByteArray, String.toByteArray_ofList]
  rw [encoded, List.utf8Encode, List.data_toByteArray]
  rfl

theorem fromUTF8?_toUTF8 (text : String) : String.fromUTF8? text.toUTF8 = some text :=
  dif_pos text.isValidUTF8

@[simp] theorem length_utf8 (cs : List Char) : (utf8 cs).length = byteLength cs := by
  induction cs with
  | nil => rfl
  | cons c cs ih => simp [byteLength, ih]

theorem byteLength_append (cs ds : List Char) :
    byteLength (cs ++ ds) = byteLength cs + byteLength ds := by
  rw [← length_utf8, utf8_append, List.length_append, length_utf8, length_utf8]

theorem utf8ByteSize_eq (text : String) : text.utf8ByteSize = byteLength text.toList := by
  rw [← length_utf8, ← utf8_toList]
  rfl

theorem utf8EncodeChar_of_lt {c : Char} (h : c.toNat < 128) :
    String.utf8EncodeChar c = [c.toUInt8] := by
  apply String.utf8EncodeChar_eq_singleton
  rw [Char.utf8Size_eq_one_iff, UInt32.le_iff_toNat_le]
  exact Nat.le_of_lt_succ h

theorem le_of_mem_utf8EncodeChar {c : Char} (h : 128 ≤ c.toNat) :
    ∀ b ∈ String.utf8EncodeChar c, 128 ≤ b := by
  have bound : c.val.toNat < 1114112 := by
    have := c.valid
    simp only [UInt32.isValidChar, Nat.isValidChar] at this
    omega
  have large : ¬ c.val.toNat ≤ 127 := by
    show ¬ c.toNat ≤ 127
    omega
  intro b hb
  rw [UInt8.le_iff_toNat_le]
  simp only [String.utf8EncodeChar, large, if_false] at hb
  split at hb
  · simp only [List.mem_cons, List.not_mem_nil, or_false] at hb
    rcases hb with rfl | rfl <;> simp <;> omega
  · split at hb
    · simp only [List.mem_cons, List.not_mem_nil, or_false] at hb
      rcases hb with rfl | rfl | rfl <;> simp <;> omega
    · simp only [List.mem_cons, List.not_mem_nil, or_false] at hb
      rcases hb with rfl | rfl | rfl | rfl <;> simp <;> omega

section
variable {p : Char → Bool} {b : UInt8} {c d : Char}

theorem toNat_toUInt8 (h : c.toNat < 128) : c.toUInt8.toNat = c.toNat := by
  show c.val.toNat % 256 = c.val.toNat
  exact Nat.mod_eq_of_lt (Nat.lt_trans h (by decide))

theorem toUInt8_lt (h : c.toNat < 128) : c.toUInt8 < 128 := by
  rw [UInt8.lt_iff_toNat_lt, toNat_toUInt8 h]
  exact h

theorem onByte_toUInt8 (h : c.toNat < 128) : onByte p c.toUInt8 = p c := by
  rw [onByte, toNat_toUInt8 h, Char.ofNat_toNat]
  simp [toUInt8_lt h]

theorem onByte_of_le (h : 128 ≤ b) : onByte p b = false := by
  have : ¬ b < 128 := UInt8.not_lt.mpr h
  simp [onByte, this]

theorem toNat_of_isAlpha (h : c.isAlpha) :
    65 ≤ c.toNat ∧ c.toNat ≤ 90 ∨ 97 ≤ c.toNat ∧ c.toNat ≤ 122 := by
  have either : (c.isUpper || c.isLower) = true := h
  rw [Bool.or_eq_true] at either
  cases either with
  | inl upper =>
    have bounds : 65 ≤ c.val ∧ c.val ≤ 90 := of_decide_eq_true upper
    exact .inl ⟨UInt32.le_iff_toNat_le.mp bounds.1, UInt32.le_iff_toNat_le.mp bounds.2⟩
  | inr lower =>
    have bounds : (decide (97 ≤ c.val) && decide (c.val ≤ 122)) = true := lower
    rw [Bool.and_eq_true, decide_eq_true_eq, decide_eq_true_eq] at bounds
    exact .inr ⟨UInt32.le_iff_toNat_le.mp bounds.1, UInt32.le_iff_toNat_le.mp bounds.2⟩

theorem mem_utf8EncodeChar_iff (h : d.toNat < 128) :
    d.toUInt8 ∈ String.utf8EncodeChar c ↔ c = d := by
  constructor
  · intro mem
    have small : onByte (· = d) d.toUInt8 = true := by simp [onByte_toUInt8 h]
    by_cases hc : c.toNat < 128
    · rw [utf8EncodeChar_of_lt hc, List.mem_singleton] at mem
      rw [mem, onByte_toUInt8 hc] at small
      exact of_decide_eq_true small
    · rw [onByte_of_le (le_of_mem_utf8EncodeChar (Nat.le_of_not_lt hc) _ mem)] at small
      cases small
  · intro same
    rw [same, utf8EncodeChar_of_lt h]
    exact List.mem_singleton_self _

theorem eq_toUInt8_iff (h : d.toNat < 128) (mem : b ∈ String.utf8EncodeChar c) :
    b = d.toUInt8 ↔ c = d := by
  constructor
  · intro same
    rw [same] at mem
    exact (mem_utf8EncodeChar_iff h).mp mem
  · intro same
    rw [same, utf8EncodeChar_of_lt h] at mem
    exact List.mem_singleton.mp mem

theorem ne_toUInt8_of_le (high : 128 ≤ b) (small : d.toNat < 128) : b ≠ d.toUInt8 := by
  intro same
  rw [same] at high
  exact UInt8.not_lt.mpr high (toUInt8_lt small)

theorem toUInt8_inj (hc : c.toNat < 128) (hd : d.toNat < 128) :
    c.toUInt8 = d.toUInt8 ↔ c = d := by
  apply eq_toUInt8_iff hd
  rw [utf8EncodeChar_of_lt hc]
  exact List.mem_singleton_self _

theorem Mark.toNat_char_lt (m : Mark) : m.char.toNat < 128 := by
  cases m <;> decide

theorem mem_utf8_iff {cs : List Char} (h : d.toNat < 128) :
    d.toUInt8 ∈ utf8 cs ↔ d ∈ cs := by
  simp only [utf8, List.mem_flatMap, mem_utf8EncodeChar_iff h, exists_eq_right]

theorem utf8_of_ascii {cs : List Char} (ascii : ∀ c ∈ cs, c.toNat < 128) :
    utf8 cs = cs.map Char.toUInt8 := by
  induction cs with
  | nil => rfl
  | cons c cs ih =>
    have first := ascii c List.mem_cons_self
    rw [utf8_cons, utf8EncodeChar_of_lt first, ih fun d mem => ascii d (List.mem_cons_of_mem c mem)]
    rfl

theorem byteLength_of_ascii {cs : List Char} (ascii : ∀ c ∈ cs, c.toNat < 128) :
    byteLength cs = cs.length := by
  rw [← length_utf8, utf8_of_ascii ascii, List.length_map]

theorem byteLength_singleton (h : c.toNat < 128) : byteLength [c] = 1 :=
  byteLength_of_ascii (by simpa using h)

/-- A property that the bytes of each character share has the same first run in both. -/
theorem takeWhile_utf8 {p : Char → Bool} {q : UInt8 → Bool}
    (same : ∀ c, ∀ b ∈ String.utf8EncodeChar c, q b = p c) (cs : List Char) :
    (utf8 cs).takeWhile q = utf8 (cs.takeWhile p) := by
  induction cs with
  | nil => rfl
  | cons c cs ih =>
    rw [utf8_cons, List.takeWhile_cons]
    by_cases part : p c
    · rw [if_pos part, utf8_cons, ← ih]
      apply List.takeWhile_append_of_pos
      intro b mem
      rw [same c b mem, part]
    · rw [if_neg part]
      cases bytes : String.utf8EncodeChar c with
      | nil => exact absurd bytes String.utf8EncodeChar_ne_nil
      | cons b tail =>
        have first := same c b (bytes ▸ List.mem_cons_self)
        rw [List.cons_append, List.takeWhile_cons, first, if_neg part]
        rfl

end

end JackVm

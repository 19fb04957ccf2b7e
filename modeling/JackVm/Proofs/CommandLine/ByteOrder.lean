import JackVm.Proofs.Token.Bytes

/-!
# Byte order

Texts are in the order of their bytes. Of two characters the smaller one has the smaller encoding,
and no encoding begins another, so what follows does not matter where two characters differ.
-/

namespace JackVm

theorem ofNat_cons_lt {x y : Nat} {bs ds : Bytes} (small : y < 256)
    (h : x < y ∨ x = y ∧ bs < ds) : UInt8.ofNat x :: bs < UInt8.ofNat y :: ds := by
  rw [List.cons_lt_cons_iff]
  cases h with
  | inl less =>
    left
    rw [UInt8.lt_iff_toNat_lt, UInt8.toNat_ofNat', UInt8.toNat_ofNat', Nat.mod_eq_of_lt small,
      Nat.mod_eq_of_lt (Nat.lt_trans less small)]
    exact less
  | inr same => exact .inr ⟨by rw [same.1], same.2⟩

theorem utf8EncodeChar_append_lt {c d : Char} (h : c < d) (bs ds : Bytes) :
    String.utf8EncodeChar c ++ bs < String.utf8EncodeChar d ++ ds := by
  have less : c.val.toNat < d.val.toNat := h
  have bound : d.val.toNat < 1114112 := by
    have := d.valid
    simp only [UInt32.isValidChar, Nat.isValidChar] at this
    omega
  unfold String.utf8EncodeChar
  generalize c.val.toNat = x at less
  generalize d.val.toNat = y at less bound
  dsimp only
  -- The cases are those of the width of either encoding, the first one not above the second.
  by_cases one : x ≤ 127
  · rw [if_pos one]
    split
    · exact ofNat_cons_lt (by omega) (.inl less)
    · split
      · exact ofNat_cons_lt (by omega) (.inl (by omega))
      · split
        · exact ofNat_cons_lt (by omega) (.inl (by omega))
        · exact ofNat_cons_lt (by omega) (.inl (by omega))
  rw [if_neg one, if_neg (by omega : ¬ y ≤ 127)]
  by_cases two : x ≤ 2047
  · rw [if_pos two]
    split
    · apply ofNat_cons_lt (by omega)
      by_cases high : x / 64 = y / 64
      · exact .inr ⟨by omega, ofNat_cons_lt (by omega) (.inl (by omega))⟩
      · exact .inl (by omega)
    · split
      · exact ofNat_cons_lt (by omega) (.inl (by omega))
      · exact ofNat_cons_lt (by omega) (.inl (by omega))
  rw [if_neg two, if_neg (by omega : ¬ y ≤ 2047)]
  by_cases three : x ≤ 65535
  · rw [if_pos three]
    split
    · apply ofNat_cons_lt (by omega)
      by_cases high : x / 4096 = y / 4096
      · refine .inr ⟨by omega, ofNat_cons_lt (by omega) ?_⟩
        by_cases middle : x / 64 = y / 64
        · exact .inr ⟨by omega, ofNat_cons_lt (by omega) (.inl (by omega))⟩
        · exact .inl (by omega)
      · exact .inl (by omega)
    · exact ofNat_cons_lt (by omega) (.inl (by omega))
  rw [if_neg three, if_neg (by omega : ¬ y ≤ 65535)]
  apply ofNat_cons_lt (by omega)
  by_cases top : x / 262144 = y / 262144
  · refine .inr ⟨by omega, ofNat_cons_lt (by omega) ?_⟩
    by_cases high : x / 4096 = y / 4096
    · refine .inr ⟨by omega, ofNat_cons_lt (by omega) ?_⟩
      by_cases middle : x / 64 = y / 64
      · exact .inr ⟨by omega, ofNat_cons_lt (by omega) (.inl (by omega))⟩
      · exact .inl (by omega)
    · exact .inl (by omega)
  · exact .inl (by omega)

theorem utf8_lt_of_lt {cs ds : List Char} (h : cs < ds) : utf8 cs < utf8 ds := by
  induction h with
  | @nil d ds =>
    rw [utf8_nil, utf8_cons]
    cases bytes : String.utf8EncodeChar d with
    | nil => exact absurd bytes String.utf8EncodeChar_ne_nil
    | cons b bs => exact List.nil_lt_cons b _
  | rel less => exact utf8EncodeChar_append_lt less _ _
  | cons _ ih => exact List.append_left_lt ih

theorem utf8_lt_of_le {s t : String} (le : s ≤ t) (ne : s ≠ t) :
    utf8 s.toList < utf8 t.toList := by
  apply utf8_lt_of_lt
  apply String.lt_iff.mp
  apply String.not_le.mp
  intro ge
  exact ne (String.le_antisymm le ge)

end JackVm

import JackVm.Proofs.Token.Reading
import Mathlib.Order.Monotone.Basic

/-!
# Line numbers

The line of a cursor is one more than the newlines that have been read, counted in thirty-two bits.
A token bears the line of the cursor behind it, and of all lexemes only a comment that is never
closed may hold a newline, so any other token stands on its line from the first byte to the last.
-/

namespace JackVm

def newline : UInt8 :=
  '\n'.toUInt8

theorem count_utf8 (cs : List Char) : (utf8 cs).count newline = cs.count '\n' := by
  induction cs with
  | nil => rfl
  | cons c cs ih =>
    rw [utf8_cons, List.count_append, List.count_cons, ih, Nat.add_comm, Nat.add_right_inj]
    by_cases line : c = '\n'
    · rw [line]
      rfl
    · have absent : newline ∉ String.utf8EncodeChar c :=
        fun mem => line ((mem_utf8EncodeChar_iff (by decide)).mp mem)
      rw [List.count_eq_zero.mpr absent, if_neg (by simpa using line)]

theorem Ahead.count {stray : Nat} {rest : List Char} {bytes : Bytes}
    (h : Ahead stray rest bytes) : bytes.count newline = rest.count '\n' := by
  obtain ⟨tail, text, -, high⟩ := h
  have absent : newline ∉ tail := fun mem => absurd (high newline mem) (by decide)
  rw [text, List.count_append, count_utf8, List.count_eq_zero.mpr absent, Nat.zero_add]

def lineBehind (read : Bytes) : UInt32 :=
  .ofNat (1 + read.count newline)

theorem lineBehind_append (read more : Bytes) :
    lineBehind (read ++ more) = lineBehind read + .ofNat (more.count newline) := by
  rw [lineBehind, List.count_append, ← Nat.add_assoc, UInt32.ofNat_add]
  rfl

theorem toNat_lineBehind {read : Bytes} (few : read.count newline < UInt32.size - 1) :
    (lineBehind read).toNat = 1 + read.count newline :=
  UInt32.toNat_ofNat_of_lt' (by omega)

/-! ## Newlines that are read -/

theorem skipTrivia_line (mode : Trivia) (cs : List Char) (line : UInt32) :
    ∃ taken, (skipTrivia mode cs line).line = line + .ofNat taken ∧
      taken + (skipTrivia mode cs line).rest.count '\n' = cs.count '\n' := by
  fun_induction skipTrivia mode cs line with
  | case4 cs line ih | case8 cs line ih | case12 cs line ih =>
    obtain ⟨taken, moved, count⟩ := ih
    refine ⟨1 + taken, ?_, ?_⟩
    · rw [moved, UInt32.add_assoc, UInt32.ofNat_add]
      rfl
    · rw [List.count_cons_self, ← count]
      omega
  | case7 cs line | case10 line | case14 line =>
    exact ⟨0, (UInt32.add_zero line).symm, Nat.zero_add _⟩
  | case9 c cs line inside ih => rwa [List.count_cons_of_ne inside]
  | case13 c cs line _ inside ih => rwa [List.count_cons_of_ne inside]
  | case1 _ _ ih | case2 _ _ ih | case3 _ _ ih | case5 _ _ ih | case6 _ _ ih | case11 _ _ ih =>
    simpa [List.count_cons] using ih

theorem count_dropWhile {p : Char → Bool} (other : p '\n' = false) (cs : List Char) :
    (cs.dropWhile p).count '\n' = cs.count '\n' := by
  induction cs with
  | nil => rfl
  | cons c cs ih =>
    rw [List.dropWhile_cons]
    split
    · next part =>
      have apart : c ≠ '\n' := by
        intro line
        rw [line, other] at part
        cases part
      rw [ih, List.count_cons_of_ne apart]
    · rfl

theorem count_readString (cs : List Char) : (readString cs).rest.count '\n' = cs.count '\n' := by
  have inside := count_dropWhile (p := isStringPart) rfl cs
  rw [readString]
  split
  · next rest left =>
    rw [left, List.count_cons_of_ne (by decide)] at inside
    exact inside
  · exact inside

theorem count_readLexeme {cs : List Char} (plain : BeginsPlain cs) :
    (readLexeme cs).rest.count '\n' = cs.count '\n' := by
  cases cs with
  | nil => rfl
  | cons c cs =>
    have first : c ≠ '\n' := by
      intro line
      exact plain.blank c cs rfl (by simp [line])
    rw [List.count_cons_of_ne first, readLexeme]
    split
    · rfl
    · split
      · exact count_readString cs
      · split
        · exact count_dropWhile rfl cs
        · split
          · exact count_dropWhile rfl cs
          · rfl

namespace Cursor
variable {c : Cursor} {read ahead : Bytes}

theorem line_next (c : Cursor) : c.next.1.line = c.next.2.line := by
  obtain ⟨cs, line, stray⟩ := c
  cases stray with
  | succ k => rfl
  | zero =>
    rw [next]
    dsimp only
    split <;> rfl

/-- A token moves the cursor on by as many lines as it takes newlines away. -/
theorem count_next (c : Cursor) :
    ∃ taken, c.next.2.line = c.line + .ofNat taken ∧
      taken + c.next.2.rest.count '\n' = c.rest.count '\n' := by
  obtain ⟨cs, line, stray⟩ := c
  cases stray with
  | succ k => exact ⟨0, (UInt32.add_zero line).symm, Nat.zero_add _⟩
  | zero =>
    have skipped := skipTrivia_line .blank cs line
    have skips : Skips (utf8 cs) (skipTrivia .blank cs line) := skipTrivia_skipsIn .blank cs line
    rw [next]
    dsimp only
    split
    · exact skipped
    · next closed => rwa [count_readLexeme (skips.trivia (by simpa using closed)).1]

/-- A cursor behind some bytes and in front of others. -/
structure Stands (c : Cursor) (read ahead : Bytes) : Prop where
  ahead : Ahead c.stray c.rest ahead
  line : c.line = lineBehind read

theorem stands_ofString (text : String) : (ofString text).Stands [] (utf8 text.toList) where
  ahead := .utf8 text.toList
  line := rfl

theorem Stands.next (h : c.Stands read ahead) :
    ∃ passed slice rest, ahead = passed ++ slice ++ rest ∧
      ReadFrom c.next.1.lexeme slice rest ∧
      c.next.2.Stands (read ++ passed ++ slice) rest := by
  obtain ⟨passed, slice, rest, text, piece, left⟩ := exists_slice h.ahead
  refine ⟨passed, slice, rest, text, piece, left, ?_⟩
  obtain ⟨taken, moved, count⟩ := count_next c
  rw [← left.count, ← h.ahead.count, text, List.count_append] at count
  rw [moved, h.line, List.append_assoc, lineBehind_append, Nat.add_right_cancel count]

theorem exists_stands (text : String) (n : Nat) :
    ∃ read ahead, utf8 text.toList = read ++ ahead ∧
      ((ofString text).after n).Stands read ahead := by
  induction n with
  | zero => exact ⟨[], _, rfl, stands_ofString text⟩
  | succ n ih =>
    obtain ⟨read, ahead, bytes, stands⟩ := ih
    obtain ⟨passed, slice, rest, split, -, next⟩ := stands.next
    rw [← after_succ] at next
    exact ⟨read ++ passed ++ slice, rest, by rw [bytes, split]; simp, next⟩

def position (text : String) (c : Cursor) : Nat :=
  text.utf8ByteSize - c.bytesLeft

theorem Stands.position_eq {text : String} (h : c.Stands read ahead)
    (bytes : utf8 text.toList = read ++ ahead) : c.position text = read.length := by
  have size : text.utf8ByteSize = (utf8 text.toList).length := by
    rw [← utf8_toList]
    rfl
  have left := h.ahead.length_eq
  rw [position, size, bytes, List.length_append, bytesLeft]
  omega

theorem Stands.take_position {text : String} (h : c.Stands read ahead)
    (bytes : utf8 text.toList = read ++ ahead) :
    text.toUTF8.data.toList.take (c.position text) = read := by
  rw [utf8_toList, h.position_eq bytes, bytes, List.take_left]

end Cursor

/-! ## Lines without bounds -/

/-- The line of a token of a text, whatever its size: one more than the newlines that have been read
with it. -/
def lineNumber (text : String) (n : Nat) : Nat :=
  1 + (text.toUTF8.data.toList.take
    (((Cursor.ofString text).after (n + 1)).position text)).count newline

theorem line_after (text : String) (n : Nat) :
    ((Cursor.ofString text).after n).next.1.line = .ofNat (lineNumber text n) := by
  obtain ⟨read, ahead, bytes, stands⟩ := Cursor.exists_stands text (n + 1)
  rw [Cursor.line_next, ← Cursor.after_succ, stands.line, lineNumber, stands.take_position bytes]
  rfl

theorem lineNumber_mono {text : String} : Monotone (lineNumber text) := by
  apply monotone_nat_of_le_succ
  intro n
  obtain ⟨read, ahead, bytes, stands⟩ := Cursor.exists_stands text (n + 1)
  obtain ⟨passed, slice, rest, split, -, next⟩ := stands.next
  rw [← Cursor.after_succ] at next
  have all : utf8 text.toList = read ++ passed ++ slice ++ rest := by
    rw [bytes, split]
    simp
  rw [lineNumber, lineNumber, stands.take_position bytes, next.take_position all]
  simp only [List.count_append]
  omega

theorem toNat_lineNumber {text : String}
    (few : text.toUTF8.data.toList.count newline < UInt32.size - 1) (n : Nat) :
    (UInt32.ofNat (lineNumber text n)).toNat = lineNumber text n :=
  toNat_lineBehind (Nat.lt_of_le_of_lt ((List.take_sublist _ _).count_le newline) few)

namespace Piece
variable {lexeme : Lexeme} {slice rest : Bytes}

theorem ofWord_ne_fault (word : String) (fault : Fault) : Lexeme.ofWord word ≠ .fault fault := by
  intro same
  rcases ofWord_eq word with ⟨k, keyword, -⟩ | identifier
  · cases keyword.symm.trans same
  · cases identifier.symm.trans same

theorem of_unterminatedString (h : Piece lexeme slice rest)
    (fault : lexeme = .fault .unterminatedString) :
    ∃ body, slice = quote :: body ∧ ∀ b ∈ body, b ≠ quote ∧ b ≠ newline := by
  cases h with
  | unterminatedString inside => exact ⟨_, rfl, inside⟩
  | word word => exact absurd fault (ofWord_ne_fault word _)
  | mark | integer | string | unterminatedComment | unexpectedCharacter => cases fault

theorem of_unterminatedComment (h : Piece lexeme slice rest)
    (fault : lexeme = .fault .unterminatedComment) : rest = [] := by
  cases h with
  | unterminatedComment => rfl
  | word word => exact absurd fault (ofWord_ne_fault word _)
  | mark | integer | string | unterminatedString | unexpectedCharacter => cases fault

theorem newline_not_mem (h : Piece lexeme slice rest)
    (closed : lexeme ≠ .fault .unterminatedComment) : newline ∉ slice := by
  intro mem
  cases h with
  | mark m =>
    revert mem
    cases m <;> decide
  | integer _ _ inside => exact absurd (inside _ mem) (by decide)
  | word _ _ inside => exact absurd (inside _ mem) (by decide)
  | string _ _ inside =>
    rw [List.mem_cons, List.mem_append, List.mem_singleton] at mem
    rcases mem with mem | mem | mem
    · cases mem
    · exact (inside _ mem).2 rfl
    · cases mem
  | unterminatedString inside =>
    rcases List.mem_cons.mp mem with mem | mem
    · cases mem
    · exact (inside _ mem).2 rfl
  | unterminatedComment => exact closed rfl
  | unexpectedCharacter _ blank =>
    rw [List.mem_singleton] at mem
    rw [← mem] at blank
    exact blank (by decide)

end Piece

/-- What the line of a token says. The token was read from some bytes, of which those in `read` are
in front of the cursor after it. -/
structure LineShows (bytes read : Bytes) (t : Token) : Prop where
  line : t.line = lineBehind read
  /-- A token that is not a fault is on one line. -/
  firstByte : t.kind ≠ .fault → ∃ before, read = before ++ utf8 t.text.toList ∧
    newline ∉ utf8 t.text.toList ∧ t.line = lineBehind before
  openingQuote : t.lexeme = .fault .unterminatedString → ∃ before body,
    read = before ++ quote :: body ∧ (∀ b ∈ body, b ≠ quote ∧ b ≠ newline) ∧
      t.line = lineBehind before
  endOfText : t.lexeme = .fault .unterminatedComment → t.line = lineBehind bytes
  /-- Thirty-two bits hold the line that any of the bytes lead to. -/
  fits : bytes.count newline < UInt32.size - 1 → ∀ passed, passed <+: bytes →
    (lineBehind passed).toNat = 1 + passed.count newline

namespace LineShows
variable {t : Token} {before slice rest : Bytes}

/-- On the line that is reached with its last byte a slice without newlines has begun. -/
theorem begun (line : t.line = lineBehind (before ++ slice)) (flat : newline ∉ slice) :
    t.line = lineBehind before := by
  rw [line, lineBehind_append, List.count_eq_zero.mpr flat]
  exact UInt32.add_zero _

theorem toNat_of_prefix {bytes passed : Bytes} (few : bytes.count newline < UInt32.size - 1)
    (front : passed <+: bytes) : (lineBehind passed).toNat = 1 + passed.count newline :=
  toNat_lineBehind (Nat.lt_of_le_of_lt (front.sublist.count_le newline) few)

theorem of_piece (piece : Piece t.lexeme slice rest)
    (line : t.line = lineBehind (before ++ slice)) :
    LineShows (before ++ slice ++ rest) (before ++ slice) t where
  line := line
  firstByte sound := by
    have text : utf8 t.text.toList = slice := piece.text_eq sound
    have flat := piece.newline_not_mem fun fault => sound (congrArg Lexeme.kind fault)
    rw [text]
    exact ⟨before, rfl, flat, begun line flat⟩
  openingQuote fault := by
    have flat := piece.newline_not_mem (by rw [fault]; decide)
    obtain ⟨body, text, inside⟩ := piece.of_unterminatedString fault
    exact ⟨before, body, by rw [text], inside, begun line flat⟩
  endOfText fault := by
    rw [piece.of_unterminatedComment fault, List.append_nil]
    exact line
  fits few _ := toNat_of_prefix few

theorem of_end (ended : t.lexeme = .endOfInput) (line : t.line = lineBehind before) :
    LineShows before before t where
  line := line
  firstByte _ := by
    have text : utf8 t.text.toList = [] := by rw [Token.text, ended]; rfl
    rw [text]
    exact ⟨before, (List.append_nil before).symm, List.not_mem_nil, line⟩
  openingQuote fault := by
    rw [ended] at fault
    cases fault
  endOfText _ := line
  fits few _ := toNat_of_prefix few

end LineShows

/-- Each token of a text bears the line that reading has come to with it. -/
theorem line_numbers_are_exact (text : String) (n : Nat) :
    LineShows text.toUTF8.data.toList
      (text.toUTF8.data.toList.take (((Cursor.ofString text).after (n + 1)).position text))
      ((Cursor.ofString text).after n).next.1 := by
  obtain ⟨before, ahead, bytes, stands⟩ := Cursor.exists_stands text n
  obtain ⟨passed, slice, rest, split, source, next⟩ := stands.next
  have bytes : utf8 text.toList = before ++ passed ++ slice ++ rest := by
    rw [bytes, split]
    simp
  have line := (Cursor.line_next _).trans next.line
  rw [Cursor.after_succ, next.take_position bytes, utf8_toList, bytes]
  rcases source with piece | ⟨ended, noSlice, nothing⟩
  · exact .of_piece piece line
  · subst noSlice nothing
    rw [List.append_nil, List.append_nil]
    rw [List.append_nil] at line
    exact .of_end ended line

/-- The string is reported on the line of its quote, the comment where the text ends. -/
theorem line_numbers_are_exact_faults :
    ∃ text : String, ∃ before body : Bytes,
      ((Cursor.ofString text).after 2).next.1 = ⟨.fault .unterminatedString, 2⟩ ∧
      text.toUTF8.data.toList.take (((Cursor.ofString text).after 3).position text) =
        before ++ quote :: body ∧
      (∀ b ∈ body, b ≠ quote ∧ b ≠ newline) ∧ 2 = 1 + before.count newline ∧
      ((Cursor.ofString text).after 3).next.1 = ⟨.fault .unterminatedComment, 4⟩ ∧
      4 = 1 + text.toUTF8.data.toList.count newline := by
  have string : ((Cursor.ofString "é\n\"ab\n/*\n").after 2).next.1 =
      ⟨.fault .unterminatedString, 2⟩ := by decide +kernel
  have comment : ((Cursor.ofString "é\n\"ab\n/*\n").after 3).next.1 =
      ⟨.fault .unterminatedComment, 4⟩ := by decide +kernel
  have quoted := line_numbers_are_exact "é\n\"ab\n/*\n" 2
  have commented := line_numbers_are_exact "é\n\"ab\n/*\n" 3
  rw [string] at quoted
  rw [comment] at commented
  obtain ⟨before, body, text, inside, line⟩ := quoted.openingQuote rfl
  have few : "é\n\"ab\n/*\n".toUTF8.data.toList.count newline < UInt32.size - 1 := by
    decide +kernel
  have front : before <+: "é\n\"ab\n/*\n".toUTF8.data.toList := by
    have taken := List.take_prefix (((Cursor.ofString "é\n\"ab\n/*\n").after 3).position
      "é\n\"ab\n/*\n") "é\n\"ab\n/*\n".toUTF8.data.toList
    rw [text] at taken
    exact (List.prefix_append ..).trans taken
  have second := quoted.fits few before front
  have fourth := commented.fits few _ List.prefix_rfl
  rw [← line] at second
  rw [← commented.endOfText rfl] at fourth
  exact ⟨_, before, body, string, text, inside, second, comment, fourth⟩

end JackVm

import JackVm.Proofs.Token.Piece
import JackVm.Token.Stream

/-!
# Reading as a partition

Reading from a cursor until the end of input splits the bytes of the text, without gap or overlap,
into runs of trivia and slices of lexemes in turn. Every run of trivia is the longest there is, and
the slice behind it is the only one that a lexeme can be read from there.
-/

namespace JackVm

namespace Cursor

/-- The tokens read from a cursor up to the end of input, and the bytes they split. -/
inductive Splits : Cursor → Bytes → Prop
  | atEnd {c : Cursor} {run : Bytes} (trivia : LongestTrivia run [])
    (ended : c.next.1.lexeme = .endOfInput) (left : c.next.2.bytesLeft = 0) : Splits c run
  | token {c : Cursor} {run slice rest : Bytes} (trivia : LongestTrivia run (slice ++ rest))
    (piece : Piece c.next.1.lexeme slice rest)
    (text : c.next.1.kind ≠ .fault → utf8 c.next.1.text.toList = slice)
    (left : c.next.2.bytesLeft = rest.length) (more : Splits c.next.2 rest) :
    Splits c (run ++ slice ++ rest)

/-- One token is read from the bytes in front of a cursor, and `rest` is in front of it then. -/
structure Takes (c : Cursor) (run slice rest : Bytes) : Prop where
  trivia : LongestTrivia run (slice ++ rest)
  piece : Piece c.next.1.lexeme slice rest
  ahead : Ahead c.next.2.stray c.next.2.rest rest

end Cursor

theorem not_startsTrivia_of_le {b : UInt8} {rest : Bytes} (high : 128 ≤ b) :
    ¬ StartsTrivia (b :: rest) := by
  intro starts
  obtain ⟨piece, rest', same, h⟩ := starts
  have slash : '/'.toUInt8 ≠ b := fun same => absurd (same ▸ high) (by decide)
  cases h with
  | @blank a _ ha =>
    rw [List.singleton_append, List.cons.injEq] at same
    rw [same.1] at ha
    exact UInt8.not_lt.mpr high (lt_of_blank ha)
  | lineComment => exact slash (List.cons.inj same).1
  | blockComment => exact slash (List.cons.inj same).1

theorem Piece.unexpected_of_le {b : UInt8} (rest : Bytes) (special : b = 0 ∨ 128 ≤ b) :
    Piece (.fault .unexpectedCharacter) [b] rest := by
  rcases special with zero | high
  · rw [zero]
    exact .unexpectedCharacter rest (by decide) (by decide)
  · have other : b ∉ utf8 [' ', '\t', '\r', '\n'] :=
      fun blank => UInt8.not_lt.mpr high (lt_of_blank blank)
    refine .unexpectedCharacter rest other ?_
    rw [onByte_of_le high]
    simp

namespace Cursor
variable {c : Cursor} {bytes : Bytes}

theorem takes_stray {rest : List Char} {k : Nat} (line : UInt32) (h : Ahead (k + 1) rest bytes) :
    ∃ b after, bytes = [] ++ [b] ++ after ∧ Takes ⟨rest, line, k + 1⟩ [] [b] after := by
  obtain ⟨tail, text, length, high⟩ := h
  cases tail with
  | nil => cases length
  | cons b tail =>
    have here : 128 ≤ b := high b List.mem_cons_self
    refine ⟨b, tail ++ utf8 rest, text, ?_, .unexpected_of_le _ (.inr here), ?_⟩
    · exact (TriviaRun.nil _).longest (not_startsTrivia_of_le here)
    · exact ⟨tail, rfl, Nat.succ.inj length, fun a ha => high a (List.mem_cons_of_mem _ ha)⟩

theorem next_cases (h : Ahead c.stray c.rest bytes) :
    (LongestTrivia bytes [] ∧ c.next.1.lexeme = .endOfInput ∧ c.next.2.bytesLeft = 0) ∨
      ∃ run slice rest, bytes = run ++ slice ++ rest ∧ c.Takes run slice rest := by
  obtain ⟨cs, line, stray⟩ := c
  cases stray with
  | succ k =>
    obtain ⟨b, after, text, takes⟩ := takes_stray line h
    exact .inr ⟨[], [b], after, text, takes⟩
  | zero =>
    have text : bytes = utf8 cs := by
      obtain ⟨tail, text, length, -⟩ := h
      rw [text, List.length_eq_zero_iff.mp length, List.nil_append]
    have skips : Skips bytes (skipTrivia .blank cs line) := text ▸ skipTrivia_skipsIn .blank cs line
    cases closed : (skipTrivia .blank cs line).unclosed with
    | true =>
      obtain ⟨ended, run, body, endless, text, trivia⟩ := skips.unclosed_comment closed
      have next : next ⟨cs, line, 0⟩ = (⟨.fault .unterminatedComment, _⟩, _) := if_pos closed
      refine .inr ⟨run, _, [], by rw [List.append_nil]; exact text, ?_, ?_, ?_⟩
      · rw [List.append_nil]
        exact trivia
      · rw [next]
        exact .unterminatedComment endless
      · rw [next, ended]
        exact .utf8 []
    | false =>
      obtain ⟨plain, run, text, trivia⟩ := skips.trivia closed
      have next : next ⟨cs, line, 0⟩ =
          (⟨(readLexeme (skipTrivia .blank cs line).rest).lexeme, _⟩, _) :=
        if_neg (by rw [closed]; decide)
      by_cases left : (skipTrivia .blank cs line).rest = []
      · rw [left] at text trivia next
        rw [text, next, utf8_nil, List.append_nil]
        exact .inl ⟨trivia, rfl, rfl⟩
      · obtain ⟨slice, rest, after, piece, ahead⟩ := readLexeme_reads plain left
        rw [after] at text trivia
        refine .inr ⟨run, slice, rest, by rw [text, List.append_assoc], trivia, ?_, ?_⟩
        · rw [next]
          exact piece
        · rw [next]
          exact ahead

theorem exists_ahead (c : Cursor) : ∃ bytes, Ahead c.stray c.rest bytes := by
  refine ⟨List.replicate c.stray 128 ++ utf8 c.rest, _, rfl, List.length_replicate, ?_⟩
  intro b hb
  rw [List.eq_of_mem_replicate hb]
  exact UInt8.le_refl _

/-- Wherever a cursor stands, what it reads is the end of input or a lexeme that some bytes show. -/
theorem next_piece (c : Cursor) :
    c.next.1.lexeme = .endOfInput ∨ ∃ slice rest, Piece c.next.1.lexeme slice rest := by
  obtain ⟨bytes, ahead⟩ := exists_ahead c
  rcases next_cases ahead with ⟨-, ended, -⟩ | ⟨run, slice, rest, -, takes⟩
  · exact .inl ended
  · exact .inr ⟨slice, rest, takes.piece⟩

theorem splits_of_ahead (h : Ahead c.stray c.rest bytes) : c.Splits bytes := by
  induction measure : c.bytesLeft using Nat.strongRecOn generalizing c bytes with
  | ind n ih =>
    rcases next_cases h with ⟨trivia, ended, left⟩ | ⟨run, slice, rest, text, takes⟩
    · exact .atEnd trivia ended left
    · have ahead := takes.ahead
      have shorter := bytesLeft_next_lt takes.piece.ne_endOfInput
      rw [text]
      refine .token takes.trivia takes.piece takes.piece.text_eq ahead.length_eq.symm ?_
      exact ih _ (measure ▸ shorter) ahead rfl

end Cursor

/-- Reading a text splits its bytes into longest runs of trivia and slices of lexemes. At every
place one slice of one lexeme is possible at most, and a byte that is no character below 128, or is
zero, is a slice by itself wherever a slice begins with it. -/
theorem reading_partitions (text : String) :
    (Cursor.ofString text).Splits text.toUTF8.data.toList ∧
      (∀ (lexeme lexeme' : Lexeme) (slice rest slice' rest' : Bytes), Piece lexeme slice rest →
        Piece lexeme' slice' rest' → slice ++ rest = slice' ++ rest' →
        lexeme = lexeme' ∧ slice = slice') ∧
      ∀ (lexeme : Lexeme) (b : UInt8) (tail rest : Bytes), b = 0 ∨ 128 ≤ b →
        Piece lexeme (b :: tail) rest → lexeme = .fault .unexpectedCharacter ∧ tail = [] := by
  refine ⟨?_, fun _ _ _ _ _ _ h h' => h.unique h', fun lexeme b tail rest special h => ?_⟩
  · rw [utf8_toList]
    exact Cursor.splits_of_ahead (.utf8 text.toList)
  · have alone := h.unique (.unexpected_of_le (tail ++ rest) special) rfl
    exact ⟨alone.1, (List.cons.inj alone.2).2⟩

/-- The comment and the space are trivia. The accented letter is content of the string, and behind
the string each of its two bytes is a lexeme. -/
theorem reading_partitions_accent :
    (Cursor.ofString "do x_1=07/**/+\"é\"é").Splits
      [100, 111, 32, 120, 95, 49, 61, 48, 55, 47, 42, 42, 47, 43, 34, 195, 169, 34, 195, 169] ∧
    (TokenStream.ofString "do x_1=07/**/+\"é\"é").upcoming.map Token.lexeme =
      [.keyword .do, .identifier "x_1", .mark .equal, .integer "07", .mark .plus, .string "é",
        .fault .unexpectedCharacter, .fault .unexpectedCharacter] ∧
    Piece (.string "é") [34, 195, 169, 34] [195, 169] ∧
    (∀ lexeme slice rest, Piece lexeme slice rest → [34, 195, 169, 34, 195, 169] = slice ++ rest →
      lexeme = .string "é" ∧ slice = [34, 195, 169, 34]) ∧
    Piece (.fault .unexpectedCharacter) [195] [169] ∧
    ∀ lexeme tail rest, Piece lexeme (195 :: tail) rest →
      lexeme = .fault .unexpectedCharacter ∧ tail = [] := by
  have string : Piece (.string "é") [34, 195, 169, 34] [195, 169] :=
    .string "é" _ (by decide +kernel)
  have partition := reading_partitions "do x_1=07/**/+\"é\"é"
  have bytes : "do x_1=07/**/+\"é\"é".toUTF8.data.toList =
      [100, 111, 32, 120, 95, 49, 61, 48, 55, 47, 42, 42, 47, 43, 34, 195, 169, 34, 195, 169] := by
    decide
  refine ⟨bytes ▸ partition.1, by decide +kernel, string, fun lexeme slice rest h same => ?_,
    .unexpectedCharacter _ (by decide) (by decide),
    fun lexeme tail rest h => partition.2.2 _ _ _ _ (.inr (by decide)) h⟩
  exact partition.2.1 _ _ _ _ _ _ h string same.symm

end JackVm

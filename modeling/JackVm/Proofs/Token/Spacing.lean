import JackVm.Proofs.Compilation.Source
import JackVm.Proofs.Token.Reading

/-!
# Texts with other trivia

Lexemes that are written again, with white space and comments of any kind in front of them, are read
as the lexemes they were. What is in front of a lexeme must not hide it, so a line comment there is
ended, and what is behind one must not go on with it, so there is white space first. The latter is
needed behind the last lexeme only if that is a slash.
-/

namespace JackVm

/-- Trivia in which each line comment has a newline behind it. -/
inductive ClosedTrivia : Bytes → Prop
  | nil : ClosedTrivia []
  | blank {b : UInt8} {run : Bytes} (h : b ∈ utf8 [' ', '\t', '\r', '\n'])
    (more : ClosedTrivia run) : ClosedTrivia (b :: run)
  | lineComment {body run : Bytes} (inside : '\n'.toUInt8 ∉ body) (more : ClosedTrivia run) :
    ClosedTrivia ('/'.toUInt8 :: '/'.toUInt8 :: (body ++ '\n'.toUInt8 :: run))
  | blockComment (body : Bytes) {run : Bytes} (first : ¬ commentEnd <:+: body ++ ['*'.toUInt8])
    (more : ClosedTrivia run) :
    ClosedTrivia ('/'.toUInt8 :: '*'.toUInt8 :: (body ++ commentEnd ++ run))

def BeginsBlank (bytes : Bytes) : Prop :=
  ∃ b ∈ bytes.head?, b ∈ utf8 [' ', '\t', '\r', '\n']

def spacedText (last : String) : List (String × Lexeme) → String
  | [] => last
  | (gap, lexeme) :: written => gap ++ lexeme.text ++ spacedText last written

/-- Gaps of trivia, where those between two lexemes begin with white space and are closed. -/
structure Spaced (written : List (String × Lexeme)) (last : String) : Prop where
  first : ∀ p ∈ written.head?, TriviaRun (utf8 p.1.toList) []
  between : ∀ p ∈ written.tail,
    ClosedTrivia (utf8 p.1.toList) ∧ BeginsBlank (utf8 p.1.toList)
  last : TriviaRun (utf8 last.toList) []

theorem ClosedTrivia.isRun {run : Bytes} (h : ClosedTrivia run) (rest : Bytes) :
    TriviaRun run rest := by
  induction h with
  | nil => exact .nil rest
  | blank hb _ ih => exact .cons (.blank _ hb) ih
  | @lineComment body run inside _ ih =>
    have newline : TriviaRun ('\n'.toUInt8 :: run) rest := .cons (.blank _ (by decide)) ih
    refine .cons (.lineComment inside ?_) newline
    intro b hb
    exact (Option.some.inj hb).symm
  | blockComment _ first _ ih => exact .cons (.blockComment _ first) ih

theorem TriviaRun.endless (body : Bytes) (inside : '\n'.toUInt8 ∉ body) :
    TriviaRun ('/'.toUInt8 :: '/'.toUInt8 :: body) [] := by
  rw [← List.append_nil ('/'.toUInt8 :: '/'.toUInt8 :: body)]
  exact .cons (.lineComment inside (by simp [AtLineEnd])) (.nil [])

theorem TriviaRun.mem_head? {run rest : Bytes} {b : UInt8} (h : TriviaRun run rest)
    (hb : b ∈ run.head?) : b ∈ utf8 [' ', '\t', '\r', '\n', '/'] := by
  cases h with
  | nil => cases hb
  | cons first =>
    cases first with
    | blank _ blank =>
      rw [← Option.some.inj hb]
      exact List.mem_append_left (utf8 ['/']) blank
    | lineComment | blockComment =>
      rw [← Option.some.inj hb]
      decide

theorem Lexes.exists_piece {ls : List Lexeme} {bytes : Bytes} (h : Lexes ls bytes) :
    ∀ lexeme ∈ ls, ∃ slice rest, Piece lexeme slice rest := by
  induction h with
  | nil => simp
  | cons _ piece _ ih => exact List.forall_mem_cons.mpr ⟨⟨_, _, piece⟩, ih⟩

/-- A lexeme ends as well where trivia are behind it, except for a slash in front of a comment. -/
theorem Piece.before_trivia {lexeme : Lexeme} {slice rest rest' : Bytes}
    (h : Piece lexeme slice rest) (sound : lexeme.kind ≠ .fault)
    (trivia : ∀ b ∈ rest'.head?, b ∈ utf8 [' ', '\t', '\r', '\n', '/'])
    (slash : lexeme = .mark .slash → ∀ b ∈ rest'.head?, b ≠ '/'.toUInt8) :
    Piece lexeme slice rest' := by
  have noDigit : ∀ b ∈ utf8 [' ', '\t', '\r', '\n', '/'], ¬ onByte Char.isDigit b := by
    decide +kernel
  have noPart : ∀ b ∈ utf8 [' ', '\t', '\r', '\n', '/'], ¬ onByte isWordPart b := by
    decide +kernel
  have noComment : ∀ b ∈ utf8 [' ', '\t', '\r', '\n', '/'],
      b ≠ '/'.toUInt8 → b ∉ utf8 ['/', '*'] := by decide +kernel
  cases h with
  | mark m =>
    refine .mark m fun same b hb => ?_
    exact noComment b (trivia b hb) (slash (congrArg Lexeme.mark same) b hb)
  | integer digits first inside =>
    exact .integer digits first inside fun b hb => noDigit b (trivia b hb)
  | word word first inside => exact .word word first inside fun b hb => noPart b (trivia b hb)
  | string content _ inside => exact .string content rest' inside
  | unterminatedString => exact absurd rfl sound
  | unterminatedComment => exact absurd rfl sound
  | unexpectedCharacter => exact absurd rfl sound

theorem mem_head?_spacedText {last : String} {p : String × Lexeme}
    {written : List (String × Lexeme)} {b : UInt8}
    (apart : ∀ q ∈ written, BeginsBlank (utf8 q.1.toList))
    (trailing : TriviaRun (utf8 last.toList) [])
    (slash : ∀ q ∈ (p :: written).getLast?, q.2 = .mark .slash →
      ∀ b ∈ (utf8 last.toList).head?, b ≠ '/'.toUInt8)
    (hb : b ∈ (utf8 (spacedText last written).toList).head?) :
    b ∈ utf8 [' ', '\t', '\r', '\n', '/'] ∧ (p.2 = .mark .slash → b ≠ '/'.toUInt8) := by
  cases written with
  | nil => exact ⟨trailing.mem_head? hb, fun mark => slash p rfl mark b hb⟩
  | cons q written =>
    have noSlash : ∀ a ∈ utf8 [' ', '\t', '\r', '\n'], a ≠ '/'.toUInt8 := by decide +kernel
    obtain ⟨a, first, blank⟩ := apart q List.mem_cons_self
    have same : a = b := by
      rw [spacedText, String.toList_append, String.toList_append, utf8_append, utf8_append,
        List.append_assoc, List.head?_append, first] at hb
      exact Option.some.inj hb
    rw [← same]
    exact ⟨List.mem_append_left (utf8 ['/']) blank, fun _ => noSlash a blank⟩

theorem lexes_spacedText {last : String} {written : List (String × Lexeme)}
    (pieces : ∀ p ∈ written, p.2.kind ≠ .fault ∧ ∃ slice rest, Piece p.2 slice rest)
    (closed : ∀ p ∈ written, ClosedTrivia (utf8 p.1.toList))
    (apart : ∀ p ∈ written.tail, BeginsBlank (utf8 p.1.toList))
    (trailing : TriviaRun (utf8 last.toList) [])
    (slash : ∀ p ∈ written.getLast?, p.2 = .mark .slash →
      ∀ b ∈ (utf8 last.toList).head?, b ≠ '/'.toUInt8) :
    Lexes (written.map Prod.snd) (utf8 (spacedText last written).toList) := by
  induction written with
  | nil => exact .nil trailing
  | cons p written ih =>
    obtain ⟨⟨sound, slice, rest, piece⟩, pieces⟩ := List.forall_mem_cons.mp pieces
    obtain ⟨first, closed⟩ := List.forall_mem_cons.mp closed
    have behind {b : UInt8} := mem_head?_spacedText (b := b) apart trailing slash
    have here : Piece p.2 slice (utf8 (spacedText last written).toList) :=
      piece.before_trivia sound (fun b hb => (behind hb).1) fun mark b hb => (behind hb).2 mark
    have more : Lexes (written.map Prod.snd) (utf8 (spacedText last written).toList) := by
      refine ih pieces closed (fun q hq => apart q (List.mem_of_mem_tail hq)) fun q hq => ?_
      cases written with
      | nil => cases hq
      | cons => exact slash q hq
    rw [spacedText, String.toList_append, String.toList_append, utf8_append, utf8_append,
      piece.text_eq sound]
    exact .cons (first.isRun _) here more

/-- The lexemes of a text, written with other gaps, are read again, and then the end of input. A
gap in front of the first has to be closed like any other, and what is behind the last may not
begin with a comment if that is a slash. -/
theorem spaced_text_reads_alike (source last : String) (written : List (String × Lexeme))
    (lexemes : written.map Prod.snd = sourceLexemes source)
    (sound : ∀ lexeme ∈ sourceLexemes source, lexeme.kind ≠ .fault)
    (spaced : Spaced written last)
    (leading : ∀ p ∈ written.head?, ClosedTrivia (utf8 p.1.toList))
    (slash : ∀ p ∈ written.getLast?, p.2 = .mark .slash →
      ∀ b ∈ (utf8 last.toList).head?, b ≠ '/'.toUInt8) :
    sourceLexemes (spacedText last written) = sourceLexemes source ∧
      ∀ n, ((Cursor.ofString (spacedText last written)).after n).next.1.lexeme =
        (sourceLexemes source)[n]?.getD .endOfInput := by
  have source_lexes : Lexes (sourceLexemes source) (utf8 source.toList) :=
    (Cursor.lexemes_ofString_eq_iff source _).mp rfl
  have pieces : ∀ p ∈ written, p.2.kind ≠ .fault ∧ ∃ slice rest, Piece p.2 slice rest := by
    intro p hp
    have mem : p.2 ∈ sourceLexemes source := lexemes ▸ List.mem_map_of_mem hp
    exact ⟨sound p.2 mem, source_lexes.exists_piece p.2 mem⟩
  have closed : ∀ p ∈ written, ClosedTrivia (utf8 p.1.toList) := by
    intro p hp
    cases written with
    | nil => cases hp
    | cons q written =>
      rcases List.mem_cons.mp hp with same | mem
      · exact leading p (same ▸ rfl)
      · exact (spaced.between p mem).1
  have lexes :=
    lexes_spacedText pieces closed (fun p hp => (spaced.between p hp).2) spaced.last slash
  rw [lexemes] at lexes
  have same : sourceLexemes (spacedText last written) = sourceLexemes source :=
    (Cursor.lexemes_ofString_eq_iff _ _).mpr lexes
  refine ⟨same, fun n => ?_⟩
  rw [← same]
  exact Cursor.lexeme_after (.utf8 _) n

/-- What looks like a comment inside a string stays there. -/
theorem spaced_text_reads_alike_string :
    sourceLexemes "return\"//\"/2;" =
        [.keyword .return, .string "//", .mark .slash, .integer "2", .mark .semicolon] ∧
      sourceLexemes "/*/*/return \"//\"\t//\n/ /**/2\n;//" =
        [.keyword .return, .string "//", .mark .slash, .integer "2", .mark .semicolon] ∧
      ((Cursor.ofString "/*/*/return \"//\"\t//\n/ /**/2\n;//").after 5).next.1.lexeme =
        .endOfInput := by
  have lexemes : sourceLexemes "return\"//\"/2;" =
      [.keyword .return, .string "//", .mark .slash, .integer "2", .mark .semicolon] := by
    decide +kernel
  have front : ClosedTrivia (utf8 "/*/*/".toList) :=
    .blockComment (utf8 ['/']) (by decide) .nil
  have blank : ClosedTrivia (utf8 " ".toList) := .blank (by decide) .nil
  have line : ClosedTrivia (utf8 "\t//\n".toList) :=
    .blank (by decide) (.lineComment List.not_mem_nil .nil)
  have block : ClosedTrivia (utf8 " /**/".toList) :=
    .blank (by decide) (.blockComment [] (by decide) .nil)
  have newline : ClosedTrivia (utf8 "\n".toList) := .blank (by decide) .nil
  have trailing : TriviaRun (utf8 "//".toList) [] := .endless [] List.not_mem_nil
  have alike := spaced_text_reads_alike "return\"//\"/2;" "//"
    [("/*/*/", .keyword .return), (" ", .string "//"), ("\t//\n", .mark .slash),
      (" /**/", .integer "2"), ("\n", .mark .semicolon)] lexemes.symm
    (by rw [lexemes]; decide)
    { first := by simpa using front.isRun []
      between := by
        refine List.forall_mem_cons.mpr ⟨⟨blank, _, rfl, by decide⟩, ?_⟩
        refine List.forall_mem_cons.mpr ⟨⟨line, _, rfl, by decide⟩, ?_⟩
        refine List.forall_mem_cons.mpr ⟨⟨block, _, rfl, by decide⟩, ?_⟩
        exact List.forall_mem_singleton.mpr ⟨newline, _, rfl, by decide⟩
      last := trailing }
    (by simpa using front) (by simp)
  exact ⟨lexemes, alike.1.trans lexemes, (alike.2 5).trans (by rw [lexemes]; rfl)⟩

/-- A slash and what is behind it may begin a comment together, and a line comment hides what stands
on its line. -/
theorem spaced_text_may_hide_lexemes :
    (sourceLexemes "/" = [.mark .slash] ∧ Spaced [("", .mark .slash)] "/**/" ∧
        sourceLexemes (spacedText "/**/" [("", .mark .slash)]) = []) ∧
      (sourceLexemes "x" = [.identifier "x"] ∧ Spaced [("//", .identifier "x")] "" ∧
        sourceLexemes (spacedText "" [("//", .identifier "x")]) = []) := by
  have block : ClosedTrivia (utf8 "/**/".toList) := .blockComment [] (by decide) .nil
  have line : TriviaRun (utf8 "//".toList) [] := .endless [] List.not_mem_nil
  refine ⟨⟨by decide +kernel, ⟨?_, by simp, block.isRun []⟩, by decide +kernel⟩,
    ⟨by decide +kernel, ⟨by simpa using line, by simp, .nil []⟩, by decide +kernel⟩⟩
  simpa using TriviaRun.nil []

end JackVm

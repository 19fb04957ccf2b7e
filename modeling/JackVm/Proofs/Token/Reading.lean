import Mathlib.Logic.Function.Iterate
import JackVm.Token.Stream
import JackVm.Proofs.Token.Partition

/-!
# Reading on

The lexemes of a text are determined by its bytes: they are the lexemes whose slices, with trivia in
front of each and behind the last, make up the bytes. There is only one such list, since trivia end
where a lexeme begins, and reading finds it, one lexeme with each token and then the end of input
for ever.
-/

namespace JackVm

/-- Lexemes whose slices make up some bytes, with trivia in front of each and behind the last. -/
inductive Lexes : List Lexeme → Bytes → Prop
  | nil {run : Bytes} (trivia : TriviaRun run []) : Lexes [] run
  | cons {lexeme : Lexeme} {lexemes : List Lexeme} {run slice rest : Bytes}
    (trivia : TriviaRun run (slice ++ rest)) (piece : Piece lexeme slice rest)
    (more : Lexes lexemes rest) : Lexes (lexeme :: lexemes) (run ++ slice ++ rest)

/-! ## Trivia end where a lexeme begins -/

theorem StartsTrivia.beginning {bytes : Bytes} (h : StartsTrivia bytes) :
    (∃ b rest, bytes = b :: rest ∧ b ∈ utf8 [' ', '\t', '\r', '\n']) ∨
      ∃ b rest, bytes = '/'.toUInt8 :: b :: rest ∧ b ∈ utf8 ['/', '*'] := by
  obtain ⟨piece, rest, rfl, h⟩ := h
  cases h with
  | blank _ hb => exact .inl ⟨_, _, rfl, hb⟩
  | lineComment => exact .inr ⟨_, _, rfl, by decide⟩
  | blockComment => exact .inr ⟨_, _, rfl, by decide⟩

namespace Piece
variable {lexeme : Lexeme} {slice rest : Bytes}

theorem slice_ne_nil (h : Piece lexeme slice rest) : slice ≠ [] := by
  obtain ⟨b, here, -⟩ := h.form_eq
  intro empty
  rw [empty] at here
  cases here

theorem Form.ofByte_blank {b : UInt8} (h : b ∈ utf8 [' ', '\t', '\r', '\n']) :
    Form.ofByte b = .other := by
  have all : ∀ a ∈ utf8 [' ', '\t', '\r', '\n'], Form.ofByte a = .other := by
    decide +kernel
  exact all b h

theorem form_of_eq_cons {b : UInt8} {more : Bytes} (h : Piece lexeme slice rest)
    (text : slice ++ rest = b :: more) : Form.ofByte b = Form.ofLexeme lexeme := by
  obtain ⟨first, here, form⟩ := h.form_eq
  have head : (slice ++ rest).head? = some first := by rw [List.head?_append, here]; rfl
  rw [text] at head
  rw [Option.some.inj head]
  exact form

theorem not_startsTrivia (h : Piece lexeme slice rest) : ¬ StartsTrivia (slice ++ rest) := by
  intro starts
  rcases starts.beginning with ⟨b, more, text, blank⟩ | ⟨b, more, text, second⟩
  · have form : .other = Form.ofLexeme lexeme :=
      (Form.ofByte_blank blank).symm.trans (h.form_of_eq_cons text)
    cases h with
    | unexpectedCharacter _ plain =>
      rw [List.singleton_append, List.cons.injEq] at text
      rw [text.1] at plain
      exact plain blank
    | word word => cases form.trans (Form.ofLexeme_ofWord word)
    | mark | integer | string | unterminatedString | unterminatedComment => cases form
  · have form : .mark = Form.ofLexeme lexeme := h.form_of_eq_cons text
    cases h with
    | mark m alone =>
      rw [List.singleton_append, List.cons.injEq] at text
      refine alone (mark_inj text.1) b ?_ second
      rw [text.2]
      rfl
    | unterminatedComment endless => exact not_startsTrivia_unclosed endless (by simpa using starts)
    | word word => cases form.trans (Form.ofLexeme_ofWord word)
    | integer | string | unterminatedString | unexpectedCharacter => cases form

end Piece

theorem LongestTrivia.unique {run rest run' rest' : Bytes} (h : LongestTrivia run rest)
    (h' : LongestTrivia run' rest') (same : run ++ rest = run' ++ rest') :
    run = run' ∧ rest = rest' :=
  List.append_inj same
    (Nat.le_antisymm (h'.longest run rest same h.isRun) (h.longest run' rest' same.symm h'.isRun))

/-! ## The lexemes that are read -/

namespace TokenStream

theorem upcoming_ofCursor {c : Cursor} (more : c.next.1.lexeme ≠ .endOfInput) :
    (ofCursor c).upcoming = c.next.1 :: (ofCursor c.next.2).upcoming := by
  have next := next_ofCursor more
  cases stream : ofCursor c with
  | mk upcoming endLine =>
    rw [stream] at next
    cases upcoming with
    | nil => exact absurd (congrArg (fun r => r.1.lexeme) next).symm more
    | cons token upcoming =>
      rw [next_cons, Prod.mk.injEq] at next
      rw [next.1, ← next.2]

end TokenStream

namespace Cursor
variable {c : Cursor} {bytes : Bytes} {ls : List Lexeme}

/-- The lexemes in front of a cursor and of the end of input. -/
def lexemes (c : Cursor) : List Lexeme :=
  (TokenStream.ofCursor c).upcoming.map Token.lexeme

theorem lexemes_of_end (ended : c.next.1.lexeme = .endOfInput) : c.lexemes = [] := by
  rw [Cursor.lexemes, TokenStream.ofCursor_of_end ended]
  rfl

theorem lexemes_of_more (more : c.next.1.lexeme ≠ .endOfInput) :
    c.lexemes = c.next.1.lexeme :: c.next.2.lexemes := by
  rw [Cursor.lexemes, TokenStream.upcoming_ofCursor more]
  rfl

theorem Splits.lexes (h : c.Splits bytes) : Lexes c.lexemes bytes := by
  induction h with
  | atEnd trivia ended =>
    rw [lexemes_of_end ended]
    exact .nil trivia.isRun
  | token trivia piece _ _ _ ih =>
    rw [lexemes_of_more piece.ne_endOfInput]
    exact .cons trivia.isRun piece ih

theorem next_eq_of_piece {lexeme : Lexeme} {run slice rest : Bytes}
    (ahead : Ahead c.stray c.rest (run ++ slice ++ rest)) (trivia : TriviaRun run (slice ++ rest))
    (piece : Piece lexeme slice rest) :
    c.next.1.lexeme = lexeme ∧ Ahead c.next.2.stray c.next.2.rest rest := by
  have longest := trivia.longest piece.not_startsTrivia
  rcases next_cases ahead with ⟨whole, -, -⟩ | ⟨run', slice', rest', text, takes⟩
  · have whole := longest.longest _ [] (by simp) whole.isRun
    have nonempty := List.length_pos_iff.mpr piece.slice_ne_nil
    simp only [List.length_append] at whole
    omega
  · rw [List.append_assoc, List.append_assoc] at text
    obtain ⟨-, text⟩ := longest.unique takes.trivia text
    obtain ⟨same, sameSlice⟩ := piece.unique takes.piece text
    rw [sameSlice] at text
    exact ⟨same.symm, List.append_cancel_left text ▸ takes.ahead⟩

theorem lexemes_eq (ahead : Ahead c.stray c.rest bytes) (h : Lexes ls bytes) :
    c.lexemes = ls := by
  induction h generalizing c with
  | nil trivia =>
    rcases next_cases ahead with ⟨-, ended, -⟩ | ⟨run, slice, rest, text, takes⟩
    · exact lexemes_of_end ended
    · have whole := takes.trivia.longest _ [] (by rw [text]; simp) trivia
      have length := congrArg List.length text
      have nonempty := List.length_pos_iff.mpr takes.piece.slice_ne_nil
      simp only [List.length_append] at length
      omega
  | cons trivia piece more ih =>
    obtain ⟨same, behind⟩ := next_eq_of_piece ahead trivia piece
    rw [lexemes_of_more (same ▸ piece.ne_endOfInput), same, ih behind]

/-- What is read from a text is what its bytes are made up of. -/
theorem lexemes_ofString_eq_iff (text : String) (ls : List Lexeme) :
    (ofString text).lexemes = ls ↔ Lexes ls (utf8 text.toList) := by
  have ahead : Ahead (ofString text).stray (ofString text).rest (utf8 text.toList) := .utf8 _
  constructor
  · intro same
    rw [← same]
    exact (splits_of_ahead ahead).lexes
  · exact lexemes_eq ahead

/-! ## One token after the other -/

/-- The cursor after some tokens have been read. -/
def after (c : Cursor) (n : Nat) : Cursor :=
  (fun c => c.next.2)^[n] c

theorem after_succ (c : Cursor) (n : Nat) : c.after (n + 1) = (c.after n).next.2 :=
  Function.iterate_succ_apply' ..

theorem ahead_nil (left : c.bytesLeft = 0) : Ahead c.stray c.rest [] := by
  obtain ⟨rest, line, stray⟩ := c
  rw [bytesLeft, Nat.add_eq_zero_iff] at left
  cases rest with
  | nil =>
    rw [left.1]
    exact .utf8 []
  | cons c rest =>
    have size := c.utf8Size_pos
    rw [byteLength] at left
    omega

/-- What a token is read from: the slice of its lexeme or, at the end of input, nothing. -/
def ReadFrom (lexeme : Lexeme) (slice rest : Bytes) : Prop :=
  Piece lexeme slice rest ∨ (lexeme = .endOfInput ∧ slice = [] ∧ rest = [])

theorem exists_slice (h : Ahead c.stray c.rest bytes) :
    ∃ passed slice rest, bytes = passed ++ slice ++ rest ∧
      ReadFrom c.next.1.lexeme slice rest ∧ Ahead c.next.2.stray c.next.2.rest rest := by
  rcases next_cases h with ⟨-, ended, left⟩ | ⟨run, slice, rest, text, takes⟩
  · exact ⟨bytes, [], [], by simp, .inr ⟨ended, rfl, rfl⟩, ahead_nil left⟩
  · exact ⟨run, slice, rest, text, .inl takes.piece, takes.ahead⟩

theorem lexemes_next_of_end (h : Ahead c.stray c.rest bytes)
    (ended : c.next.1.lexeme = .endOfInput) : c.next.2.lexemes = [] := by
  obtain ⟨passed, slice, rest, -, piece | ⟨-, -, last⟩, ahead⟩ := exists_slice h
  · exact absurd ended piece.ne_endOfInput
  · rw [last] at ahead
    exact lexemes_eq ahead (.nil (.nil []))

/-- The tokens in front of the end of input are read one after the other. -/
theorem getElem?_upcoming {c : Cursor} {n : Nat}
    (h : n < (TokenStream.ofCursor c).upcoming.length) :
    (TokenStream.ofCursor c).upcoming[n]? = some (c.after n).next.1 := by
  by_cases ended : c.next.1.lexeme = .endOfInput
  · rw [TokenStream.ofCursor_of_end ended] at h
    cases h
  · rw [TokenStream.upcoming_ofCursor ended] at h ⊢
    cases n with
    | zero => rfl
    | succ n =>
      rw [List.getElem?_cons_succ]
      exact getElem?_upcoming (Nat.lt_of_succ_lt_succ h)

theorem lexeme_after (h : Ahead c.stray c.rest bytes) (n : Nat) :
    (c.after n).next.1.lexeme = c.lexemes[n]?.getD .endOfInput := by
  induction n generalizing c bytes with
  | zero =>
    show c.next.1.lexeme = _
    by_cases ended : c.next.1.lexeme = .endOfInput
    · rw [lexemes_of_end ended, ended]
      rfl
    · rw [lexemes_of_more ended]
      rfl
  | succ n ih =>
    obtain ⟨passed, slice, rest, -, -, ahead⟩ := exists_slice h
    show (c.next.2.after n).next.1.lexeme = _
    rw [ih ahead]
    by_cases ended : c.next.1.lexeme = .endOfInput
    · rw [lexemes_of_end ended, lexemes_next_of_end h ended]
      rfl
    · rw [lexemes_of_more ended, List.getElem?_cons_succ]

end Cursor

end JackVm

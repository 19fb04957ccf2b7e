import JackVm.Token

/-!
# Reading tokens from a text

A cursor is a place in a source text. Reading skips white space and comments, then takes the
longest lexeme that starts there. A character that starts no lexeme is reported once for each
byte of its encoding, so a cursor may stand inside such a character.
-/

namespace JackVm

/-- The size of a text in bytes. -/
def byteLength : List Char → Nat
  | [] => 0
  | c :: cs => c.utf8Size + byteLength cs

inductive Trivia where
  | blank
  | lineComment
  | blockComment
  deriving DecidableEq, Repr

/-- The text that remains after trivia, and the line it starts on. -/
structure Skipped where
  rest : List Char
  line : UInt32
  /-- Whether the text ended inside a block comment. -/
  unclosed : Bool
  deriving DecidableEq, Repr

/-- A block comment ends at the first closing mark that does not overlap its opening one. -/
def skipTrivia : Trivia → List Char → UInt32 → Skipped
  | .blank, ' ' :: cs, line => skipTrivia .blank cs line
  | .blank, '\t' :: cs, line => skipTrivia .blank cs line
  | .blank, '\r' :: cs, line => skipTrivia .blank cs line
  | .blank, '\n' :: cs, line => skipTrivia .blank cs (line + 1)
  | .blank, '/' :: '/' :: cs, line => skipTrivia .lineComment cs line
  | .blank, '/' :: '*' :: cs, line => skipTrivia .blockComment cs line
  | .blank, cs, line => ⟨cs, line, false⟩
  | .lineComment, '\n' :: cs, line => skipTrivia .blank cs (line + 1)
  | .lineComment, _ :: cs, line => skipTrivia .lineComment cs line
  | .lineComment, [], line => ⟨[], line, false⟩
  | .blockComment, '*' :: '/' :: cs, line => skipTrivia .blank cs line
  | .blockComment, '\n' :: cs, line => skipTrivia .blockComment cs (line + 1)
  | .blockComment, _ :: cs, line => skipTrivia .blockComment cs line
  | .blockComment, [], line => ⟨[], line, true⟩

def isWordStart (c : Char) : Bool :=
  c.isAlpha || c == '_'

def isWordPart (c : Char) : Bool :=
  isWordStart c || c.isDigit

def Lexeme.ofWord (word : String) : Lexeme :=
  match Keyword.ofWord? word with
  | some k => .keyword k
  | none => .identifier word

structure Reading where
  lexeme : Lexeme
  rest : List Char
  /-- Bytes of the last character read that no lexeme accounts for yet. -/
  stray : Nat := 0
  deriving DecidableEq, Repr

/-- A string constant stays on one line, and nothing stands for a quote inside it. -/
def isStringPart (c : Char) : Bool :=
  c != '"' && c != '\n'

/-- Reads a string constant whose opening quote has been read. -/
def readString (cs : List Char) : Reading :=
  match cs.dropWhile isStringPart with
  | '"' :: rest => { lexeme := .string (String.ofList (cs.takeWhile isStringPart)), rest }
  | rest => { lexeme := .fault .unterminatedString, rest }

/-- Reads the lexeme that starts the text, which has no trivia in front. -/
def readLexeme : List Char → Reading
  | [] => { lexeme := .endOfInput, rest := [] }
  | c :: cs =>
    match Mark.ofChar? c with
    | some m => { lexeme := .mark m, rest := cs }
    | none =>
      if c = '"' then
        readString cs
      else if c.isDigit then
        { lexeme := .integer (String.ofList (c :: cs.takeWhile Char.isDigit))
          rest := cs.dropWhile Char.isDigit }
      else if isWordStart c then
        { lexeme := .ofWord (String.ofList (c :: cs.takeWhile isWordPart))
          rest := cs.dropWhile isWordPart }
      else
        { lexeme := .fault .unexpectedCharacter, rest := cs, stray := c.utf8Size - 1 }

structure Cursor where
  rest : List Char
  line : UInt32 := 1
  /-- Bytes still to be reported of the character that was read last. -/
  stray : Nat := 0
  deriving DecidableEq, Repr

namespace Cursor

def ofString (source : String) : Cursor :=
  { rest := source.toList }

/-- The next token. At the end of the text it is the end of input, again and again. -/
def next (c : Cursor) : Token × Cursor :=
  match c.stray with
  | k + 1 => (⟨.fault .unexpectedCharacter, c.line⟩, { c with stray := k })
  | 0 =>
    let s := skipTrivia .blank c.rest c.line
    if s.unclosed then
      (⟨.fault .unterminatedComment, s.line⟩, { rest := s.rest, line := s.line })
    else
      let r := readLexeme s.rest
      (⟨r.lexeme, s.line⟩, { rest := r.rest, line := s.line, stray := r.stray })

/-- Bytes of the text that have not been read. -/
def bytesLeft (c : Cursor) : Nat :=
  c.stray + byteLength c.rest

end Cursor

theorem skipTrivia_byteLength_le (mode : Trivia) (cs : List Char) (line : UInt32) :
    byteLength (skipTrivia mode cs line).rest ≤ byteLength cs := by
  fun_induction skipTrivia mode cs line <;> simp_all only [byteLength] <;> omega

theorem skipTrivia_byteLength_lt {cs : List Char} {line : UInt32}
    (h : (skipTrivia .blank cs line).unclosed) :
    byteLength (skipTrivia .blank cs line).rest < byteLength cs := by
  revert h
  generalize start : Trivia.blank = mode
  fun_cases skipTrivia mode cs line <;> cases start
  case case7 => simp
  all_goals
    intro
    refine Nat.lt_of_le_of_lt (skipTrivia_byteLength_le _ _ _) ?_
    simp only [byteLength, Char.utf8Size]
    simp
    try omega

private theorem byteLength_dropWhile_le (p : Char → Bool) (cs : List Char) :
    byteLength (cs.dropWhile p) ≤ byteLength cs := by
  induction cs with
  | nil => exact Nat.le_refl _
  | cons c cs ih =>
    rw [List.dropWhile_cons]
    split
    · exact Nat.le_trans ih (Nat.le_add_left _ _)
    · exact Nat.le_refl _

private theorem readString_byteLength_le (cs : List Char) :
    (readString cs).stray + byteLength (readString cs).rest ≤ byteLength cs := by
  have inside := byteLength_dropWhile_le isStringPart cs
  unfold readString
  split
  · next rest h =>
    rw [h, byteLength] at inside
    show 0 + byteLength rest ≤ byteLength cs
    omega
  · simpa using inside

theorem readLexeme_byteLength_lt {cs : List Char} (h : (readLexeme cs).lexeme ≠ .endOfInput) :
    (readLexeme cs).stray + byteLength (readLexeme cs).rest < byteLength cs := by
  cases cs with
  | nil => exact absurd rfl h
  | cons c cs =>
    have size := c.utf8Size_pos
    have quoted := readString_byteLength_le cs
    have digits := byteLength_dropWhile_le Char.isDigit cs
    have word := byteLength_dropWhile_le isWordPart cs
    simp only [readLexeme, byteLength]
    split
    · simp only; omega
    · split
      · omega
      · split
        · simp only; omega
        · split <;> simp only <;> omega

/-- Every token but the end of input takes text away. -/
theorem Cursor.bytesLeft_next_lt {c : Cursor} (h : c.next.1.lexeme ≠ .endOfInput) :
    c.next.2.bytesLeft < c.bytesLeft := by
  obtain ⟨cs, line, stray⟩ := c
  cases stray with
  | succ k => simp [next, bytesLeft]
  | zero =>
    have skipped := skipTrivia_byteLength_le .blank cs line
    simp only [next, bytesLeft] at h ⊢
    split at h <;> rename_i unclosed
    · have := skipTrivia_byteLength_lt unclosed
      simp only [unclosed, if_true]
      omega
    · have := readLexeme_byteLength_lt h
      simp only [unclosed, Bool.false_eq_true, if_false]
      omega

end JackVm

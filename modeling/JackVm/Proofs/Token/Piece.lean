import JackVm.Proofs.Token.Trivia

/-!
# Lexemes in bytes

The slices of a text that lexemes are read from, said of bytes alone. Of all slices that begin at
one place, at most one is the slice of a lexeme, and it is the slice of one lexeme only. Where no
trivia stands, the lexeme that is read is the one whose slice begins there.
-/

namespace JackVm

def quote : UInt8 :=
  '"'.toUInt8

def startsLexeme (c : Char) : Bool :=
  (Mark.ofChar? c).isSome || c == '"' || c.isDigit || isWordStart c

/-- A lexeme, the slice of the text it is read from, and the bytes behind the slice. -/
inductive Piece : Lexeme → Bytes → Bytes → Prop
  /-- A slash that begins a comment is no mark. -/
  | mark (m : Mark) {rest : Bytes}
    (alone : m = .slash → ∀ b ∈ rest.head?, b ∉ utf8 ['/', '*']) :
    Piece (.mark m) [m.char.toUInt8] rest
  | integer (digits : String) {rest : Bytes} (first : utf8 digits.toList ≠ [])
    (inside : ∀ b ∈ utf8 digits.toList, onByte Char.isDigit b)
    (ended : ∀ b ∈ rest.head?, ¬ onByte Char.isDigit b) :
    Piece (.integer digits) (utf8 digits.toList) rest
  | word (word : String) {rest : Bytes}
    (first : ∃ b ∈ (utf8 word.toList).head?, onByte isWordStart b)
    (inside : ∀ b ∈ utf8 word.toList, onByte isWordPart b)
    (ended : ∀ b ∈ rest.head?, ¬ onByte isWordPart b) :
    Piece (.ofWord word) (utf8 word.toList) rest
  | string (content : String) (rest : Bytes)
    (inside : ∀ b ∈ utf8 content.toList, b ≠ quote ∧ b ≠ '\n'.toUInt8) :
    Piece (.string content) (quote :: (utf8 content.toList ++ [quote])) rest
  | unterminatedString {body rest : Bytes} (inside : ∀ b ∈ body, b ≠ quote ∧ b ≠ '\n'.toUInt8)
    (ended : AtLineEnd rest) : Piece (.fault .unterminatedString) (quote :: body) rest
  | unterminatedComment {body : Bytes} (endless : ¬ commentEnd <:+: body) :
    Piece (.fault .unterminatedComment) ('/'.toUInt8 :: '*'.toUInt8 :: body) []
  | unexpectedCharacter {b : UInt8} (rest : Bytes) (blank : b ∉ utf8 [' ', '\t', '\r', '\n'])
    (other : ¬ onByte startsLexeme b) : Piece (.fault .unexpectedCharacter) [b] rest

namespace Piece
variable {lexeme lexeme' : Lexeme} {slice rest slice' rest' : Bytes}

theorem ofWord_eq (word : String) :
    (∃ k : Keyword, Lexeme.ofWord word = .keyword k ∧ word = k.spelling) ∨
      Lexeme.ofWord word = .identifier word := by
  unfold Lexeme.ofWord
  split
  · next k found => exact .inl ⟨k, rfl, Keyword.ofWord?_eq_some_iff.mp found⟩
  · exact .inr rfl

theorem text_ofWord (word : String) : (Lexeme.ofWord word).text = word := by
  rcases ofWord_eq word with ⟨k, same, spelled⟩ | same
  · rw [same, spelled]
    rfl
  · rw [same]
    rfl

theorem utf8_mark (m : Mark) : utf8 [m.char] = [m.char.toUInt8] := by
  cases m <;> rfl

theorem text_eq (h : Piece lexeme slice rest) (sound : lexeme.kind ≠ .fault) :
    utf8 lexeme.text.toList = slice := by
  cases h with
  | mark m =>
    show utf8 (String.singleton m.char).toList = _
    rw [String.toList_singleton, utf8_mark]
  | integer => rfl
  | word word => rw [text_ofWord]
  | string content =>
    show utf8 ("\"" ++ content ++ "\"").toList = _
    rw [String.toList_append, String.toList_append, utf8_append, utf8_append]
    rfl
  | unterminatedString => exact absurd rfl sound
  | unterminatedComment => exact absurd rfl sound
  | unexpectedCharacter => exact absurd rfl sound

theorem ne_endOfInput (h : Piece lexeme slice rest) : lexeme ≠ .endOfInput := by
  intro ended
  cases h with
  | word word =>
    rcases ofWord_eq word with ⟨k, same, -⟩ | same
    · cases same.symm.trans ended
    · cases same.symm.trans ended
  | mark => cases ended
  | integer => cases ended
  | string => cases ended
  | unterminatedString => cases ended
  | unterminatedComment => cases ended
  | unexpectedCharacter => cases ended

theorem value_ofWord (word : String) : (Lexeme.ofWord word).value = word := by
  rcases ofWord_eq word with ⟨k, same, spelled⟩ | same
  · rw [same, spelled]
    rfl
  · rw [same]
    rfl

theorem newline_not_mem_value (h : Piece lexeme slice rest) : '\n' ∉ lexeme.value.toList := by
  intro mem
  have byte {text : String} (mem : '\n' ∈ text.toList) : '\n'.toUInt8 ∈ utf8 text.toList :=
    (mem_utf8_iff (by decide)).mpr mem
  cases h with
  | mark m =>
    have apart : ∀ n : Mark, n.char ≠ '\n' := by
      intro n
      cases n <;> decide
    have single : (Lexeme.mark m).value.toList = [m.char] := String.toList_singleton _
    rw [single, List.mem_singleton] at mem
    exact apart m mem.symm
  | integer _ _ inside => exact absurd (inside _ (byte mem)) (by decide)
  | word word _ inside =>
    rw [value_ofWord] at mem
    exact absurd (inside _ (byte mem)) (by decide)
  | string _ _ inside => exact (inside _ (byte mem)).2 rfl
  | unterminatedString => exact absurd mem (by decide)
  | unterminatedComment => exact absurd mem (by decide)
  | unexpectedCharacter => exact absurd mem (by decide)

/-- What the first byte of a slice tells about its lexeme. -/
inductive Form where
  | mark
  | digits
  | word
  | quoted
  | other
  deriving DecidableEq

def Form.ofByte (b : UInt8) : Form :=
  if onByte (fun c => (Mark.ofChar? c).isSome) b then .mark
  else if onByte Char.isDigit b then .digits
  else if onByte isWordStart b then .word
  else if b = quote then .quoted
  else .other

def Form.ofLexeme : Lexeme → Form
  | .keyword _ => .word
  | .identifier _ => .word
  | .mark _ => .mark
  | .integer _ => .digits
  | .string _ => .quoted
  | .fault .unterminatedString => .quoted
  | .fault .unterminatedComment => .mark
  | .fault _ => .other
  | .endOfInput => .other

theorem Form.ofLexeme_ofWord (word : String) : Form.ofLexeme (.ofWord word) = .word := by
  rcases ofWord_eq word with ⟨k, same, -⟩ | same
  · rw [same]
    rfl
  · rw [same]
    rfl

section
variable {b : UInt8}

theorem not_onByte {p q : Char → Bool} (apart : ∀ c, p c → q c = false) (h : onByte p b) :
    onByte q b = false := by
  rw [onByte, Bool.and_eq_true] at h
  rw [onByte, apart _ h.2, Bool.and_false]

theorem isSome_ofChar?_eq_false {p : Char → Bool} (marks : ∀ m : Mark, p m.char = false) {c : Char}
    (h : p c) : (Mark.ofChar? c).isSome = false := by
  cases found : Mark.ofChar? c with
  | none => rfl
  | some m =>
    rw [Mark.ofChar?_eq_some_iff.mp found, marks m] at h
    cases h

theorem Form.ofByte_mark (m : Mark) : Form.ofByte m.char.toUInt8 = .mark := by
  cases m <;> rfl

theorem Form.ofByte_digit (h : onByte Char.isDigit b) : Form.ofByte b = .digits := by
  have mark : onByte (fun c => (Mark.ofChar? c).isSome) b = false :=
    not_onByte (fun _ => isSome_ofChar?_eq_false (fun m => by cases m <;> rfl)) h
  simp [Form.ofByte, mark, h]

theorem isDigit_eq_false {c : Char} (h : isWordStart c) : c.isDigit = false := by
  rw [isWordStart, Bool.or_eq_true, beq_iff_eq] at h
  cases h with
  | inl letter =>
    have bounds := toNat_of_isAlpha letter
    simp [Char.isDigit, UInt32.le_iff_toNat_le]
    omega
  | inr underscore =>
    rw [underscore]
    rfl

theorem Form.ofByte_word (h : onByte isWordStart b) : Form.ofByte b = .word := by
  have mark : onByte (fun c => (Mark.ofChar? c).isSome) b = false :=
    not_onByte (fun _ => isSome_ofChar?_eq_false (fun m => by cases m <;> rfl)) h
  have digit : onByte Char.isDigit b = false := not_onByte (fun _ => isDigit_eq_false) h
  simp [Form.ofByte, mark, digit, h]

theorem onByte_startsLexeme (b : UInt8) : onByte startsLexeme b =
    (onByte (fun c => (Mark.ofChar? c).isSome) b || onByte (· == '"') b ||
      onByte Char.isDigit b || onByte isWordStart b) := by
  simp only [onByte, startsLexeme]
  cases decide (b < 128) <;> rfl

theorem Form.ofByte_other (h : ¬ onByte startsLexeme b) : Form.ofByte b = .other := by
  simp only [onByte_startsLexeme, Bool.or_eq_true, not_or, Bool.not_eq_true] at h
  have apart : b ≠ quote := by
    intro same
    rw [same] at h
    exact absurd h.1.1.2 (by decide)
  simp [Form.ofByte, h, apart]

end

theorem form_eq (h : Piece lexeme slice rest) :
    ∃ b ∈ slice.head?, Form.ofByte b = Form.ofLexeme lexeme := by
  cases h with
  | mark m => exact ⟨_, rfl, Form.ofByte_mark m⟩
  | integer digits first inside =>
    cases bytes : utf8 digits.toList with
    | nil => exact absurd bytes first
    | cons b tail => exact ⟨b, rfl, Form.ofByte_digit (inside b (bytes ▸ List.mem_cons_self))⟩
  | word word first =>
    obtain ⟨b, here, start⟩ := first
    exact ⟨b, here, (Form.ofByte_word start).trans (Form.ofLexeme_ofWord word).symm⟩
  | string => exact ⟨_, rfl, rfl⟩
  | unterminatedString => exact ⟨_, rfl, rfl⟩
  | unterminatedComment => exact ⟨_, rfl, rfl⟩
  | unexpectedCharacter _ _ other => exact ⟨_, rfl, Form.ofByte_other other⟩

theorem word_inj {word word' : String} (same : utf8 word.toList = utf8 word'.toList) :
    word = word' := by
  rw [← utf8_toList, ← utf8_toList] at same
  exact String.toByteArray_inj.mp (ByteArray.ext (Array.ext' same))

theorem quoted_inj {body body' : Bytes}
    (inside : ∀ b ∈ body, b ≠ quote ∧ b ≠ '\n'.toUInt8)
    (ended : ∀ b ∈ rest.head?, b = quote ∨ b = '\n'.toUInt8)
    (inside' : ∀ b ∈ body', b ≠ quote ∧ b ≠ '\n'.toUInt8)
    (ended' : ∀ b ∈ rest'.head?, b = quote ∨ b = '\n'.toUInt8)
    (same : body ++ rest = body' ++ rest') : body = body' ∧ rest = rest' :=
  append_inj_of_stop inside (fun b hb apart => (ended b hb).elim apart.1 apart.2) inside'
    (fun b hb apart => (ended' b hb).elim apart.1 apart.2) same

theorem head_quote (rest : Bytes) : ∀ b ∈ (quote :: rest).head?, b = quote ∨ b = '\n'.toUInt8 := by
  intro b hb
  exact .inl (Option.some.inj hb).symm

theorem not_quoted_apart {body body' : Bytes}
    (inside : ∀ b ∈ body, b ≠ quote ∧ b ≠ '\n'.toUInt8)
    (inside' : ∀ b ∈ body', b ≠ quote ∧ b ≠ '\n'.toUInt8) (ended' : AtLineEnd rest')
    (same : body ++ quote :: rest = body' ++ rest') : False := by
  have run := quoted_inj inside (head_quote rest) inside' (fun b hb => .inr (ended' b hb)) same
  rw [← run.2] at ended'
  exact absurd (ended' quote rfl) (by decide)

theorem mark_inj {m m' : Mark} (same : m.char.toUInt8 = m'.char.toUInt8) : m = m' := by
  have char : m.char = m'.char := (toUInt8_inj m.toNat_char_lt m'.toNat_char_lt).mp same
  exact Option.some.inj ((Mark.ofChar?_eq_some_iff.mpr char).symm.trans
    (Mark.ofChar?_eq_some_iff.mpr rfl)).symm

theorem not_slash_comment {m : Mark} {body : Bytes}
    (alone : m = .slash → ∀ b ∈ rest.head?, b ∉ utf8 ['/', '*'])
    (same : m.char.toUInt8 :: rest = '/'.toUInt8 :: '*'.toUInt8 :: body) : False := by
  rw [List.cons.injEq] at same
  have slash : m = .slash := mark_inj same.1
  refine alone slash '*'.toUInt8 ?_ (by decide)
  rw [same.2]
  rfl

/-- Lexemes whose slices begin alike and are of one form are the same. -/
theorem unique_of_form (h : Piece lexeme slice rest) (h' : Piece lexeme' slice' rest')
    (same : slice ++ rest = slice' ++ rest')
    (form : Form.ofLexeme lexeme = Form.ofLexeme lexeme') : lexeme = lexeme' ∧ slice = slice' := by
  cases h with
  | mark m alone =>
    cases h' with
    | mark m' =>
      rw [List.singleton_append, List.singleton_append, List.cons.injEq] at same
      rw [mark_inj same.1]
      exact ⟨rfl, rfl⟩
    | unterminatedComment => exact (not_slash_comment alone (by simpa using same)).elim
    | integer | string | unterminatedString | unexpectedCharacter => cases form
    | word => cases form.trans (Form.ofLexeme_ofWord _)
  | integer digits _ inside ended =>
    cases h' with
    | integer digits' _ inside' ended' =>
      have run := append_inj_of_stop inside ended inside' ended' same
      rw [word_inj run.1]
      exact ⟨rfl, rfl⟩
    | mark | string | unterminatedString | unterminatedComment | unexpectedCharacter => cases form
    | word => cases form.trans (Form.ofLexeme_ofWord _)
  | word word _ inside ended =>
    rw [Form.ofLexeme_ofWord] at form
    cases h' with
    | word word' _ inside' ended' =>
      have run := append_inj_of_stop inside ended inside' ended' same
      rw [word_inj run.1]
      exact ⟨rfl, rfl⟩
    | mark | integer | string | unterminatedString | unterminatedComment =>
      cases form
    | unexpectedCharacter => cases form
  | string content _ inside =>
    cases h' with
    | string content' _ inside' =>
      have run := quoted_inj inside (head_quote _) inside' (head_quote _) (by simpa using same)
      rw [word_inj run.1]
      exact ⟨rfl, rfl⟩
    | unterminatedString inside' ended' =>
      exact (not_quoted_apart inside inside' ended' (by simpa using same)).elim
    | mark | integer | unterminatedComment | unexpectedCharacter => cases form
    | word => cases form.trans (Form.ofLexeme_ofWord _)
  | unterminatedString inside ended =>
    cases h' with
    | string content' _ inside' =>
      exact (not_quoted_apart inside' inside ended (by simpa using same.symm)).elim
    | unterminatedString inside' ended' =>
      have run := quoted_inj inside (fun b hb => .inr (ended b hb)) inside'
        (fun b hb => .inr (ended' b hb)) (by simpa using same)
      rw [run.1]
      exact ⟨rfl, rfl⟩
    | mark | integer | unterminatedComment | unexpectedCharacter => cases form
    | word => cases form.trans (Form.ofLexeme_ofWord _)
  | unterminatedComment endless =>
    cases h' with
    | mark m alone => exact (not_slash_comment alone (by simpa using same.symm)).elim
    | unterminatedComment endless' =>
      rw [List.append_nil, List.append_nil] at same
      rw [same]
      exact ⟨rfl, rfl⟩
    | integer | string | unterminatedString | unexpectedCharacter => cases form
    | word => cases form.trans (Form.ofLexeme_ofWord _)
  | unexpectedCharacter =>
    cases h' with
    | unexpectedCharacter =>
      rw [List.singleton_append, List.singleton_append, List.cons.injEq] at same
      rw [same.1]
      exact ⟨rfl, rfl⟩
    | mark | integer | string | unterminatedString | unterminatedComment => cases form
    | word => cases form.trans (Form.ofLexeme_ofWord _)

theorem unique (h : Piece lexeme slice rest) (h' : Piece lexeme' slice' rest')
    (same : slice ++ rest = slice' ++ rest') : lexeme = lexeme' ∧ slice = slice' := by
  apply h.unique_of_form h' same
  obtain ⟨b, here, form⟩ := h.form_eq
  obtain ⟨b', here', form'⟩ := h'.form_eq
  have first : b = b' := by
    have : (slice ++ rest).head? = (slice' ++ rest').head? := by rw [same]
    rw [List.head?_append, List.head?_append, here, here'] at this
    exact Option.some.inj this
  rw [← form, ← form', first]

end Piece

/-! ## What is read where no trivia stands -/

/-- The bytes in front of a place inside or between characters: those of the last character that
are still to be reported, then the characters that are left. -/
def Ahead (stray : Nat) (rest : List Char) (bytes : Bytes) : Prop :=
  ∃ tail, bytes = tail ++ utf8 rest ∧ tail.length = stray ∧ ∀ b ∈ tail, 128 ≤ b

theorem Ahead.length_eq {stray : Nat} {rest : List Char} {bytes : Bytes}
    (h : Ahead stray rest bytes) : bytes.length = stray + byteLength rest := by
  obtain ⟨tail, text, length, -⟩ := h
  rw [text, List.length_append, length, length_utf8]

theorem Ahead.utf8 (rest : List Char) : Ahead 0 rest (utf8 rest) :=
  ⟨[], rfl, rfl, by simp⟩

section
variable {p : Char → Bool} {c : Char} {cs : List Char} {b : UInt8}

theorem onByte_of_mem (hb : b ∈ String.utf8EncodeChar c) :
    onByte p b = (decide (c.toNat < 128) && p c) := by
  by_cases small : c.toNat < 128
  · rw [utf8EncodeChar_of_lt small, List.mem_singleton] at hb
    rw [hb, onByte_toUInt8 small]
    simp [small]
  · rw [onByte_of_le (le_of_mem_utf8EncodeChar (Nat.le_of_not_lt small) b hb)]
    simp [small]

theorem onByte_takeWhile (ascii : ∀ c, p c → c.toNat < 128) (hb : b ∈ utf8 (cs.takeWhile p)) :
    onByte p b := by
  rw [utf8, List.mem_flatMap] at hb
  obtain ⟨c, hc, hb⟩ := hb
  have holds : p c := List.all_eq_true.mp List.all_takeWhile c hc
  rw [onByte_of_mem hb]
  simp [holds, ascii c holds]

theorem mem_of_mem_head?_utf8 (hb : b ∈ (utf8 (c :: cs)).head?) : b ∈ String.utf8EncodeChar c := by
  cases bytes : String.utf8EncodeChar c with
  | nil => exact absurd bytes String.utf8EncodeChar_ne_nil
  | cons first tail =>
    rw [utf8_cons, bytes] at hb
    rw [← Option.some.inj hb]
    exact List.mem_cons_self

theorem not_onByte_dropWhile (hb : b ∈ (utf8 (cs.dropWhile p)).head?) : ¬ onByte p b := by
  have stop := List.head?_dropWhile_not p cs
  cases left : cs.dropWhile p with
  | nil =>
    rw [left] at hb
    cases hb
  | cons c ds =>
    rw [left] at hb stop
    rw [onByte_of_mem (mem_of_mem_head?_utf8 hb), show p c = false from stop]
    simp

theorem toNat_lt_of_isDigit (h : c.isDigit) : c.toNat < 128 := by
  simp only [Char.isDigit, Bool.and_eq_true, decide_eq_true_eq, UInt32.le_iff_toNat_le] at h
  exact Nat.lt_of_le_of_lt h.2 (by decide)

theorem toNat_lt_of_isWordPart (h : isWordPart c) : c.toNat < 128 := by
  simp only [isWordPart, isWordStart, Bool.or_eq_true, beq_iff_eq] at h
  rcases h with (letter | underscore) | digit
  · have bounds := toNat_of_isAlpha letter
    omega
  · rw [underscore]
    decide
  · exact toNat_lt_of_isDigit digit

theorem mem_of_mem_utf8 {ds : List Char} (ascii : ∀ d ∈ ds, d.toNat < 128)
    (hb : b ∈ String.utf8EncodeChar c) (hd : b ∈ utf8 ds) : c ∈ ds := by
  rw [utf8, List.mem_flatMap] at hd
  obtain ⟨d, mem, encoded⟩ := hd
  rw [utf8EncodeChar_of_lt (ascii d mem), List.mem_singleton] at encoded
  rw [encoded] at hb
  rw [(mem_utf8EncodeChar_iff (ascii d mem)).mp hb]
  exact mem

theorem utf8_takeWhile_append (p : Char → Bool) (cs : List Char) :
    utf8 cs = utf8 (cs.takeWhile p) ++ utf8 (cs.dropWhile p) := by
  rw [← utf8_append, List.takeWhile_append_dropWhile]

/-- Bytes from whose beginning a lexeme is read, and the place reading stops at. -/
def ReadsPiece (bytes : Bytes) (r : Reading) : Prop :=
  ∃ slice rest, bytes = slice ++ rest ∧ Piece r.lexeme slice rest ∧ Ahead r.stray r.rest rest

theorem ReadsPiece.mark {m : Mark} (plain : BeginsPlain (m.char :: cs)) :
    ReadsPiece (utf8 (m.char :: cs)) { lexeme := .mark m, rest := cs } := by
  refine ⟨[m.char.toUInt8], utf8 cs, ?_, .mark m ?_, .utf8 cs⟩
  · rw [← Piece.utf8_mark m]
    exact utf8_append [m.char] cs
  · intro slash b hb comment
    subst slash
    cases cs with
    | nil => cases hb
    | cons d ds =>
      have next := mem_of_mem_utf8 (by simp) (mem_of_mem_head?_utf8 hb) comment
      rw [List.mem_cons, List.mem_singleton] at next
      rcases next with next | next
      · exact plain.lineComment ds (by rw [next]; rfl)
      · exact plain.blockComment ds (by rw [next]; rfl)

theorem ReadsPiece.integer (digit : c.isDigit) : ReadsPiece (utf8 (c :: cs))
    { lexeme := .integer (String.ofList (c :: cs.takeWhile Char.isDigit))
      rest := cs.dropWhile Char.isDigit } := by
  rw [← List.takeWhile_cons_of_pos digit, ← List.dropWhile_cons_of_pos digit]
  refine ⟨_, _, utf8_takeWhile_append Char.isDigit (c :: cs), ?_, .utf8 _⟩
  have piece := @Piece.integer (String.ofList ((c :: cs).takeWhile Char.isDigit))
    (utf8 ((c :: cs).dropWhile Char.isDigit))
  rw [String.toList_ofList] at piece
  refine piece ?_ (fun b => onByte_takeWhile (fun _ => toNat_lt_of_isDigit))
    (fun b => not_onByte_dropWhile)
  rw [List.takeWhile_cons_of_pos digit, utf8_cons]
  exact fun empty => String.utf8EncodeChar_ne_nil (List.append_eq_nil_iff.mp empty).1

theorem ReadsPiece.word (start : isWordStart c) : ReadsPiece (utf8 (c :: cs))
    { lexeme := .ofWord (String.ofList (c :: cs.takeWhile isWordPart))
      rest := cs.dropWhile isWordPart } := by
  have part : isWordPart c := by simp [isWordPart, start]
  rw [← List.takeWhile_cons_of_pos part, ← List.dropWhile_cons_of_pos part]
  refine ⟨_, _, utf8_takeWhile_append isWordPart (c :: cs), ?_, .utf8 _⟩
  have piece := @Piece.word (String.ofList ((c :: cs).takeWhile isWordPart))
    (utf8 ((c :: cs).dropWhile isWordPart))
  rw [String.toList_ofList] at piece
  refine piece ?_ (fun b => onByte_takeWhile (fun _ => toNat_lt_of_isWordPart))
    (fun b => not_onByte_dropWhile)
  refine ⟨c.toUInt8, ?_, ?_⟩
  · rw [List.takeWhile_cons_of_pos part, utf8_cons,
      utf8EncodeChar_of_lt (toNat_lt_of_isWordPart part)]
    rfl
  · rw [onByte_toUInt8 (toNat_lt_of_isWordPart part)]
    exact start

theorem mem_quoted (hb : b ∈ utf8 (cs.takeWhile isStringPart)) : b ≠ quote ∧ b ≠ '\n'.toUInt8 := by
  have apart (d : Char) (ascii : d.toNat < 128) (excluded : isStringPart d = false) :
      b ≠ d.toUInt8 := by
    intro same
    rw [same, mem_utf8_iff ascii] at hb
    have part := List.all_eq_true.mp List.all_takeWhile d hb
    rw [excluded] at part
    cases part
  exact ⟨apart '"' (by decide) rfl, apart '\n' (by decide) rfl⟩

theorem readString_reads (cs : List Char) : ReadsPiece (utf8 ('"' :: cs)) (readString cs) := by
  have text : utf8 ('"' :: cs) =
      quote :: (utf8 (cs.takeWhile isStringPart) ++ utf8 (cs.dropWhile isStringPart)) := by
    rw [← utf8_takeWhile_append]
    rfl
  rw [text, readString]
  split
  · next rest left =>
    rw [left]
    refine ⟨quote :: (utf8 (cs.takeWhile isStringPart) ++ [quote]), utf8 rest, ?_, ?_, .utf8 rest⟩
    · rw [List.cons_append, List.append_assoc]
      rfl
    · have piece := Piece.string (String.ofList (cs.takeWhile isStringPart)) (utf8 rest)
      rw [String.toList_ofList] at piece
      exact piece fun b => mem_quoted
  · next open_ =>
    refine ⟨_ :: _, _, rfl, .unterminatedString (fun b => mem_quoted) ?_, .utf8 _⟩
    intro b hb
    have stop := List.head?_dropWhile_not isStringPart cs
    cases left : cs.dropWhile isStringPart with
    | nil =>
      rw [left] at hb
      cases hb
    | cons c ds =>
      rw [left] at hb stop
      have stop : c = '"' ∨ c = '\n' := by
        have : isStringPart c = false := stop
        rw [isStringPart, Bool.and_eq_false_iff, bne_eq_false_iff_eq, bne_eq_false_iff_eq] at this
        exact this
      have line : c = '\n' := by
        refine stop.resolve_left fun quoted => ?_
        rw [quoted] at left
        exact open_ ds left
      rw [line] at hb
      exact (Option.some.inj hb).symm

theorem ReadsPiece.unexpected (plain : BeginsPlain (c :: cs)) (other : startsLexeme c = false) :
    ReadsPiece (utf8 (c :: cs))
      { lexeme := .fault .unexpectedCharacter, rest := cs, stray := c.utf8Size - 1 } := by
  cases bytes : String.utf8EncodeChar c with
  | nil => exact absurd bytes String.utf8EncodeChar_ne_nil
  | cons b tail =>
    have mem : b ∈ String.utf8EncodeChar c := bytes ▸ List.mem_cons_self
    refine ⟨[b], tail ++ utf8 cs, ?_, .unexpectedCharacter _ ?_ ?_, tail, rfl, ?_, ?_⟩
    · rw [utf8_cons, bytes]
      rfl
    · intro blank
      exact plain.blank c cs rfl (mem_of_mem_utf8 (fun _ => toNat_lt_of_blank) mem blank)
    · rw [onByte_of_mem mem, other]
      simp
    · rw [← String.length_utf8EncodeChar, bytes]
      rfl
    · intro a ha
      by_cases small : c.toNat < 128
      · rw [utf8EncodeChar_of_lt small, List.cons.injEq] at bytes
        rw [← bytes.2] at ha
        cases ha
      · exact le_of_mem_utf8EncodeChar (Nat.le_of_not_lt small) a
          (bytes ▸ List.mem_cons_of_mem _ ha)

/-- Where no trivia stands, what is read is the lexeme whose slice begins there. -/
theorem readLexeme_reads (plain : BeginsPlain cs) (left : cs ≠ []) :
    ReadsPiece (utf8 cs) (readLexeme cs) := by
  cases cs with
  | nil => exact absurd rfl left
  | cons c cs =>
    rw [readLexeme]
    cases found : Mark.ofChar? c with
    | some m =>
      have char := Mark.ofChar?_eq_some_iff.mp found
      subst char
      exact .mark plain
    | none =>
      show ReadsPiece _ (if _ then _ else _)
      by_cases quoted : c = '"'
      · rw [if_pos quoted, quoted]
        exact readString_reads cs
      rw [if_neg quoted]
      by_cases digit : c.isDigit
      · rw [if_pos digit]
        exact .integer digit
      rw [if_neg digit]
      by_cases word : isWordStart c
      · rw [if_pos word]
        exact .word word
      rw [if_neg word]
      exact .unexpected plain (by simp [startsLexeme, found, quoted, digit, word])

end

end JackVm

import JackVm.Proofs.Token.Reading

/-!
# Words

A word that stands whole in front of a cursor is read as one token. The token is a keyword if the
word is spelled as the keyword is, letter for letter, and an identifier if there is none. So no
beginning or continuation of a keyword is taken for it.
-/

namespace JackVm

section
variable {p : Char → Bool} {c : Char} {cs : List Char}

theorem onByte_head_utf8 :
    (∃ b ∈ (utf8 cs).head?, onByte p b) ↔ ∃ c ∈ cs.head?, c.toNat < 128 ∧ p c := by
  cases cs with
  | nil => simp
  | cons c cs =>
    constructor
    · intro h
      obtain ⟨b, here, holds⟩ := h
      rw [onByte_of_mem (mem_of_mem_head?_utf8 here)] at holds
      exact ⟨c, rfl, by simpa using holds⟩
    · intro h
      obtain ⟨d, here, small, holds⟩ := h
      cases here
      refine ⟨c.toUInt8, ?_, ?_⟩
      · rw [utf8_cons, utf8EncodeChar_of_lt small]
        rfl
      · rw [onByte_toUInt8 small]
        exact holds

theorem forall_onByte_utf8 :
    (∀ b ∈ utf8 cs, onByte p b) ↔ ∀ c ∈ cs, c.toNat < 128 ∧ p c := by
  induction cs with
  | nil => simp
  | cons c cs ih =>
    rw [utf8_cons, List.forall_mem_append, ih, List.forall_mem_cons]
    apply and_congr_left
    intro _
    constructor
    · intro h
      obtain ⟨b, mem⟩ := List.exists_mem_of_ne_nil _ (String.utf8EncodeChar_ne_nil (c := c))
      have holds := h b mem
      rw [onByte_of_mem mem] at holds
      simpa using holds
    · intro h b mem
      rw [onByte_of_mem mem]
      simpa using h

theorem isWordPart_of_isWordStart (h : isWordStart c) : isWordPart c := by
  rw [isWordPart, h, Bool.true_or]

end

/-- A letter or underscore with letters, digits and underscores behind it. -/
structure FormsWord (word : String) : Prop where
  first : ∃ c ∈ word.toList.head?, isWordStart c
  inside : ∀ c ∈ word.toList, isWordPart c

/-- Whether a word stands in front of a cursor, behind trivia only, and is no part of a longer
one. -/
def Cursor.Faces (c : Cursor) (word : String) : Prop :=
  ∃ run rest, Ahead c.stray c.rest (run ++ utf8 word.toList ++ rest) ∧
    TriviaRun run (utf8 word.toList ++ rest) ∧ FormsWord word ∧
    ∀ b ∈ rest.head?, ¬ onByte isWordPart b

theorem FormsWord.piece {word : String} {rest : Bytes} (h : FormsWord word)
    (ended : ∀ b ∈ rest.head?, ¬ onByte isWordPart b) :
    Piece (.ofWord word) (utf8 word.toList) rest := by
  apply Piece.word word _ _ ended
  · obtain ⟨c, here, start⟩ := h.first
    have small := toNat_lt_of_isWordPart (isWordPart_of_isWordStart start)
    exact onByte_head_utf8.mpr ⟨c, here, small, start⟩
  · apply forall_onByte_utf8.mpr
    intro c mem
    exact ⟨toNat_lt_of_isWordPart (h.inside c mem), h.inside c mem⟩

theorem Piece.formsWord {lexeme : Lexeme} {slice rest : Bytes} (h : Piece lexeme slice rest)
    (form : Form.ofLexeme lexeme = .word) :
    FormsWord lexeme.text ∧ slice = utf8 lexeme.text.toList ∧
      ∀ b ∈ rest.head?, ¬ onByte isWordPart b := by
  cases h with
  | word word first inside ended =>
    rw [text_ofWord]
    refine ⟨⟨?_, ?_⟩, rfl, ended⟩
    · obtain ⟨c, here, _, start⟩ := onByte_head_utf8.mp first
      exact ⟨c, here, start⟩
    · intro c mem
      exact (forall_onByte_utf8.mp inside c mem).2
  | mark | integer | string | unterminatedString | unterminatedComment => cases form
  | unexpectedCharacter => cases form

namespace Cursor
variable {c : Cursor} {word : String}

theorem lexeme_of_faces (h : c.Faces word) : c.next.1.lexeme = .ofWord word := by
  obtain ⟨run, rest, ahead, trivia, forms, ended⟩ := h
  exact (next_eq_of_piece ahead trivia (forms.piece ended)).1

theorem faces_text (h : Piece.Form.ofLexeme c.next.1.lexeme = .word) :
    c.Faces c.next.1.text := by
  obtain ⟨bytes, ahead⟩ := exists_ahead c
  cases next_cases ahead with
  | inl atEnd =>
    rw [atEnd.2.1] at h
    cases h
  | inr token =>
    obtain ⟨run, slice, rest, text, takes⟩ := token
    obtain ⟨forms, same, ended⟩ := takes.piece.formsWord h
    have trivia := takes.trivia.isRun
    rw [text, same] at ahead
    rw [same] at trivia
    exact ⟨run, rest, ahead, trivia, forms, ended⟩

end Cursor

theorem kind_ofWord_eq_keyword_iff {word : String} {k : Keyword} :
    (Lexeme.ofWord word).kind = .keyword k ↔ word = k.spelling := by
  rw [← Keyword.ofWord?_eq_some_iff, Lexeme.ofWord]
  cases Keyword.ofWord? word with
  | none => simp [Lexeme.kind]
  | some l => simp [Lexeme.kind]

theorem kind_ofWord_eq_identifier_iff {word : String} :
    (Lexeme.ofWord word).kind = .identifier ↔ ∀ k : Keyword, word ≠ k.spelling := by
  have unspelled : (∀ k : Keyword, word ≠ k.spelling) ↔ Keyword.ofWord? word = none := by
    simp only [ne_eq, ← Keyword.ofWord?_eq_some_iff]
    exact Option.eq_none_iff_forall_ne_some.symm
  rw [unspelled, Lexeme.ofWord]
  cases Keyword.ofWord? word with
  | none => simp [Lexeme.kind]
  | some l => simp [Lexeme.kind]

theorem description_keyword_eq_iff {k : Keyword} {word : String} :
    (TokenKind.keyword k).description = "'" ++ word ++ "'" ↔ word = k.spelling := by
  show "'" ++ k.spelling ++ "'" = _ ↔ _
  rw [← String.toList_inj, ← String.toList_inj]
  simp [eq_comm]

theorem isKeyword_iff {kind : TokenKind} : kind.isKeyword ↔ ∃ k, kind = .keyword k := by
  cases kind <;> simp [TokenKind.isKeyword]

/-- Of the words of a text those are keywords that diagnostics quote as keywords, and the others are
identifiers. Nothing else is read as a keyword or an identifier. -/
theorem keyword_iff_spelled (source : String) (n : Nat) :
    (∀ word, ((Cursor.ofString source).after n).Faces word →
      ((Cursor.ofString source).after n).next.1.text = word ∧
      (∀ kind : TokenKind, kind.isKeyword →
        (((Cursor.ofString source).after n).next.1.kind = kind ↔
          kind.description = "'" ++ word ++ "'")) ∧
      (((Cursor.ofString source).after n).next.1.kind = .identifier ↔
        ∀ kind : TokenKind, kind.isKeyword → kind.description ≠ "'" ++ word ++ "'")) ∧
    (((Cursor.ofString source).after n).next.1.kind.isKeyword ∨
        ((Cursor.ofString source).after n).next.1.kind = .identifier →
      ((Cursor.ofString source).after n).Faces ((Cursor.ofString source).after n).next.1.text) := by
  generalize (Cursor.ofString source).after n = c
  constructor
  · intro word faces
    have lexeme := Cursor.lexeme_of_faces faces
    refine ⟨?_, ?_, ?_⟩
    · rw [Token.text, lexeme, Piece.text_ofWord]
    · intro kind keyword
      obtain ⟨k, rfl⟩ := isKeyword_iff.mp keyword
      rw [Token.kind, lexeme, kind_ofWord_eq_keyword_iff, description_keyword_eq_iff]
    · rw [Token.kind, lexeme, kind_ofWord_eq_identifier_iff]
      constructor
      · intro none kind keyword
        obtain ⟨k, rfl⟩ := isKeyword_iff.mp keyword
        rw [ne_eq, description_keyword_eq_iff]
        exact none k
      · intro none k spelled
        exact none (.keyword k) rfl (description_keyword_eq_iff.mpr spelled)
  · intro word
    apply Cursor.faces_text
    rw [Token.kind] at word
    cases lexeme : c.next.1.lexeme with
    | keyword | identifier => rfl
    | mark | integer | string | fault | endOfInput =>
      simp [lexeme, Lexeme.kind, TokenKind.isKeyword] at word

/-- A keyword is read behind a space, and a word that it begins is read in front of one. -/
theorem keyword_iff_spelled_extended :
    (Cursor.ofString "if_ if").Faces "if_" ∧
      (Cursor.ofString "if_ if").next.1.kind = .identifier ∧
      ((Cursor.ofString "if_ if").after 1).Faces "if" ∧
      ((Cursor.ofString "if_ if").after 1).next.1.kind = .keyword .if := by
  have longer : (Cursor.ofString "if_ if").Faces "if_" :=
    ⟨[], utf8 " if".toList, .utf8 _, .nil _, ⟨⟨'i', rfl, rfl⟩, List.all_eq_true.mp rfl⟩,
      by decide +kernel⟩
  have shorter : ((Cursor.ofString "if_ if").after 1).Faces "if" := by
    have behind : (Cursor.ofString "if_ if").after 1 = ⟨" if".toList, 1, 0⟩ := by decide +kernel
    rw [behind]
    have space : TriviaRun [32] (utf8 "if".toList) := .cons (.blank _ (by decide)) (.nil _)
    exact ⟨[32], [], .utf8 _, by simpa using space, ⟨⟨'i', rfl, rfl⟩, List.all_eq_true.mp rfl⟩,
      by simp⟩
  have identifier := ((keyword_iff_spelled "if_ if" 0).1 "if_" longer).2.2
  have keyword := ((keyword_iff_spelled "if_ if" 1).1 "if" shorter).2.1 (.keyword .if) rfl
  refine ⟨longer, identifier.mpr fun kind reserved => ?_, shorter, keyword.mpr rfl⟩
  obtain ⟨k, rfl⟩ := isKeyword_iff.mp reserved
  rw [ne_eq, description_keyword_eq_iff]
  cases k <;> decide

end JackVm

import JackVm.Proofs.Syntax.Identifier
import JackVm.Proofs.Token.Following
import JackVm.Proofs.Token.Word

/-!
# Tokens read in place

A scanner that follows a cursor reads the cursor's token and follows the cursor again. So whatever
it reads from the text, and wherever inside a character reading stops, no check of a scanner fails.
-/

namespace JackVm

section
variable {c d : Char} {b : UInt8}

theorem charOfByte_toUInt8 (h : c.toNat < 128) : charOfByte c.toUInt8 = c := by
  rw [charOfByte, toNat_toUInt8 h, Char.ofNat_toNat]

theorem Mark.ofByte?_toUInt8 (h : c.toNat < 128) : Mark.ofByte? c.toUInt8 = Mark.ofChar? c := by
  have same : (fun m : Mark => m.char.toUInt8 == c.toUInt8) = fun m => m.char == c := by
    funext m
    rw [Bool.eq_iff_iff, beq_iff_eq, beq_iff_eq, toUInt8_inj m.toNat_char_lt h]
  rw [ofByte?, same, ofChar?]

theorem Mark.ofByte?_of_le (h : 128 ≤ b) : Mark.ofByte? b = none := by
  apply List.find?_eq_none.mpr
  intro m _ same
  rw [← beq_iff_eq.mp same] at h
  exact UInt8.not_lt.mpr h (toUInt8_lt m.toNat_char_lt)

end

theorem Keyword.Leaf.toNat_lt_of_mem_rest {first second : Char} {l : Leaf}
    (found : leaf? first second = some l) : ∀ c ∈ l.rest.toList, c.toNat < 128 := by
  intro c mem
  apply toNat_lt_of_isWordPart
  apply isWord_spelling l.keyword c
  cases Leaf.spelling_eq found with
  | inl one =>
    rw [one.2]
    exact List.mem_cons_of_mem _ mem
  | inr two =>
    rw [two.2]
    exact List.mem_cons_of_mem _ (List.mem_cons_of_mem _ mem)

namespace Scanner
variable {s t : Scanner} {b : UInt8} {rest : Bytes} {source : String} {cs : List Char} {c : Char}
  {line : UInt32} {p : Char → Bool}

/-! ## What is read alike -/

/-- A scanner reads the token that a cursor reads, and follows the cursor. A token that is no fault
stands between its start and the place reached. -/
def ReadsAlike (source : String) (r : Option (ScannedToken × Scanner)) (token : Token)
    (c : Cursor) : Prop :=
  ∃ t, r = some (.ofToken token, t) ∧ t.Follows source c ∧
    (token.kind ≠ .fault → textBetween? source t.start t.current = some token.text)

/-- A text stands between the start of a scanner and the place it has reached. -/
def Covers (t : Scanner) (text : String) : Prop :=
  ∃ before after, t.source.toList = before ++ text.toList ++ after ∧
    t.start = byteLength before ∧ t.current = byteLength (before ++ text.toList)

theorem Covers.slice {text : String} (h : t.Covers text) :
    textBetween? t.source t.start t.current = some text := by
  obtain ⟨before, after, split, start, current⟩ := h
  rw [start, current]
  exact textBetween?_of_toList split

theorem Follows.covers {text : String} {rest : List Char}
    (h : s.Follows source ⟨text.toList ++ rest, line, 0⟩) (begins : s.start = s.current)
    (same : t.source = s.source) (start : t.start = s.start)
    (current : t.current = s.current + byteLength text.toList) : t.Covers text := by
  obtain ⟨before, split, place⟩ := h.place
  have place : s.current = byteLength before := place
  refine ⟨before, rest, ?_, ?_, ?_⟩
  · rw [same, h.source_eq, split]
    exact (List.append_assoc ..).symm
  · rw [start, begins, place]
  · rw [current, byteLength_append, place]

theorem readsAlike_token (lexeme : Lexeme) (h : t.Follows source ⟨cs, line, 0⟩)
    (covers : t.Covers lexeme.text) :
    ReadsAlike source (some (t.token lexeme.kind, t)) ⟨lexeme, line⟩ ⟨cs, line, 0⟩ := by
  have read : t.token lexeme.kind = .ofToken ⟨lexeme, line⟩ := by
    rw [token, covers.slice, h.line_eq]
    rfl
  rw [read]
  exact ⟨t, rfl, h, fun _ => h.source_eq ▸ covers.slice⟩

theorem readsAlike_fault {f : Fault} {k : Nat} (h : t.Follows source ⟨cs, line, k⟩) :
    ReadsAlike source (some (t.fault f, t)) ⟨.fault f, line⟩ ⟨cs, line, k⟩ := by
  refine ⟨t, ?_, h, fun sound => absurd rfl sound⟩
  rw [fault, h.line_eq]
  rfl

/-! ## Runs of characters -/

theorem onByte_peek {p : Char → Bool} (outside : onByte p 0 = false) (s : Scanner) :
    onByte p s.peek = s.ahead.head?.any (onByte p) := by
  rw [peek_eq]
  cases s.ahead with
  | nil => exact outside
  | cons b rest => rfl

theorem onByte_eq {p : Char → Bool} (ascii : ∀ c, p c → c.toNat < 128) (c : Char) :
    ∀ b ∈ String.utf8EncodeChar c, onByte p b = p c := by
  intro b mem
  rw [onByte_of_mem mem]
  by_cases holds : p c
  · simp [holds, ascii c holds]
  · simp [holds]

theorem Follows.readRun (ascii : ∀ c, p c → c.toNat < 128) (outside : onByte p 0 = false)
    (first : p c) (h : s.Follows source ⟨c :: cs, line, 0⟩) (begins : s.start = s.current) :
    ∃ t, (s.moved 1).moveWhile? (fun s => onByte p s.peek) = some t ∧
      t.Follows source ⟨cs.dropWhile p, line, 0⟩ ∧
      t.Covers (String.ofList (c :: cs.takeWhile p)) := by
  obtain ⟨moves, follows⟩ := (h.moved_one (ascii c first)).moveWhile? (onByte_peek outside)
    (onByte_eq ascii)
  refine ⟨_, moves, follows, ?_⟩
  rw [← List.takeWhile_append_dropWhile (p := p) (l := cs), ← List.cons_append] at h
  have text : (String.ofList (c :: cs.takeWhile p)).toList = c :: cs.takeWhile p :=
    String.toList_ofList
  refine Follows.covers (text.symm ▸ h) begins ?_ ?_ ?_
  · rfl
  · rfl
  · rw [text, ← List.singleton_append, byteLength_append, byteLength_singleton (ascii c first)]
    exact Nat.add_assoc ..

theorem readInteger?_alike (digit : c.isDigit) (h : s.Follows source ⟨c :: cs, line, 0⟩)
    (begins : s.start = s.current) :
    ReadsAlike source (s.moved 1).readInteger?
      ⟨.integer (String.ofList (c :: cs.takeWhile Char.isDigit)), line⟩
      ⟨cs.dropWhile Char.isDigit, line, 0⟩ := by
  have outside : onByte Char.isDigit 0 = false := by decide
  obtain ⟨t, moves, follows, covers⟩ :=
    h.readRun (p := Char.isDigit) (fun _ => toNat_lt_of_isDigit) outside digit begins
  rw [readInteger?, moves]
  exact readsAlike_token (.integer _) follows covers

theorem insideString_eq (s : Scanner) :
    insideString s = s.ahead.head?.any fun b => b != quote && b != newline :=
  peek_within (fun b => b != quote && b != newline) s

theorem isStringPart_byte (c : Char) :
    ∀ b ∈ String.utf8EncodeChar c, (b != quote && b != newline) = isStringPart c := by
  intro b mem
  have quoted : b = quote ↔ c = '"' := eq_toUInt8_iff (by decide) mem
  have line : b = newline ↔ c = '\n' := eq_toUInt8_iff (by decide) mem
  rw [isStringPart, Bool.eq_iff_iff]
  simp only [Bool.and_eq_true, bne_iff_ne, ne_eq, quoted, line]

theorem peek_eq_quote_iff (h : s.Follows source ⟨cs, line, 0⟩) :
    s.peek = quote ↔ ∃ rest, cs = '"' :: rest := by
  rw [peek_eq, h.ahead_eq]
  constructor
  · exact eq_cons_of_headD (by decide) (by decide)
  · intro starts
    obtain ⟨rest, text⟩ := starts
    rw [text]
    rfl

theorem readString_closed {rest : List Char} (left : cs.dropWhile isStringPart = '"' :: rest) :
    JackVm.readString cs =
      { lexeme := .string (String.ofList (cs.takeWhile isStringPart)), rest } := by
  rw [JackVm.readString, left]
  rfl

theorem readString_open (left : ∀ rest, cs.dropWhile isStringPart ≠ '"' :: rest) :
    JackVm.readString cs =
      { lexeme := .fault .unterminatedString, rest := cs.dropWhile isStringPart } := by
  rw [JackVm.readString]
  split
  · next rest here => exact absurd here (left rest)
  · rfl

theorem readString?_alike (h : s.Follows source ⟨'"' :: cs, line, 0⟩)
    (begins : s.start = s.current) :
    ReadsAlike source (s.moved 1).readString? ⟨(JackVm.readString cs).lexeme, line⟩
      ⟨(JackVm.readString cs).rest, line, (JackVm.readString cs).stray⟩ := by
  obtain ⟨moves, follows⟩ := (h.moved_one (by decide)).moveWhile? insideString_eq isStringPart_byte
  rw [readString?, moves, Option.bind_eq_bind, Option.bind_some]
  by_cases closed : ∃ rest, cs.dropWhile isStringPart = '"' :: rest
  · obtain ⟨rest, left⟩ := closed
    rw [left] at follows
    have stops := (peek_eq_quote_iff follows).mpr ⟨rest, rfl⟩
    have text : (Lexeme.string (String.ofList (cs.takeWhile isStringPart))).text.toList =
        ['"'] ++ (cs.takeWhile isStringPart ++ ['"']) := by
      show ("\"" ++ String.ofList (cs.takeWhile isStringPart) ++ "\"").toList = _
      simp
    have whole : '"' :: cs = ['"'] ++ (cs.takeWhile isStringPart ++ ['"']) ++ rest := by
      rw [List.append_assoc, List.append_assoc, List.singleton_append, List.singleton_append,
        ← left, List.takeWhile_append_dropWhile]
    rw [if_neg (not_not_intro stops), move?_one follows.ahead_eq, Option.bind_some,
      readString_closed left]
    rw [whole, ← text] at h
    apply readsAlike_token (.string _) (follows.moved_one (by decide))
    refine Follows.covers h begins ?_ ?_ ?_
    · rfl
    · rfl
    · rw [text, byteLength_append, byteLength_append]
      show s.current + 1 + _ + 1 = s.current + (1 + (_ + 1))
      omega
  · have stops : ¬ ((s.moved 1).moved (byteLength (cs.takeWhile isStringPart))).peek = quote :=
      fun quoted => closed ((peek_eq_quote_iff follows).mp quoted)
    rw [if_pos stops, readString_open fun rest left => closed ⟨rest, left⟩]
    exact readsAlike_fault follows

/-! ## Words -/

theorem Covers.getElem?_bytes {word : String} (h : s.Covers word)
    (ascii : ∀ c ∈ word.toList, c.toNat < 128) {n : Nat} (inside : n < word.toList.length) :
    s.bytes[s.start + n]? = some (word.toList[n].toUInt8) := by
  obtain ⟨before, after, split, start, -⟩ := h
  rw [bytes_eq rfl, split, start, ← length_utf8, List.append_assoc, utf8_append, utf8_append,
    List.getElem?_append_right (Nat.le_add_right ..), Nat.add_sub_cancel_left,
    utf8_of_ascii ascii, List.getElem?_append_left (by rwa [List.length_map]), List.getElem?_map,
    List.getElem?_eq_getElem inside]
  rfl

theorem leafKind?_eq {word : String} {l : Keyword.Leaf} (h : s.Covers word)
    (ascii : ∀ c ∈ word.toList, c.toNat < 128) (asciiRest : ∀ c ∈ l.rest.toList, c.toNat < 128) :
    s.leafKind? l =
      some (if l.accepts word.toList then .keyword l.keyword else .identifier) := by
  rw [leafKind?, h.slice, Option.bind_eq_bind, Option.bind_some]
  by_cases fits : word.toList.length = l.depth + l.rest.toList.length
  · have asciiDrop : ∀ c ∈ word.toList.take l.depth, c.toNat < 128 :=
      fun c mem => ascii c (List.mem_of_mem_take mem)
    have rest : textBetween? word l.depth word.utf8ByteSize =
        some (String.ofList (word.toList.drop l.depth)) := by
      have split : word.toList = word.toList.take l.depth ++
          (String.ofList (word.toList.drop l.depth)).toList ++ [] := by simp
      have between := textBetween?_of_toList split
      rw [byteLength_of_ascii asciiDrop, List.length_take, Nat.min_eq_left (by omega)] at between
      rw [utf8ByteSize_eq]
      simpa using between
    have size : word.utf8ByteSize = l.depth + l.rest.utf8ByteSize := by
      rw [utf8ByteSize_eq, utf8ByteSize_eq, byteLength_of_ascii ascii,
        byteLength_of_ascii asciiRest, fits]
    rw [if_pos size, rest, Option.bind_some]
    have same : String.ofList (word.toList.drop l.depth) = l.rest ↔ l.accepts word.toList := by
      rw [Keyword.Leaf.accepts_iff, ← String.toList_inj, String.toList_ofList]
      simp [fits]
    simp only [same]
    rfl
  · have size : word.utf8ByteSize ≠ l.depth + l.rest.utf8ByteSize := by
      rw [utf8ByteSize_eq, utf8ByteSize_eq, byteLength_of_ascii ascii,
        byteLength_of_ascii asciiRest]
      exact fits
    have refuses : ¬ l.accepts word.toList := by
      rw [Keyword.Leaf.accepts_iff]
      exact fun both => fits both.1
    rw [if_neg size, if_neg refuses]
    rfl

/-- The two characters that a word is looked up by, read from its bytes. -/
theorem Covers.first_second {word : String} {first : Char} {others : List Char}
    (h : s.Covers word) (ascii : ∀ c ∈ word.toList, c.toNat < 128)
    (letters : word.toList = first :: others) :
    s.bytes[s.start]? = some first.toUInt8 ∧
      s.secondByte? = some (others.headD '\x00').toUInt8 := by
  have length : s.current - s.start = word.toList.length := by
    obtain ⟨before, after, -, start, current⟩ := h
    rw [start, current, byteLength_append, Nat.add_sub_cancel_left, byteLength_of_ascii ascii]
  have read (n : Nat) (inside : n < word.toList.length) := h.getElem?_bytes ascii inside
  simp only [letters] at read length
  constructor
  · exact read 0 (Nat.succ_pos _)
  · rw [secondByte?, length]
    cases others with
    | nil => rfl
    | cons second others =>
      have two : 1 < (first :: second :: others).length := by simp
      rw [if_pos two]
      exact read 1 two

theorem wordKind?_eq {word : String} (h : s.Covers word)
    (ascii : ∀ c ∈ word.toList, c.toNat < 128) (nonempty : word.toList ≠ []) :
    s.wordKind? = some (Lexeme.ofWord word).kind := by
  cases letters : word.toList with
  | nil => exact absurd letters nonempty
  | cons first others =>
    obtain ⟨readFirst, readSecond⟩ := h.first_second ascii letters
    have small : first.toNat < 128 ∧ (others.headD '\x00').toNat < 128 := by
      rw [letters] at ascii
      refine ⟨ascii first List.mem_cons_self, ?_⟩
      cases others with
      | nil => decide
      | cons second others =>
        exact ascii second (List.mem_cons_of_mem first List.mem_cons_self)
    rw [wordKind?, readFirst, readSecond, Option.bind_eq_bind, Option.bind_some, Option.bind_some,
      charOfByte_toUInt8 small.1, charOfByte_toUInt8 small.2, Lexeme.ofWord, Keyword.ofWord?,
      letters]
    dsimp only
    cases found : Keyword.leaf? first (others.headD '\x00') with
    | none => rfl
    | some l =>
      show s.leafKind? l = _
      rw [leafKind?_eq h ascii (Keyword.Leaf.toNat_lt_of_mem_rest found), letters]
      dsimp only
      split <;> rfl

theorem readWord?_alike (start : isWordStart c) (h : s.Follows source ⟨c :: cs, line, 0⟩)
    (begins : s.start = s.current) :
    ReadsAlike source (s.moved 1).readWord?
      ⟨.ofWord (String.ofList (c :: cs.takeWhile isWordPart)), line⟩
      ⟨cs.dropWhile isWordPart, line, 0⟩ := by
  have outside : onByte isWordPart 0 = false := by decide
  have part := isWordPart_of_isWordStart start
  obtain ⟨t, moves, follows, covers⟩ :=
    h.readRun (p := isWordPart) (fun _ => toNat_lt_of_isWordPart) outside part begins
  have kind := wordKind?_eq covers ?_ ?_
  · rw [readWord?, moves, Option.bind_eq_bind, Option.bind_some, kind]
    apply readsAlike_token (.ofWord _) follows
    rw [Piece.text_ofWord]
    exact covers
  · intro d mem
    rw [String.toList_ofList, ← List.takeWhile_cons_of_pos part] at mem
    exact toNat_lt_of_isWordPart (List.all_eq_true.mp List.all_takeWhile d mem)
  · rw [String.toList_ofList]
    exact List.cons_ne_nil _ _

/-! ## One token -/

theorem readFrom?_of_le (high : 128 ≤ b) (s : Scanner) :
    s.readFrom? b = some (s.fault .unexpectedCharacter, s) := by
  have notQuote : b ≠ quote := ne_toUInt8_of_le high (by decide)
  rw [readFrom?, Mark.ofByte?_of_le high]
  dsimp only
  rw [if_neg notQuote, onByte_of_le high, onByte_of_le high]
  rfl

theorem token_mark_alike {m : Mark} (char : c = m.char) (h : s.Follows source ⟨c :: cs, line, 0⟩)
    (begins : s.start = s.current) :
    ReadsAlike source (some ((s.moved 1).token (.mark m), s.moved 1)) ⟨.mark m, line⟩
      ⟨cs, line, 0⟩ := by
  have small : c.toNat < 128 := char ▸ m.toNat_char_lt
  have text : (Lexeme.mark m).text.toList = [c] := by
    rw [char]
    exact String.toList_singleton _
  have whole : s.Follows source ⟨(Lexeme.mark m).text.toList ++ cs, line, 0⟩ := text ▸ h
  apply readsAlike_token (.mark m) (h.moved_one small)
  refine whole.covers begins ?_ ?_ ?_
  · rfl
  · rfl
  · rw [text, byteLength_singleton small]
    rfl

theorem readFrom?_alike (small : c.toNat < 128) (h : s.Follows source ⟨c :: cs, line, 0⟩)
    (begins : s.start = s.current) :
    ReadsAlike source ((s.moved 1).readFrom? c.toUInt8) ⟨(readLexeme (c :: cs)).lexeme, line⟩
      ⟨(readLexeme (c :: cs)).rest, line, (readLexeme (c :: cs)).stray⟩ := by
  rw [readFrom?, readLexeme, Mark.ofByte?_toUInt8 small]
  cases found : Mark.ofChar? c with
  | some m =>
    exact token_mark_alike (Mark.ofChar?_eq_some_iff.mp found) h begins
  | none =>
    dsimp only
    by_cases quoted : c = '"'
    · subst quoted
      exact readString?_alike h begins
    have notQuote : c.toUInt8 ≠ quote := (toUInt8_inj small (by decide)).not.mpr quoted
    rw [if_neg quoted, if_neg notQuote, onByte_toUInt8 small, onByte_toUInt8 small]
    by_cases digit : c.isDigit
    · rw [if_pos digit, if_pos digit]
      exact readInteger?_alike digit h begins
    rw [if_neg digit, if_neg digit]
    by_cases word : isWordStart c
    · rw [if_pos word, if_pos word]
      exact readWord?_alike word h begins
    rw [if_neg word, if_neg word]
    have size : c.utf8Size - 1 = 0 := by
      rw [← String.length_utf8EncodeChar, utf8EncodeChar_of_lt small]
      rfl
    rw [size]
    exact readsAlike_fault (h.moved_one small)

theorem Follows.begun {c : Cursor} (h : s.Follows source c) : s.begun.Follows source c :=
  ⟨h.source_eq, h.line_eq, h.ahead, h.place⟩

theorem readToken?_cons (h : s.ahead = b :: rest) : s.readToken? = (s.moved 1).readFrom? b := by
  rw [readToken?, if_neg (not_atEnd_of_cons h), advance?_eq h]
  rfl

theorem Follows.stray (h : s.Follows source ⟨c :: cs, line, 0⟩) (large : 128 ≤ c.toNat) :
    s.Follows source ⟨cs, line, c.utf8Size⟩ := by
  obtain ⟨passed, text, place⟩ := h.place
  have place : s.current = byteLength passed := place
  refine ⟨h.source_eq, h.line_eq, ?_, passed ++ [c], ?_, ?_⟩
  · rw [h.ahead_eq]
    exact ⟨String.utf8EncodeChar c, rfl, String.length_utf8EncodeChar c,
      le_of_mem_utf8EncodeChar large⟩
  · rw [text, List.append_assoc]
    rfl
  · rw [byteLength_append, place]
    rfl

theorem readToken?_stray {k : Nat} (h : s.Follows source ⟨cs, line, k + 1⟩) :
    ReadsAlike source s.readToken? ⟨.fault .unexpectedCharacter, line⟩ ⟨cs, line, k⟩ := by
  obtain ⟨tail, text, length, high⟩ := h.ahead
  obtain ⟨passed, split, place⟩ := h.place
  cases tail with
  | nil => cases length
  | cons b tail =>
    rw [readToken?_cons text, readFrom?_of_le (high b List.mem_cons_self)]
    apply readsAlike_fault
    have left : (s.moved 1).ahead = tail ++ utf8 cs := by
      rw [ahead_moved, text]
      rfl
    have place : (s.moved 1).current + k = byteLength passed := by
      rw [← place]
      exact Nat.add_right_comm ..
    have length : tail.length = k := Nat.succ.inj length
    have more : Ahead k cs (s.moved 1).ahead :=
      ⟨tail, left, length, fun a mem => high a (List.mem_cons_of_mem b mem)⟩
    exact ⟨h.source_eq, h.line_eq, more, passed, split, place⟩

theorem readLexeme_of_le (large : 128 ≤ c.toNat) (cs : List Char) : readLexeme (c :: cs) =
    { lexeme := .fault .unexpectedCharacter, rest := cs, stray := c.utf8Size - 1 } := by
  have noMark : Mark.ofChar? c = none := by
    apply Option.eq_none_iff_forall_ne_some.mpr
    intro m found
    rw [Mark.ofChar?_eq_some_iff.mp found] at large
    exact Nat.not_lt.mpr large m.toNat_char_lt
  have notQuote : c ≠ '"' := by
    intro same
    rw [same] at large
    exact absurd large (by decide)
  have notDigit : ¬ c.isDigit := fun digit => Nat.not_lt.mpr large (toNat_lt_of_isDigit digit)
  have notWord : ¬ isWordStart c := fun start =>
    Nat.not_lt.mpr large (toNat_lt_of_isWordPart (isWordPart_of_isWordStart start))
  rw [readLexeme, noMark]
  dsimp only
  rw [if_neg notQuote, if_neg notDigit, if_neg notWord]

theorem readToken?_alike (h : s.Follows source ⟨cs, line, 0⟩) (begins : s.start = s.current) :
    ReadsAlike source s.readToken? ⟨(readLexeme cs).lexeme, line⟩
      ⟨(readLexeme cs).rest, line, (readLexeme cs).stray⟩ := by
  cases cs with
  | nil =>
    rw [readToken?, if_pos (by rw [atEnd_eq, h.ahead_eq]; rfl)]
    have whole : s.Follows source ⟨Lexeme.endOfInput.text.toList ++ [], line, 0⟩ := h
    apply readsAlike_token .endOfInput h
    exact whole.covers begins rfl rfl rfl
  | cons c cs =>
    by_cases small : c.toNat < 128
    · rw [readToken?_cons (h.ahead_cons small)]
      exact readFrom?_alike small h begins
    · have large := Nat.le_of_not_lt small
      have several := h.stray large
      rw [← Nat.sub_add_cancel c.utf8Size_pos] at several
      rw [readLexeme_of_le large]
      exact readToken?_stray several

theorem skipTrivia?_of_le (h : s.ahead = b :: rest) (high : 128 ≤ b) :
    s.skipTrivia? = some (true, s) := by
  have blank : b ∉ utf8 [' ', '\r', '\t'] := by
    intro mem
    have all : ∀ a ∈ utf8 [' ', '\r', '\t'], a < 128 := by decide +kernel
    exact UInt8.not_lt.mpr high (all b mem)
  have line : b ≠ newline := ne_toUInt8_of_le high (by decide)
  have slash : b ≠ '/'.toUInt8 := ne_toUInt8_of_le high (by decide)
  rw [skipTrivia?_eq, skipPiece?, peek_of_cons h, if_neg blank, if_neg line,
    if_neg fun both => slash both.1, if_neg fun both => slash both.1]
  rfl

theorem Follows.next_stray {k : Nat} (h : s.Follows source ⟨cs, line, k + 1⟩) :
    ReadsAlike source s.next? ⟨.fault .unexpectedCharacter, line⟩ ⟨cs, line, k⟩ := by
  obtain ⟨tail, text, length, high⟩ := h.ahead
  cases tail with
  | nil => cases length
  | cons b tail =>
    rw [next?, skipTrivia?_of_le text (high b List.mem_cons_self)]
    exact readToken?_stray h.begun

theorem Follows.next {c : Cursor} (h : s.Follows source c) :
    ReadsAlike source s.next? c.next.1 c.next.2 := by
  obtain ⟨cs, line, stray⟩ := c
  cases stray with
  | succ k => exact h.next_stray
  | zero =>
    obtain ⟨t, skips, follows⟩ := h.skips .blank
    have skips : s.skipTrivia? = some (!(JackVm.skipTrivia .blank cs line).unclosed, t) := skips
    rw [next?, skips, Option.bind_eq_bind, Option.bind_some]
    cases closed : (JackVm.skipTrivia .blank cs line).unclosed with
    | true =>
      have next : Cursor.next ⟨cs, line, 0⟩ = (⟨.fault .unterminatedComment, _⟩, _) := if_pos closed
      rw [next]
      exact readsAlike_fault follows
    | false =>
      have next : Cursor.next ⟨cs, line, 0⟩ =
          (⟨(readLexeme (JackVm.skipTrivia .blank cs line).rest).lexeme, _⟩, _) :=
        if_neg (by rw [closed]; decide)
      rw [next]
      exact readToken?_alike follows.begun rfl

theorem Follows.after {c : Cursor} (h : s.Follows source c) (n : Nat) :
    ∃ t, s.after? n = some t ∧ t.Follows source (c.after n) := by
  induction n generalizing s c with
  | zero => exact ⟨s, rfl, h⟩
  | succ n ih =>
    obtain ⟨t, reads, follows, -⟩ := h.next
    obtain ⟨u, more, follows'⟩ := ih follows
    refine ⟨u, ?_, follows'⟩
    rw [after?, reads]
    exact more

theorem Follows.current_le {c : Cursor} (h : s.Follows source c) :
    s.current ≤ source.utf8ByteSize := by
  obtain ⟨passed, text, place⟩ := h.place
  rw [utf8ByteSize_eq, text, byteLength_append, ← place]
  omega

end Scanner

/-- Reading in place never leaves the text and never divides a character, after any number of tokens
and of bytes that were reported alone: there is a result each time, and it is the token that is read
by characters. Unless the token is a fault its text is the slice it was read from, and the quotes of
a string constant can be taken away. -/
theorem reading_stays_in_text (source : String) (n : Nat) :
    ∃ s token t, (Scanner.ofString source).after? n = some s ∧ s.next? = some (token, t) ∧
      s.current ≤ source.utf8ByteSize ∧ t.current ≤ source.utf8ByteSize ∧
      token = .ofToken ((Cursor.ofString source).after n).next.1 ∧
      (token.kind ≠ .fault → textBetween? source t.start t.current = some token.text) ∧
      token.value? = some ((Cursor.ofString source).after n).next.1.value := by
  obtain ⟨s, reads, follows⟩ := (Scanner.follows_ofString source).after n
  obtain ⟨t, read, follows', slice⟩ := follows.next
  exact ⟨s, _, t, reads, read, follows.current_le, follows'.current_le, rfl, slice,
    ScannedToken.value?_ofToken _⟩

end JackVm

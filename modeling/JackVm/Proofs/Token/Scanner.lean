import JackVm.Proofs.Token.LineNumber

/-!
# Reading in place

A scanner reads the tokens of a text where the text is stored. It knows its place by the number of
bytes in front, goes on by single bytes, and takes the text of a token from between two places.
Whatever can go wrong with that is checked: a byte behind the end cannot be read, no move leads
behind the end, and a slice must lie in the text and divide no character at either end. If a check
fails there is no result.
-/

namespace JackVm

/-- The text between two places of another text, each of which must be an end of the text or the
first byte of a character. -/
def textBetween? (source : String) (first last : Nat) : Option String :=
  if first ≤ last ∧ String.Pos.Raw.IsValid source ⟨first⟩ ∧
      String.Pos.Raw.IsValid source ⟨last⟩ then
    String.fromUTF8? (source.toUTF8.extract first last)
  else
    none

theorem textBetween?_append (before text after : String) :
    textBetween? (before ++ text ++ after) before.utf8ByteSize (before ++ text).utf8ByteSize =
      some text := by
  have first : String.Pos.Raw.IsValid (before ++ text ++ after) ⟨before.utf8ByteSize⟩ :=
    String.Pos.Raw.isValid_iff_exists_append.mpr
      ⟨before, text ++ after, String.append_assoc .., rfl⟩
  have last : String.Pos.Raw.IsValid (before ++ text ++ after) ⟨(before ++ text).utf8ByteSize⟩ :=
    String.Pos.Raw.isValid_iff_exists_append.mpr ⟨before ++ text, after, rfl, rfl⟩
  have ordered : before.utf8ByteSize ≤ (before ++ text).utf8ByteSize := by
    rw [String.utf8ByteSize_append]
    exact Nat.le_add_right ..
  have slice : (before ++ text ++ after).toUTF8.extract before.utf8ByteSize
      (before ++ text).utf8ByteSize = text.toUTF8 := by
    rw [String.utf8ByteSize_append, String.append_assoc, String.toUTF8_eq_toByteArray,
      String.toByteArray_append, String.toByteArray_append]
    show ByteArray.extract _ (before.toByteArray.size + 0)
      (before.toByteArray.size + text.toByteArray.size) = _
    rw [ByteArray.extract_append_size_add, ByteArray.extract_append_eq_left rfl,
      String.toUTF8_eq_toByteArray]
  rw [textBetween?, if_pos ⟨ordered, first, last⟩, slice, fromUTF8?_toUTF8]

theorem textBetween?_of_toList {source text : String} {before after : List Char}
    (h : source.toList = before ++ text.toList ++ after) :
    textBetween? source (byteLength before) (byteLength (before ++ text.toList)) = some text := by
  have split : source = String.ofList before ++ text ++ String.ofList after := by
    rw [← String.toList_inj, h]
    simp
  have between := textBetween?_append (String.ofList before) text (String.ofList after)
  simp only [utf8ByteSize_eq, String.toList_append, String.toList_ofList] at between
  rw [split]
  exact between

/-- A slice that divides a character cannot be taken, nor one that leaves the text. -/
example : textBetween? "né" 1 3 = some "é" ∧ textBetween? "né" 1 2 = none ∧
    textBetween? "né" 1 4 = none := by
  decide +kernel

structure ScannedToken where
  kind : TokenKind
  text : String
  line : UInt32
  deriving DecidableEq, Repr

namespace ScannedToken

def ofToken (t : Token) : ScannedToken :=
  ⟨t.kind, t.text, t.line⟩

/-- The text, that of a string constant without its first byte and its last. -/
def value? (t : ScannedToken) : Option String :=
  if t.kind = .string ∧ 2 ≤ t.text.utf8ByteSize then
    textBetween? t.text 1 (t.text.utf8ByteSize - 1)
  else
    some t.text

theorem value?_ofToken (t : Token) : (ofToken t).value? = some t.value := by
  obtain ⟨lexeme, line⟩ := t
  cases lexeme with
  | string content =>
    have size : ("\"" ++ content ++ "\"").utf8ByteSize = 1 + content.utf8ByteSize + 1 := by
      rw [String.utf8ByteSize_append, String.utf8ByteSize_append]
      rfl
    have between := textBetween?_append "\"" content "\""
    rw [String.utf8ByteSize_append] at between
    have quoted : 2 ≤ ("\"" ++ content ++ "\"").utf8ByteSize := by omega
    rw [value?, if_pos ⟨rfl, quoted⟩]
    show textBetween? ("\"" ++ content ++ "\"") 1 (("\"" ++ content ++ "\"").utf8ByteSize - 1) = _
    rw [size, Nat.add_sub_cancel]
    exact between
  | keyword | mark | identifier | integer | fault | endOfInput =>
    exact if_neg fun quoted => by cases quoted.1

end ScannedToken

def charOfByte (b : UInt8) : Char :=
  Char.ofNat b.toNat

def Mark.ofByte? (b : UInt8) : Option Mark :=
  Mark.all.find? fun m => m.char.toUInt8 == b

structure Scanner where
  source : String
  /-- Where the token begins that is being read. -/
  start : Nat := 0
  /-- The bytes that have been read. -/
  current : Nat := 0
  line : UInt32 := 1
  deriving DecidableEq, Repr

namespace Scanner

def ofString (source : String) : Scanner :=
  { source }

def bytes (s : Scanner) : Bytes :=
  s.source.toUTF8.data.toList

def peek (s : Scanner) : UInt8 :=
  s.bytes[s.current]?.getD 0

def peekSecond (s : Scanner) : UInt8 :=
  s.bytes[s.current + 1]?.getD 0

def atEnd (s : Scanner) : Bool :=
  s.bytes.length ≤ s.current

def moved (s : Scanner) (n : Nat) : Scanner :=
  { s with current := s.current + n }

def move? (s : Scanner) (n : Nat) : Option Scanner :=
  if s.current + n ≤ s.bytes.length then some (s.moved n) else none

def advance? (s : Scanner) : Option (UInt8 × Scanner) := do
  let t ← s.move? 1
  let b ← t.bytes[t.current - 1]?
  return (b, t)

/-- Places that moves lead to. -/
structure Onward (s t : Scanner) : Prop where
  source : t.source = s.source
  further : s.current < t.current
  inside : t.current ≤ t.bytes.length

theorem onward_of_move? {s t : Scanner} {n : Nat} (h : s.move? n = some t) (positive : 0 < n) :
    s.Onward t := by
  rw [move?] at h
  split at h
  · next room =>
    cases h
    exact ⟨rfl, Nat.lt_add_of_pos_right positive, room⟩
  · cases h

theorem Onward.trans {s t u : Scanner} (h : s.Onward t) (h' : t.Onward u) : s.Onward u :=
  ⟨h'.source.trans h.source, Nat.lt_trans h.further h'.further, h'.inside⟩

theorem Onward.lt {s t : Scanner} (h : s.Onward t) :
    t.bytes.length - t.current < s.bytes.length - s.current := by
  have same : t.bytes = s.bytes := by rw [bytes, bytes, h.source]
  have inside := h.inside
  have further := h.further
  rw [same] at inside ⊢
  omega

def moveWhile? (inside : Scanner → Bool) (s : Scanner) : Option Scanner :=
  if inside s then
    match _moves : s.move? 1 with
    | some t => moveWhile? inside t
    | none => none
  else
    some s
termination_by s.bytes.length - s.current
decreasing_by exact (onward_of_move? _moves Nat.one_pos).lt

inductive Skip where
  | further
  | done
  /-- A block comment that has begun does not end. -/
  | unclosed
  deriving DecidableEq, Repr

/-- Moves behind a block comment whose beginning has been read. -/
def closeComment? (s : Scanner) : Option (Skip × Scanner) :=
  if s.atEnd then
    some (.unclosed, s)
  else if s.peek = '*'.toUInt8 ∧ s.peekSecond = '/'.toUInt8 then
    (s.move? 2).map (.further, ·)
  else
    match _moves : s.move? 1 with
    | some t =>
      closeComment? { t with line := if s.peek = newline then s.line + 1 else s.line }
    | none => none
termination_by s.bytes.length - s.current
decreasing_by exact (onward_of_move? _moves Nat.one_pos).lt

def insideLine (s : Scanner) : Bool :=
  s.peek != newline && !s.atEnd

def skipPiece? (s : Scanner) : Option (Skip × Scanner) :=
  if s.peek ∈ utf8 [' ', '\r', '\t'] then
    (s.move? 1).map (.further, ·)
  else if s.peek = newline then
    (s.move? 1).map fun t => (.further, { t with line := t.line + 1 })
  else if s.peek = '/'.toUInt8 ∧ s.peekSecond = '/'.toUInt8 then
    (s.moveWhile? insideLine).map (.further, ·)
  else if s.peek = '/'.toUInt8 ∧ s.peekSecond = '*'.toUInt8 then
    (s.move? 2).bind closeComment?
  else
    some (.done, s)

section
variable {s t : Scanner}

theorem onward_of_moveWhile? {inside : Scanner → Bool} (h : s.moveWhile? inside = some t) :
    t = s ∧ inside s = false ∨ s.Onward t := by
  fun_induction moveWhile? inside s with
  | case1 s _ u moves ih =>
    have first := onward_of_move? moves Nat.one_pos
    cases ih h with
    | inl stays => exact .inr (stays.1 ▸ first)
    | inr more => exact .inr (first.trans more)
  | case2 => cases h
  | case3 s outside =>
    cases h
    exact .inl ⟨rfl, by simpa using outside⟩

theorem onward_of_closeComment? (h : s.closeComment? = some (.further, t)) : s.Onward t := by
  fun_induction closeComment? s with
  | case1 => cases h
  | case2 s _ _ =>
    obtain ⟨u, moves, same⟩ := Option.map_eq_some_iff.mp h
    cases same
    exact onward_of_move? moves Nat.two_pos
  | case3 s _ _ u moves ih =>
    have first := onward_of_move? moves Nat.one_pos
    have behind := ih h
    exact first.trans ⟨behind.source, behind.further, behind.inside⟩
  | case4 => cases h

theorem insideLine_of_peek {b : UInt8} (here : s.peek = b) (special : b ≠ 0 ∧ b ≠ newline) :
    s.insideLine := by
  have within : s.atEnd = false := by
    rw [atEnd, decide_eq_false_iff_not]
    intro ended
    rw [peek, List.getElem?_eq_none ended] at here
    exact special.1 here.symm
  rw [insideLine, within, here, Bool.and_eq_true, bne_iff_ne]
  exact ⟨special.2, rfl⟩

theorem onward_of_skipPiece? (h : s.skipPiece? = some (.further, t)) : s.Onward t := by
  unfold skipPiece? at h
  split at h
  · obtain ⟨u, moves, same⟩ := Option.map_eq_some_iff.mp h
    cases same
    exact onward_of_move? moves Nat.one_pos
  split at h
  · obtain ⟨u, moves, same⟩ := Option.map_eq_some_iff.mp h
    cases same
    have onward := onward_of_move? moves Nat.one_pos
    exact ⟨onward.source, onward.further, onward.inside⟩
  split at h
  · next begins =>
    obtain ⟨u, moves, same⟩ := Option.map_eq_some_iff.mp h
    cases same
    have inside := insideLine_of_peek begins.1 (by decide)
    cases onward_of_moveWhile? moves with
    | inl stays => exact absurd stays.2 (by simp [inside])
    | inr more => exact more
  split at h
  · obtain ⟨u, moves, closes⟩ := Option.bind_eq_some_iff.mp h
    exact (onward_of_move? moves Nat.two_pos).trans (onward_of_closeComment? closes)
  · cases h

end

/-- Skips white space and comments. Tells whether no comment is unclosed. -/
def skipTrivia? (s : Scanner) : Option (Bool × Scanner) :=
  match _skips : s.skipPiece? with
  | some (.further, t) => skipTrivia? t
  | some (.done, t) => some (true, t)
  | some (.unclosed, t) => some (false, t)
  | none => none
termination_by s.bytes.length - s.current
decreasing_by exact (onward_of_skipPiece? _skips).lt

/-- The token that stands between the start and the place reached. A slice that cannot be taken
leaves its text empty. -/
def token (s : Scanner) (kind : TokenKind) : ScannedToken :=
  ⟨kind, (textBetween? s.source s.start s.current).getD "", s.line⟩

def fault (s : Scanner) (f : Fault) : ScannedToken :=
  ⟨.fault, f.message, s.line⟩

def insideString (s : Scanner) : Bool :=
  s.peek != quote && s.peek != newline && !s.atEnd

def readString? (s : Scanner) : Option (ScannedToken × Scanner) := do
  let s ← s.moveWhile? insideString
  if s.peek ≠ quote then
    return (s.fault .unterminatedString, s)
  else
    let s ← s.move? 1
    return (s.token .string, s)

def readInteger? (s : Scanner) : Option (ScannedToken × Scanner) := do
  let s ← s.moveWhile? fun s => onByte Char.isDigit s.peek
  return (s.token .integer, s)

/-- The kind of a word that only one keyword may be. -/
def leafKind? (s : Scanner) (l : Keyword.Leaf) : Option TokenKind := do
  let word ← textBetween? s.source s.start s.current
  if word.utf8ByteSize = l.depth + l.rest.utf8ByteSize then
    let rest ← textBetween? word l.depth word.utf8ByteSize
    return if rest = l.rest then .keyword l.keyword else .identifier
  else
    return .identifier

/-- The second byte of a word, or zero if it has one byte only. -/
def secondByte? (s : Scanner) : Option UInt8 :=
  if 1 < s.current - s.start then s.bytes[s.start + 1]? else some 0

def wordKind? (s : Scanner) : Option TokenKind := do
  let first ← s.bytes[s.start]?
  let second ← s.secondByte?
  match Keyword.leaf? (charOfByte first) (charOfByte second) with
  | some l => s.leafKind? l
  | none => return .identifier

def readWord? (s : Scanner) : Option (ScannedToken × Scanner) := do
  let s ← s.moveWhile? fun s => onByte isWordPart s.peek
  let kind ← s.wordKind?
  return (s.token kind, s)

/-- Reads on behind the first byte of a token. -/
def readFrom? (b : UInt8) (s : Scanner) : Option (ScannedToken × Scanner) :=
  match Mark.ofByte? b with
  | some m => some (s.token (.mark m), s)
  | none =>
    if b = quote then
      s.readString?
    else if onByte Char.isDigit b then
      s.readInteger?
    else if onByte isWordStart b then
      s.readWord?
    else
      some (s.fault .unexpectedCharacter, s)

def begun (s : Scanner) : Scanner :=
  { s with start := s.current }

/-- Reads a token that begins here, where no trivia stand. -/
def readToken? (s : Scanner) : Option (ScannedToken × Scanner) :=
  if s.atEnd then
    some (s.token .endOfInput, s)
  else do
    let (b, s) ← s.advance?
    s.readFrom? b

def next? (s : Scanner) : Option (ScannedToken × Scanner) := do
  let (closed, s) ← s.skipTrivia?
  if closed then
    s.begun.readToken?
  else
    return (s.fault .unterminatedComment, s)

def after? (s : Scanner) : Nat → Option Scanner
  | 0 => some s
  | n + 1 => do
    let (_, t) ← s.next?
    t.after? n

end Scanner

end JackVm

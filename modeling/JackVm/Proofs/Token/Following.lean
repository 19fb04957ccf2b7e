import JackVm.Proofs.Token.Scanner

/-!
# Scanners that follow a cursor

A scanner follows a cursor if both stand at one place of a text, between two characters or inside
one. The bytes in front of the scanner are then known, and with them what each of its steps does:
whatever a cursor skips by characters, a scanner passes by bytes.
-/

namespace JackVm

namespace Scanner
variable {s : Scanner} {b : UInt8} {piece rest : Bytes}

/-! ## The bytes in front of a scanner -/

def ahead (s : Scanner) : Bytes :=
  s.bytes.drop s.current

theorem moved_moved (s : Scanner) (m n : Nat) : (s.moved m).moved n = s.moved (m + n) := by
  rw [moved, moved, moved, Nat.add_assoc]

theorem ahead_moved (s : Scanner) (n : Nat) : (s.moved n).ahead = s.ahead.drop n :=
  List.drop_drop.symm

theorem ahead_moved_append (h : s.ahead = piece ++ rest) : (s.moved piece.length).ahead = rest := by
  rw [ahead_moved, h, List.drop_left]

theorem getElem?_ahead (s : Scanner) (n : Nat) : s.ahead[n]? = s.bytes[s.current + n]? :=
  List.getElem?_drop

theorem peek_eq (s : Scanner) : s.peek = s.ahead.headD 0 := by
  rw [peek, ← Nat.add_zero s.current, ← getElem?_ahead, List.headD_eq_head?_getD,
    List.head?_eq_getElem?]

theorem peekSecond_eq (s : Scanner) : s.peekSecond = s.ahead.tail.headD 0 := by
  rw [peekSecond, ← getElem?_ahead, List.headD_eq_head?_getD, List.head?_eq_getElem?,
    List.getElem?_tail]

theorem peek_of_cons (h : s.ahead = b :: rest) : s.peek = b := by
  rw [peek_eq, h]
  rfl

theorem peekSecond_of_cons (h : s.ahead = b :: rest) : s.peekSecond = rest.headD 0 := by
  rw [peekSecond_eq, h]
  rfl

theorem atEnd_eq (s : Scanner) : s.atEnd = s.ahead.isEmpty := by
  rw [Bool.eq_iff_iff, List.isEmpty_iff, ahead, List.drop_eq_nil_iff, atEnd, decide_eq_true_iff]

theorem not_atEnd_of_cons (h : s.ahead = b :: rest) : ¬ s.atEnd := by
  rw [atEnd_eq, h]
  simp

theorem peek_within (q : UInt8 → Bool) (s : Scanner) :
    (q s.peek && !s.atEnd) = s.ahead.head?.any q := by
  rw [peek_eq, atEnd_eq]
  cases s.ahead with
  | nil => exact Bool.and_false _
  | cons b rest => exact Bool.and_true _

theorem move?_eq (h : s.ahead = piece ++ rest) (nonempty : piece ≠ []) :
    s.move? piece.length = some (s.moved piece.length) := by
  have room : s.bytes.length - s.current = piece.length + rest.length := by
    rw [← List.length_drop, ← List.length_append, ← h]
    rfl
  have positive := List.length_pos_iff.mpr nonempty
  exact if_pos (by omega)

theorem move?_one (h : s.ahead = b :: rest) : s.move? 1 = some (s.moved 1) :=
  @move?_eq s [b] rest h (List.cons_ne_nil b [])

theorem move?_two {b' : UInt8} (h : s.ahead = b :: b' :: rest) : s.move? 2 = some (s.moved 2) :=
  @move?_eq s [b, b'] rest h (List.cons_ne_nil b [b'])

theorem advance?_eq (h : s.ahead = b :: rest) : s.advance? = some (b, s.moved 1) := by
  have read : s.bytes[s.current]? = some b := by
    rw [← Nat.add_zero s.current, ← getElem?_ahead, h]
    rfl
  rw [advance?, move?_one h]
  show (s.bytes[s.current]?).bind _ = _
  rw [read]
  rfl

theorem moveWhile?_eq {inside : Scanner → Bool} {q : UInt8 → Bool}
    (test : ∀ s : Scanner, inside s = s.ahead.head?.any q) (s : Scanner) :
    s.moveWhile? inside = some (s.moved (s.ahead.takeWhile q).length) := by
  induction left : s.ahead generalizing s with
  | nil =>
    have outside : inside s = false := by rw [test, left]; rfl
    rw [moveWhile?, if_neg (by simp [outside])]
    rfl
  | cons b rest ih =>
    have here : inside s = q b := by rw [test, left]; rfl
    rw [moveWhile?, here, List.takeWhile_cons]
    by_cases part : q b
    · have split : s.ahead = [b] ++ rest := left
      have more := ih (s.moved 1) (ahead_moved_append split)
      rw [if_pos part, if_pos part, move?_one left]
      show moveWhile? inside (s.moved 1) = _
      rw [more, moved_moved, List.length_cons, Nat.add_comm]
    · rw [if_neg part, if_neg part]
      rfl

/-! ## Scanners that follow a cursor -/

/-- A scanner and a cursor at one place of a text. -/
structure Follows (s : Scanner) (source : String) (c : Cursor) : Prop where
  source_eq : s.source = source
  line_eq : s.line = c.line
  ahead : Ahead c.stray c.rest s.ahead
  place : ∃ passed, source.toList = passed ++ c.rest ∧ s.current + c.stray = byteLength passed

variable {source : String} {cs ds : List Char} {c : Char} {line : UInt32} {p : Char → Bool}

theorem bytes_eq (same : s.source = source) : s.bytes = utf8 source.toList := by
  rw [bytes, same, utf8_toList]

theorem Follows.between (same : s.source = source) (sameLine : s.line = line)
    {passed : List Char} (text : source.toList = passed ++ cs)
    (place : s.current = byteLength passed) : s.Follows source ⟨cs, line, 0⟩ where
  source_eq := same
  line_eq := sameLine
  ahead := by
    have left : s.ahead = utf8 cs := by
      rw [Scanner.ahead, bytes_eq same, text, utf8_append, place, ← length_utf8, List.drop_left]
    rw [left]
    exact .utf8 cs
  place := ⟨passed, text, place⟩

theorem follows_ofString (source : String) : (ofString source).Follows source (.ofString source) :=
  .between rfl rfl (List.nil_append _).symm rfl

theorem Follows.ahead_eq (h : s.Follows source ⟨cs, line, 0⟩) : s.ahead = utf8 cs := by
  obtain ⟨tail, text, length, -⟩ := h.ahead
  rw [text, List.length_eq_zero_iff.mp length, List.nil_append]

theorem Follows.moved (cs : List Char) (h : s.Follows source ⟨cs ++ ds, line, 0⟩) :
    (s.moved (byteLength cs)).Follows source ⟨ds, line, 0⟩ := by
  obtain ⟨passed, text, place⟩ := h.place
  have split : source.toList = passed ++ cs ++ ds := by rw [text, List.append_assoc]
  have further : (s.moved (byteLength cs)).current = byteLength (passed ++ cs) := by
    rw [byteLength_append, ← place]
    rfl
  exact .between h.source_eq h.line_eq split further

theorem Follows.moved_one (h : s.Follows source ⟨c :: cs, line, 0⟩) (small : c.toNat < 128) :
    (s.moved 1).Follows source ⟨cs, line, 0⟩ := by
  rw [← byteLength_singleton small]
  exact Follows.moved [c] h

theorem Follows.moved_char (h : s.Follows source ⟨c :: cs, line, 0⟩) :
    (s.moved (String.utf8EncodeChar c).length).Follows source ⟨cs, line, 0⟩ := by
  rw [String.length_utf8EncodeChar]
  exact Follows.moved [c] h

theorem Follows.withLine (h : s.Follows source ⟨cs, line, 0⟩) (n : UInt32) :
    Follows { s with line := n } source ⟨cs, n, 0⟩ :=
  ⟨h.source_eq, rfl, h.ahead, h.place⟩

theorem Follows.ahead_cons (h : s.Follows source ⟨c :: cs, line, 0⟩)
    (small : c.toNat < 128) : s.ahead = c.toUInt8 :: utf8 cs := by
  rw [h.ahead_eq, utf8_cons, utf8EncodeChar_of_lt small, List.singleton_append]

theorem Follows.moveWhile? (h : s.Follows source ⟨cs, line, 0⟩)
    {inside : Scanner → Bool} {q : UInt8 → Bool}
    (test : ∀ s : Scanner, inside s = s.ahead.head?.any q)
    (same : ∀ c, ∀ b ∈ String.utf8EncodeChar c, q b = p c) :
    s.moveWhile? inside = some (s.moved (byteLength (cs.takeWhile p))) ∧
      (s.moved (byteLength (cs.takeWhile p))).Follows source ⟨cs.dropWhile p, line, 0⟩ := by
  constructor
  · rw [moveWhile?_eq test, h.ahead_eq, takeWhile_utf8 same, length_utf8]
  · rw [← List.takeWhile_append_dropWhile (p := p) (l := cs)] at h
    exact Follows.moved _ h

/-! ## Skipping -/

theorem moveWhile?_moved {inside : Scanner → Bool} {q : UInt8 → Bool}
    (test : ∀ s : Scanner, inside s = s.ahead.head?.any q) (h : s.ahead = piece ++ rest)
    (all : ∀ b ∈ piece, q b) : s.moveWhile? inside = (s.moved piece.length).moveWhile? inside := by
  rw [moveWhile?_eq test, moveWhile?_eq test, ahead_moved_append h, h,
    List.takeWhile_append_of_pos all, List.length_append, moved_moved]

theorem insideLine_eq (s : Scanner) : insideLine s = s.ahead.head?.any (· != newline) :=
  peek_within (· != newline) s

theorem closeComment?_nil (h : s.ahead = []) : s.closeComment? = some (.unclosed, s) := by
  rw [closeComment?, if_pos (by rw [atEnd_eq, h]; rfl)]

theorem closeComment?_end (h : s.ahead = commentEnd ++ rest) :
    s.closeComment? = some (.further, s.moved 2) := by
  have ends : s.peek = '*'.toUInt8 ∧ s.peekSecond = '/'.toUInt8 :=
    ⟨peek_of_cons h, peekSecond_of_cons h⟩
  rw [closeComment?, if_neg (not_atEnd_of_cons h), if_pos ends, move?_two h]
  rfl

theorem closeComment?_cons (h : s.ahead = b :: rest)
    (apart : b = '*'.toUInt8 → rest.headD 0 ≠ '/'.toUInt8) :
    s.closeComment? = closeComment?
      { s.moved 1 with line := if b = newline then s.line + 1 else s.line } := by
  rw [closeComment?, if_neg (not_atEnd_of_cons h), peek_of_cons h, peekSecond_of_cons h,
    if_neg fun both => apart both.1 both.2, move?_one h]

theorem closeComment?_plain (h : s.ahead = piece ++ rest)
    (plain : ∀ b ∈ piece, b ≠ '*'.toUInt8 ∧ b ≠ newline) :
    s.closeComment? = (s.moved piece.length).closeComment? := by
  induction piece generalizing s with
  | nil => rfl
  | cons b piece ih =>
    have first := plain b List.mem_cons_self
    have next := closeComment?_cons h fun star => absurd star first.1
    rw [if_neg first.2] at next
    have split : s.ahead = [b] ++ (piece ++ rest) := h
    have more := ih (ahead_moved_append split) fun a mem => plain a (List.mem_cons_of_mem b mem)
    rw [moved_moved, List.length_singleton, Nat.add_comm] at more
    exact next.trans more

/-- How skipping goes on behind a piece of trivia. -/
def goOn : Skip × Scanner → Option (Bool × Scanner)
  | (.further, t) => t.skipTrivia?
  | (.done, t) => some (true, t)
  | (.unclosed, t) => some (false, t)

theorem skipTrivia?_eq (s : Scanner) : s.skipTrivia? = s.skipPiece?.bind goOn := by
  rw [skipTrivia?]
  cases s.skipPiece? with
  | none => rfl
  | some r =>
    obtain ⟨skip, t⟩ := r
    cases skip <;> rfl

/-- How skipping goes on between tokens and inside a comment. -/
def resume? : Trivia → Scanner → Option (Bool × Scanner)
  | .blank, s => s.skipTrivia?
  | .lineComment, s => (s.moveWhile? insideLine).bind skipTrivia?
  | .blockComment, s => s.closeComment?.bind goOn

theorem skipPiece?_blank {d : Char} (small : d.toNat < 128) (blank : d ∈ [' ', '\r', '\t'])
    (h : s.ahead = d.toUInt8 :: rest) : s.skipPiece? = some (.further, s.moved 1) := by
  rw [skipPiece?, peek_of_cons h, if_pos ((mem_utf8_iff small).mpr blank), move?_one h]
  rfl

theorem skipPiece?_newline (h : s.ahead = newline :: rest) :
    s.skipPiece? = some (.further, { s.moved 1 with line := s.line + 1 }) := by
  rw [skipPiece?, peek_of_cons h, if_neg (by decide), if_pos rfl, move?_one h]
  rfl

theorem skipPiece?_lineComment (h : s.ahead = '/'.toUInt8 :: '/'.toUInt8 :: rest) :
    s.skipPiece? = ((s.moved 2).moveWhile? insideLine).map (.further, ·) := by
  have second : s.peekSecond = '/'.toUInt8 := peekSecond_of_cons h
  have split : s.ahead = ['/'.toUInt8, '/'.toUInt8] ++ rest := h
  have moves := moveWhile?_moved insideLine_eq split (by decide +kernel)
  rw [skipPiece?, peek_of_cons h, second, if_neg (by decide), if_neg (by decide),
    if_pos ⟨rfl, rfl⟩, moves]
  rfl

theorem skipPiece?_blockComment (h : s.ahead = '/'.toUInt8 :: '*'.toUInt8 :: rest) :
    s.skipPiece? = (s.moved 2).closeComment? := by
  have second : s.peekSecond = '*'.toUInt8 := peekSecond_of_cons h
  rw [skipPiece?, peek_of_cons h, second, if_neg (by decide), if_neg (by decide),
    if_neg (by decide), if_pos ⟨rfl, rfl⟩, move?_two h]
  rfl

theorem eq_cons_of_headD {d : Char} (small : d.toNat < 128) (nonzero : d.toUInt8 ≠ 0)
    (h : (utf8 cs).headD 0 = d.toUInt8) : ∃ ds, cs = d :: ds := by
  cases bytes : utf8 cs with
  | nil =>
    rw [bytes] at h
    exact absurd h.symm nonzero
  | cons b rest =>
    rw [bytes] at h
    have first : b = d.toUInt8 := h
    rw [first] at bytes
    obtain ⟨ds, text, -⟩ := eq_cons_of_utf8_eq_cons small bytes
    exact ⟨ds, text⟩

theorem skipPiece?_plain (h : s.ahead = utf8 cs) (plain : BeginsPlain cs) :
    s.skipPiece? = some (.done, s) := by
  have begins (d : Char) (small : d.toNat < 128) (nonzero : d.toUInt8 ≠ 0)
      (here : s.peek = d.toUInt8) : ∃ ds, cs = d :: ds := by
    rw [peek_eq, h] at here
    exact eq_cons_of_headD small nonzero here
  have comment (d : Char) (small : d.toNat < 128) (nonzero : d.toUInt8 ≠ 0)
      (here : s.peek = '/'.toUInt8 ∧ s.peekSecond = d.toUInt8) : ∃ ds, cs = '/' :: d :: ds := by
    obtain ⟨ds, text⟩ := begins '/' (by decide) (by decide) here.1
    have second := here.2
    rw [peekSecond_eq, h, text, utf8_cons, utf8EncodeChar_of_lt (by decide)] at second
    obtain ⟨es, text'⟩ := eq_cons_of_headD small nonzero second
    exact ⟨es, by rw [text, text']⟩
  rw [skipPiece?, if_neg, if_neg, if_neg, if_neg]
  · intro here
    obtain ⟨ds, text⟩ := comment '*' (by decide) (by decide) here
    exact plain.blockComment ds text
  · intro here
    obtain ⟨ds, text⟩ := comment '/' (by decide) (by decide) here
    exact plain.lineComment ds text
  · intro here
    obtain ⟨ds, text⟩ := begins '\n' (by decide) (by decide) here
    exact plain.blank '\n' ds text (by decide)
  · intro here
    obtain ⟨d, blank, encoded⟩ := List.mem_flatMap.mp here
    have facts : d.toNat < 128 ∧ d.toUInt8 ≠ 0 ∧ d ∈ [' ', '\t', '\r', '\n'] := by
      simp only [List.mem_cons, List.not_mem_nil, or_false] at blank
      rcases blank with rfl | rfl | rfl <;> decide
    rw [utf8EncodeChar_of_lt facts.1, List.mem_singleton] at encoded
    obtain ⟨ds, text⟩ := begins d facts.1 facts.2.1 encoded
    exact plain.blank d ds text facts.2.2

/-- Skipping by a scanner and by a cursor ends at one place. -/
def SkipsAlike (source : String) (r : Option (Bool × Scanner)) (k : Skipped) : Prop :=
  ∃ t, r = some (!k.unclosed, t) ∧ t.Follows source ⟨k.rest, k.line, 0⟩

/-- The induction follows skipping by characters. The bytes of one character are passed together. -/
theorem Follows.skips (mode : Trivia) (cs : List Char) (line : UInt32) (s : Scanner)
    (h : s.Follows source ⟨cs, line, 0⟩) :
    SkipsAlike source (s.resume? mode) (JackVm.skipTrivia mode cs line) := by
  fun_induction JackVm.skipTrivia mode cs line generalizing s with
  | case1 cs line ih | case2 cs line ih | case3 cs line ih =>
    have piece := skipPiece?_blank (by decide) (by decide) (h.ahead_cons (by decide))
    have more := ih _ (h.moved_one (by decide))
    rw [resume?, skipTrivia?_eq, piece]
    exact more
  | case4 cs line ih =>
    have piece := skipPiece?_newline (h.ahead_cons (by decide))
    have more := ih _ ((h.moved_one (by decide)).withLine (line + 1))
    rw [resume?, skipTrivia?_eq, piece, h.line_eq]
    exact more
  | case5 cs line ih =>
    have piece := skipPiece?_lineComment h.ahead_eq
    have more := ih _ (Follows.moved ['/', '/'] h)
    rw [resume?, skipTrivia?_eq, piece, Option.bind_map]
    exact more
  | case6 cs line ih =>
    have piece := skipPiece?_blockComment h.ahead_eq
    have more := ih _ (Follows.moved ['/', '*'] h)
    rw [resume?, skipTrivia?_eq, piece]
    exact more
  | case7 cs line space tab carriageReturn newline lineComment blockComment =>
    have plain : BeginsPlain cs :=
      ⟨not_blank space tab carriageReturn newline, lineComment, blockComment⟩
    rw [resume?, skipTrivia?_eq, skipPiece?_plain h.ahead_eq plain]
    exact ⟨s, rfl, h⟩
  | case8 cs line ih =>
    have stays : s.moveWhile? insideLine = some s := by
      rw [moveWhile?_eq insideLine_eq, h.ahead_eq]
      rfl
    have piece := skipPiece?_newline (h.ahead_cons (by decide))
    have more := ih _ ((h.moved_one (by decide)).withLine (line + 1))
    rw [resume?, stays, Option.bind_some, skipTrivia?_eq, piece, h.line_eq]
    exact more
  | case9 c cs line inside ih =>
    have passes : ∀ b ∈ String.utf8EncodeChar c, (b != newline) = true :=
      fun b mem => bne_iff_ne.mpr ((eq_toUInt8_iff (by decide) mem).not.mpr inside)
    have more := ih _ h.moved_char
    rw [resume?, moveWhile?_moved insideLine_eq h.ahead_eq passes]
    exact more
  | case10 line =>
    have stays : s.moveWhile? insideLine = some s := by
      rw [moveWhile?_eq insideLine_eq, h.ahead_eq]
      rfl
    have plain : BeginsPlain [] := ⟨by simp, by simp, by simp⟩
    rw [resume?, stays, Option.bind_some, skipTrivia?_eq, skipPiece?_plain h.ahead_eq plain]
    exact ⟨s, rfl, h⟩
  | case11 cs line ih =>
    have closes := closeComment?_end h.ahead_eq
    have more := ih _ (Follows.moved ['*', '/'] h)
    rw [resume?, closes]
    exact more
  | case12 cs line ih =>
    have split : s.ahead = newline :: utf8 cs := h.ahead_cons (by decide)
    have apart : newline ≠ '*'.toUInt8 := by decide
    have step := closeComment?_cons split fun star => absurd star apart
    have more := ih _ ((h.moved_one (by decide)).withLine (line + 1))
    rw [resume?, step, if_pos rfl, h.line_eq]
    exact more
  | case13 c cs line apart inside ih =>
    have more := ih _ h.moved_char
    by_cases star : c = '*'
    · subst star
      have step := closeComment?_cons (h.ahead_cons (by decide)) fun _ slash => ?_
      · rw [resume?, step, if_neg (by decide)]
        exact more
      · obtain ⟨ds, text⟩ := eq_cons_of_headD (by decide) (by decide) slash
        exact apart ds rfl text
    · have plain : ∀ b ∈ String.utf8EncodeChar c, b ≠ '*'.toUInt8 ∧ b ≠ newline :=
        fun b mem => ⟨(eq_toUInt8_iff (by decide) mem).not.mpr star,
          (eq_toUInt8_iff (by decide) mem).not.mpr inside⟩
      rw [resume?, closeComment?_plain h.ahead_eq plain]
      exact more
  | case14 line =>
    rw [resume?, closeComment?_nil h.ahead_eq]
    exact ⟨s, rfl, h⟩

end Scanner

end JackVm

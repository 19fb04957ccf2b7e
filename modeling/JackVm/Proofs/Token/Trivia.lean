import JackVm.Proofs.Token.Bytes

/-!
# Trivia in bytes

What may stand between two tokens, said of bytes alone: white space and comments. Two pieces of
trivia that start the same bytes are the same piece, so a run of trivia that no further piece
follows is the longest there is. It is the run that reading skips.
-/

namespace JackVm

def commentEnd : Bytes :=
  ['*'.toUInt8, '/'.toUInt8]

def AtLineEnd (rest : Bytes) : Prop :=
  ∀ b ∈ rest.head?, b = '\n'.toUInt8

/-- A piece of trivia and the bytes behind it. A block comment ends where its end is first met,
which does not overlap its beginning. -/
inductive TriviaPiece : Bytes → Bytes → Prop
  | blank {b : UInt8} (rest : Bytes) (h : b ∈ utf8 [' ', '\t', '\r', '\n']) : TriviaPiece [b] rest
  | lineComment {body rest : Bytes} (inside : '\n'.toUInt8 ∉ body) (ended : AtLineEnd rest) :
    TriviaPiece ('/'.toUInt8 :: '/'.toUInt8 :: body) rest
  | blockComment {body : Bytes} (rest : Bytes)
    (first : ¬ commentEnd <:+: body ++ ['*'.toUInt8]) :
    TriviaPiece ('/'.toUInt8 :: '*'.toUInt8 :: (body ++ commentEnd)) rest

/-- Pieces of trivia in a row, and the bytes behind them. -/
inductive TriviaRun : Bytes → Bytes → Prop
  | nil (rest : Bytes) : TriviaRun [] rest
  | cons {piece run rest : Bytes} (first : TriviaPiece piece (run ++ rest))
    (more : TriviaRun run rest) : TriviaRun (piece ++ run) rest

/-- A run of trivia that is as long as possible. -/
structure LongestTrivia (run rest : Bytes) : Prop where
  isRun : TriviaRun run rest
  longest (run' rest' : Bytes) : run' ++ rest' = run ++ rest → TriviaRun run' rest' →
    run'.length ≤ run.length

def StartsTrivia (bytes : Bytes) : Prop :=
  ∃ piece rest, piece ++ rest = bytes ∧ TriviaPiece piece rest

theorem append_inj_of_stop {p : UInt8 → Prop} {body rest body' rest' : Bytes}
    (inside : ∀ b ∈ body, p b) (stop : ∀ b ∈ rest.head?, ¬ p b) (inside' : ∀ b ∈ body', p b)
    (stop' : ∀ b ∈ rest'.head?, ¬ p b) (same : body ++ rest = body' ++ rest') :
    body = body' ∧ rest = rest' := by
  induction body generalizing body' with
  | nil =>
    cases body' with
    | nil => exact ⟨rfl, same⟩
    | cons b body' =>
      have here : b ∈ rest.head? := by rw [← List.nil_append rest, same]; rfl
      exact absurd (inside' b List.mem_cons_self) (stop b here)
  | cons b body ih =>
    cases body' with
    | nil =>
      have here : b ∈ rest'.head? := by rw [← List.nil_append rest', ← same]; rfl
      exact absurd (inside b List.mem_cons_self) (stop' b here)
    | cons b' body' =>
      rw [List.cons_append, List.cons_append, List.cons.injEq] at same
      have more := ih (fun a ha => inside a (List.mem_cons_of_mem _ ha))
        (fun a ha => inside' a (List.mem_cons_of_mem _ ha)) same.2
      rw [same.1, more.1]
      exact ⟨rfl, more.2⟩

theorem length_le_of_commentEnd {body rest body' rest' : Bytes}
    (first' : ¬ commentEnd <:+: body' ++ ['*'.toUInt8])
    (same : body ++ commentEnd ++ rest = body' ++ commentEnd ++ rest') :
    body'.length ≤ body.length := by
  apply Nat.le_of_not_lt
  intro shorter
  have inFront : body ++ commentEnd <+: body' ++ ['*'.toUInt8] := by
    apply List.prefix_of_prefix_length_le (List.prefix_append (body ++ commentEnd) rest)
    · rw [same]
      exact ⟨'/'.toUInt8 :: rest', by simp [commentEnd]⟩
    · simp [commentEnd]
      omega
  exact first' ((List.infix_append' body commentEnd []).trans
    (by simpa using inFront.isInfix))

theorem toNat_lt_of_blank {c : Char} (h : c ∈ [' ', '\t', '\r', '\n']) : c.toNat < 128 := by
  revert c
  simp

theorem lt_of_blank {b : UInt8} (h : b ∈ utf8 [' ', '\t', '\r', '\n']) : b < 128 := by
  obtain ⟨c, blank, encoded⟩ := List.mem_flatMap.mp h
  have small := toNat_lt_of_blank blank
  rw [utf8EncodeChar_of_lt small, List.mem_singleton] at encoded
  rw [encoded]
  exact toUInt8_lt small

theorem TriviaPiece.unique {piece rest piece' rest' : Bytes} (h : TriviaPiece piece rest)
    (h' : TriviaPiece piece' rest') (same : piece ++ rest = piece' ++ rest') :
    piece = piece' := by
  have slash : '/'.toUInt8 ∉ utf8 [' ', '\t', '\r', '\n'] := by decide
  have marks : '/'.toUInt8 ≠ '*'.toUInt8 := by decide
  cases h with
  | @blank b _ hb =>
    cases h' with
    | @blank b' _ hb' => simp_all
    | lineComment | blockComment =>
      simp only [List.cons_append, List.cons.injEq] at same
      exact absurd (same.1 ▸ hb) slash
  | lineComment inside ended =>
    cases h' with
    | blank _ hb' =>
      simp only [List.cons_append, List.cons.injEq] at same
      exact absurd (same.1 ▸ hb') slash
    | lineComment inside' ended' =>
      simp only [List.cons_append, List.cons.injEq, true_and] at same
      have body := append_inj_of_stop (p := (· ≠ '\n'.toUInt8))
        (fun b hb line => inside (line ▸ hb)) (fun b hb other => other (ended b hb))
        (fun b hb line => inside' (line ▸ hb)) (fun b hb other => other (ended' b hb)) same
      rw [body.1]
    | blockComment =>
      simp only [List.cons_append, List.cons.injEq, true_and] at same
      exact absurd same.1 marks
  | blockComment _ first =>
    cases h' with
    | blank _ hb' =>
      simp only [List.cons_append, List.cons.injEq] at same
      exact absurd (same.1 ▸ hb') slash
    | lineComment =>
      simp only [List.cons_append, List.cons.injEq, true_and] at same
      exact absurd same.1.symm marks
    | blockComment _ first' =>
      simp only [List.cons_append, List.cons.injEq, true_and] at same
      have length := Nat.le_antisymm (length_le_of_commentEnd first same.symm)
        (length_le_of_commentEnd first' same)
      rw [List.append_assoc, List.append_assoc] at same
      rw [(List.append_inj same length).1]

theorem TriviaRun.longest {run rest : Bytes} (h : TriviaRun run rest)
    (stops : ¬ StartsTrivia rest) : LongestTrivia run rest := by
  refine ⟨h, fun run' rest' same h' => ?_⟩
  induction h generalizing run' with
  | nil =>
    cases h' with
    | nil => exact Nat.le_refl _
    | cons first more =>
      rw [List.append_assoc] at same
      exact absurd ⟨_, _, same, first⟩ stops
  | cons first more ih =>
    cases h' with
    | nil => exact Nat.zero_le _
    | cons first' more' =>
      rw [List.append_assoc, List.append_assoc] at same
      have piece := first'.unique first same
      subst piece
      rw [List.length_append, List.length_append]
      exact Nat.add_le_add_left (ih stops _ (List.append_cancel_left same) more') _

/-! ## What reading skips -/

/-- Whether no white space and no comment, closed or not, begins a text. -/
structure BeginsPlain (cs : List Char) : Prop where
  blank (c : Char) (ds : List Char) : cs = c :: ds → c ∉ [' ', '\t', '\r', '\n']
  lineComment (ds : List Char) : cs ≠ '/' :: '/' :: ds
  blockComment (ds : List Char) : cs ≠ '/' :: '*' :: ds

/-- The bytes up to where skipping ends, which is in front of what starts no trivia or, in a block
comment that is never closed, at the end of all. -/
inductive Skips : Bytes → Skipped → Prop
  | stop {cs : List Char} (line : UInt32) (plain : BeginsPlain cs) :
    Skips (utf8 cs) ⟨cs, line, false⟩
  | unclosed {body : Bytes} (line : UInt32) (endless : ¬ commentEnd <:+: body) :
    Skips ('/'.toUInt8 :: '*'.toUInt8 :: body) ⟨[], line, true⟩
  | piece {piece bytes : Bytes} {s : Skipped} (h : TriviaPiece piece bytes) (more : Skips bytes s) :
    Skips (piece ++ bytes) s

/-- The same inside a comment that has begun. -/
def SkipsIn : Trivia → Bytes → Skipped → Prop
  | .blank, bytes, s => Skips bytes s
  | .lineComment, bytes, s => ∃ body rest, bytes = body ++ rest ∧ '\n'.toUInt8 ∉ body ∧
      AtLineEnd rest ∧ Skips rest s
  | .blockComment, bytes, s =>
    (∃ body rest, bytes = body ++ commentEnd ++ rest ∧ ¬ commentEnd <:+: body ++ ['*'.toUInt8] ∧
      Skips rest s) ∨
    (¬ commentEnd <:+: bytes ∧ ∃ line, s = ⟨[], line, true⟩)

theorem eq_cons_of_utf8_eq_cons {cs : List Char} {d : Char} {rest : Bytes} (h : d.toNat < 128)
    (same : utf8 cs = d.toUInt8 :: rest) : ∃ ds, cs = d :: ds ∧ rest = utf8 ds := by
  cases cs with
  | nil => cases same
  | cons c cs =>
    rw [utf8_cons] at same
    have first : d.toUInt8 ∈ String.utf8EncodeChar c := by
      cases encoded : String.utf8EncodeChar c with
      | nil => exact absurd encoded String.utf8EncodeChar_ne_nil
      | cons b bs =>
        rw [encoded, List.cons_append, List.cons.injEq] at same
        simp [same.1]
    have : c = d := (mem_utf8EncodeChar_iff h).mp first
    subst this
    rw [utf8EncodeChar_of_lt h, List.singleton_append, List.cons.injEq] at same
    exact ⟨cs, rfl, same.2.symm⟩

theorem commentEnd_infix_append {front rest : Bytes} (h : '*'.toUInt8 ∉ front) :
    commentEnd <:+: front ++ rest ↔ commentEnd <:+: rest := by
  induction front with
  | nil => rfl
  | cons b front ih =>
    rw [List.mem_cons, not_or] at h
    rw [List.cons_append, List.infix_cons_iff, ih h.2, commentEnd, List.cons_prefix_cons]
    simp [h.1]

/-- A character in front makes no end of a comment, unless it is the first half of one. -/
theorem not_commentEnd_infix_append {c : Char} {rest : Bytes}
    (apart : c = '*' → rest.head? ≠ some '/'.toUInt8) (h : ¬ commentEnd <:+: rest) :
    ¬ commentEnd <:+: String.utf8EncodeChar c ++ rest := by
  by_cases star : c = '*'
  · rw [star, utf8EncodeChar_of_lt (by decide), List.singleton_append, List.infix_cons_iff, not_or]
    refine ⟨fun starts => apart star ?_, h⟩
    obtain ⟨more, same⟩ := starts
    simp only [commentEnd, List.cons_append, List.cons.injEq, true_and] at same
    rw [← same]
    rfl
  · have absent : '*'.toUInt8 ∉ String.utf8EncodeChar c :=
      fun mem => star ((mem_utf8EncodeChar_iff (by decide)).mp mem)
    rwa [commentEnd_infix_append absent]

theorem SkipsIn.character {c : Char} {cs : List Char} {s : Skipped}
    (apart : c = '*' → ∀ ds, cs ≠ '/' :: ds) (h : SkipsIn .blockComment (utf8 cs) s) :
    SkipsIn .blockComment (utf8 (c :: cs)) s := by
  have noSlash : c = '*' → (utf8 cs).head? ≠ some '/'.toUInt8 := by
    intro star slash
    obtain ⟨rest, same⟩ := List.head?_eq_some_iff.mp slash
    obtain ⟨ds, text, -⟩ := eq_cons_of_utf8_eq_cons (by decide) same
    exact apart star ds text
  rcases h with ⟨body, rest, text, first, more⟩ | ⟨endless, unclosed⟩
  · refine .inl ⟨String.utf8EncodeChar c ++ body, rest, ?_, ?_, more⟩
    · rw [utf8_cons, text]
      simp
    · rw [List.append_assoc]
      refine not_commentEnd_infix_append (fun star => ?_) first
      have := noSlash star
      rw [text] at this
      cases body with
      | nil => decide
      | cons b body => exact this
  · exact .inr ⟨not_commentEnd_infix_append noSlash endless, unclosed⟩

theorem BeginsPlain.not_startsTrivia {cs : List Char} (plain : BeginsPlain cs) :
    ¬ StartsTrivia (utf8 cs) := by
  intro starts
  obtain ⟨piece, rest, same, h⟩ := starts
  have second (d : Char) (more : Bytes) (small : d.toNat < 128)
      (text : utf8 cs = '/'.toUInt8 :: d.toUInt8 :: more) : ∃ ds, cs = '/' :: d :: ds := by
    obtain ⟨ds, slash, text⟩ := eq_cons_of_utf8_eq_cons (by decide) text
    obtain ⟨ds', next, -⟩ := eq_cons_of_utf8_eq_cons small text.symm
    exact ⟨ds', by rw [slash, next]⟩
  cases h with
  | @blank b _ hb =>
    obtain ⟨d, hd, encoded⟩ := List.mem_flatMap.mp hb
    have small := toNat_lt_of_blank hd
    rw [utf8EncodeChar_of_lt small, List.mem_singleton] at encoded
    rw [encoded] at same
    obtain ⟨ds, text, -⟩ := eq_cons_of_utf8_eq_cons small same.symm
    exact plain.blank d ds text hd
  | lineComment =>
    obtain ⟨ds, text⟩ := second '/' _ (by decide) same.symm
    exact plain.lineComment ds text
  | blockComment =>
    obtain ⟨ds, text⟩ := second '*' _ (by decide) same.symm
    exact plain.blockComment ds text

theorem Skips.blank {c : Char} {cs : List Char} {s : Skipped} (h : c ∈ [' ', '\t', '\r', '\n'])
    (more : Skips (utf8 cs) s) : Skips (utf8 (c :: cs)) s := by
  have encoded := utf8EncodeChar_of_lt (toNat_lt_of_blank h)
  rw [utf8_cons, encoded]
  refine .piece (.blank _ ?_) more
  exact List.mem_flatMap.mpr ⟨c, h, by simp [encoded]⟩

theorem not_blank {cs : List Char} (space : ∀ ds, cs ≠ ' ' :: ds) (tab : ∀ ds, cs ≠ '\t' :: ds)
    (carriageReturn : ∀ ds, cs ≠ '\r' :: ds) (newline : ∀ ds, cs ≠ '\n' :: ds) (c : Char)
    (ds : List Char) (text : cs = c :: ds) : c ∉ [' ', '\t', '\r', '\n'] := by
  intro blank
  subst text
  simp only [List.mem_cons, List.not_mem_nil, or_false] at blank
  rcases blank with rfl | rfl | rfl | rfl
  · exact space ds rfl
  · exact tab ds rfl
  · exact carriageReturn ds rfl
  · exact newline ds rfl

/-- Skipping ends where trivia do. In each case the bytes of the pattern are those of a piece or
of a part of a comment. -/
theorem skipTrivia_skipsIn (mode : Trivia) (cs : List Char) (line : UInt32) :
    SkipsIn mode (utf8 cs) (skipTrivia mode cs line) := by
  fun_induction skipTrivia mode cs line with
  | case1 _ _ ih | case2 _ _ ih | case3 _ _ ih | case4 _ _ ih => exact Skips.blank (by decide) ih
  | case5 cs _ ih =>
    obtain ⟨body, rest, text, inside, ended, more⟩ := ih
    show Skips ('/'.toUInt8 :: '/'.toUInt8 :: utf8 cs) _
    rw [text]
    exact .piece (.lineComment inside ended) more
  | case6 cs _ ih =>
    show Skips ('/'.toUInt8 :: '*'.toUInt8 :: utf8 cs) _
    rcases ih with ⟨body, rest, text, first, more⟩ | ⟨endless, line, unclosed⟩
    · rw [text]
      exact .piece (.blockComment rest first) more
    · rw [unclosed]
      exact .unclosed line endless
  | case7 cs line space tab carriageReturn newline lineComment blockComment =>
    exact .stop line ⟨not_blank space tab carriageReturn newline, lineComment, blockComment⟩
  | case8 cs _ ih =>
    refine ⟨[], utf8 ('\n' :: cs), rfl, List.not_mem_nil, ?_, Skips.blank (by decide) ih⟩
    intro b hb
    cases hb
    rfl
  | case9 c cs _ inside ih =>
    obtain ⟨body, rest, text, inside', ended, more⟩ := ih
    refine ⟨String.utf8EncodeChar c ++ body, rest, by rw [utf8_cons, text, List.append_assoc], ?_,
      ended, more⟩
    rw [List.mem_append, mem_utf8EncodeChar_iff (by decide), not_or]
    exact ⟨inside, inside'⟩
  | case10 line =>
    refine ⟨[], [], rfl, List.not_mem_nil, by simp [AtLineEnd], ?_⟩
    have plain : BeginsPlain [] := ⟨by simp, by simp, by simp⟩
    exact .stop line plain
  | case11 cs _ ih => exact .inl ⟨[], utf8 cs, rfl, by decide, ih⟩
  | case12 cs _ ih => exact ih.character fun star => by cases star
  | case13 c cs _ apart _ ih => exact ih.character fun star ds text => apart ds star text
  | case14 line => exact .inr ⟨by decide, line, rfl⟩

theorem Skips.trivia {bytes : Bytes} {s : Skipped} (h : Skips bytes s)
    (closed : s.unclosed = false) :
    BeginsPlain s.rest ∧ ∃ run, bytes = run ++ utf8 s.rest ∧ LongestTrivia run (utf8 s.rest) := by
  have run : BeginsPlain s.rest ∧ ∃ run, bytes = run ++ utf8 s.rest ∧
      TriviaRun run (utf8 s.rest) := by
    induction h with
    | stop _ plain => exact ⟨plain, [], rfl, .nil _⟩
    | unclosed => cases closed
    | piece first _ ih =>
      obtain ⟨plain, run, text, isRun⟩ := ih closed
      exact ⟨plain, _ ++ run, by rw [text, List.append_assoc], .cons (text ▸ first) isRun⟩
  obtain ⟨plain, run, text, isRun⟩ := run
  exact ⟨plain, run, text, isRun.longest plain.not_startsTrivia⟩

theorem not_startsTrivia_unclosed {body : Bytes} (endless : ¬ commentEnd <:+: body) :
    ¬ StartsTrivia ('/'.toUInt8 :: '*'.toUInt8 :: body) := by
  intro starts
  obtain ⟨piece, rest, same, h⟩ := starts
  cases h with
  | blank _ hb =>
    simp only [List.cons_append, List.cons.injEq] at same
    exact absurd (same.1 ▸ hb) (by decide)
  | lineComment =>
    simp only [List.cons_append, List.cons.injEq, true_and] at same
    exact absurd same.1 (by decide)
  | blockComment =>
    simp only [List.cons_append, List.cons.injEq, true_and] at same
    exact endless ⟨_, _, same⟩

theorem Skips.unclosed_comment {bytes : Bytes} {s : Skipped} (h : Skips bytes s)
    (unclosed : s.unclosed) : s.rest = [] ∧ ∃ run body, ¬ commentEnd <:+: body ∧
      bytes = run ++ '/'.toUInt8 :: '*'.toUInt8 :: body ∧
      LongestTrivia run ('/'.toUInt8 :: '*'.toUInt8 :: body) := by
  have run : s.rest = [] ∧ ∃ run body, ¬ commentEnd <:+: body ∧
      bytes = run ++ '/'.toUInt8 :: '*'.toUInt8 :: body ∧
      TriviaRun run ('/'.toUInt8 :: '*'.toUInt8 :: body) := by
    induction h with
    | stop => cases unclosed
    | unclosed _ endless => exact ⟨rfl, [], _, endless, rfl, .nil _⟩
    | piece first _ ih =>
      obtain ⟨ended, run, body, endless, text, isRun⟩ := ih unclosed
      refine ⟨ended, _ ++ run, body, endless, by rw [text, List.append_assoc], ?_⟩
      exact .cons (text ▸ first) isRun
  obtain ⟨ended, run, body, endless, text, isRun⟩ := run
  exact ⟨ended, run, body, endless, text, isRun.longest (not_startsTrivia_unclosed endless)⟩

end JackVm

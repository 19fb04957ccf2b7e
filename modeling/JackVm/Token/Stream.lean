import JackVm.Token.Cursor

/-!
# Token streams

The tokens of a text in order, followed by the end of input for ever.
-/

namespace JackVm

structure TokenStream where
  /-- The tokens before the end of input. -/
  upcoming : List Token
  /-- The line on which the input ends. -/
  endLine : UInt32
  deriving DecidableEq, Repr

namespace TokenStream

/-- Reads on for at most `bound` tokens, given the tokens read so far in reverse. -/
def collect : Nat → Cursor → List Token → TokenStream
  | 0, c, read => ⟨read.reverse, c.line⟩
  | bound + 1, c, read =>
    let (token, c) := c.next
    if token.lexeme = .endOfInput then
      ⟨read.reverse, token.line⟩
    else
      collect bound c (token :: read)

/-- Each token takes at least one byte of the text, which bounds their number. -/
def ofCursor (c : Cursor) : TokenStream :=
  collect (c.bytesLeft + 1) c []

def ofString (source : String) : TokenStream :=
  ofCursor (.ofString source)

def next (s : TokenStream) : Token × TokenStream :=
  match s.upcoming with
  | [] => (⟨.endOfInput, s.endLine⟩, s)
  | token :: upcoming => (token, { s with upcoming })

@[simp] theorem next_nil (line : UInt32) :
    next ⟨[], line⟩ = (⟨.endOfInput, line⟩, ⟨[], line⟩) := rfl

@[simp] theorem next_cons (token : Token) (tokens : List Token) (line : UInt32) :
    next ⟨token :: tokens, line⟩ = (token, ⟨tokens, line⟩) := rfl

theorem collect_eq_append (bound : Nat) (c : Cursor) (read : List Token) :
    collect bound c read =
      ⟨read.reverse ++ (collect bound c []).upcoming, (collect bound c []).endLine⟩ := by
  induction bound generalizing c read with
  | zero => simp [collect]
  | succ bound ih =>
    simp only [collect]
    split
    · simp
    · rw [ih c.next.2 (c.next.1 :: read), ih c.next.2 [c.next.1]]
      simp

/-- Every bound above the bytes left gives the same stream. -/
theorem collect_congr {c : Cursor} {m n : Nat} (hm : c.bytesLeft < m) (hn : c.bytesLeft < n)
    (read : List Token) : collect m c read = collect n c read := by
  induction m generalizing c n read with
  | zero => omega
  | succ m ih =>
    cases n with
    | zero => omega
    | succ n =>
      simp only [collect]
      split
      · rfl
      · next more =>
        have less := Cursor.bytesLeft_next_lt more
        exact ih (by omega) (by omega) _

theorem next_ofCursor {c : Cursor} (h : c.next.1.lexeme ≠ .endOfInput) :
    (ofCursor c).next = (c.next.1, ofCursor c.next.2) := by
  have less := Cursor.bytesLeft_next_lt h
  rw [ofCursor, collect]
  simp only [if_neg h]
  rw [collect_congr less (Nat.lt_succ_self _), collect_eq_append]
  rfl

theorem ofCursor_of_end {c : Cursor} (h : c.next.1.lexeme = .endOfInput) :
    ofCursor c = ⟨[], c.next.1.line⟩ := by
  simp [ofCursor, collect, h]

end TokenStream

end JackVm

import JackVm.Compilation.Basic
import Mathlib.Data.Stream.Init

/-!
# The window of a compilation

What a compilation still sees of its source: the token it took last, the next one and everything
behind, with the end of input for ever. Taking a token moves the window by one place. `Takes` says
of a list of lexemes that a compilation can take it, which needs the lexemes to lie ahead and no
fault to come into the window.
-/

namespace JackVm

def TokenStream.toList (input : TokenStream) : List Token :=
  input.upcoming ++ [⟨.endOfInput, input.endLine⟩]

/-- The tokens of a stream with the end of input behind them for ever. -/
def TokenStream.toStream (input : TokenStream) : Stream' Token :=
  input.upcoming ++ₛ Stream'.const ⟨.endOfInput, input.endLine⟩

theorem TokenStream.toStream_next (input : TokenStream) :
    input.toStream = Stream'.cons input.next.1 input.next.2.toStream := by
  obtain ⟨upcoming, endLine⟩ := input
  cases upcoming with
  | nil => exact Stream'.const_eq _
  | cons token rest => rfl

theorem TokenStream.toStream_eq (input : TokenStream) :
    input.toStream = input.toList ++ₛ Stream'.const ⟨.endOfInput, input.endLine⟩ := by
  rw [toStream, toList, Stream'.append_append_stream]
  congr 1
  exact Stream'.const_eq _

namespace CompilerState

/-- Place 0 holds the current token and place 1 the next. -/
def window (s : CompilerState) : Stream' Token :=
  Stream'.cons s.current (Stream'.cons s.peek s.input.toStream)

/-- The source line of a place in the window. -/
def lineAt (s : CompilerState) (place : Nat) : UInt32 :=
  (s.window.get place).line

@[simp] theorem window_get_one (s : CompilerState) : s.window.get 1 = s.peek := rfl

theorem window_get_two (s : CompilerState) : s.window.get 2 = s.input.next.1 := by
  show s.input.toStream.get 0 = _
  rw [TokenStream.toStream_next]
  rfl

/-- The tokens that come next, with the end of the input behind. -/
def remaining (s : CompilerState) : List Token :=
  s.peek :: s.input.toList

theorem window_eq (s : CompilerState) : s.window =
    Stream'.cons s.current (s.remaining ++ₛ Stream'.const ⟨.endOfInput, s.input.endLine⟩) := by
  rw [window, TokenStream.toStream_eq]
  rfl

theorem line_of_remaining {s : CompilerState} {ahead rest : List Token}
    (here : s.remaining = ahead ++ rest) {place : Nat} (first : 1 ≤ place)
    (last : place ≤ ahead.length) :
    (ahead.map Token.line)[place - 1]? = some (s.lineAt place) := by
  obtain ⟨i, rfl⟩ := Nat.exists_eq_add_of_le' first
  have inside : i < ahead.length := last
  have token : s.window.get (i + 1) = ahead[i] := by
    rw [window_eq, here, Stream'.append_append_stream]
    exact Stream'.get_append_left _ _ _ inside
  rw [lineAt, token, Nat.add_sub_cancel, List.getElem?_map, List.getElem?_eq_getElem inside]
  rfl

def shifted (s : CompilerState) : CompilerState :=
  { s with current := s.peek, peek := s.input.next.1, input := s.input.next.2 }

@[simp] theorem window_shifted (s : CompilerState) : s.shifted.window = s.window.drop 1 := by
  rw [window, window, TokenStream.toStream_next s.input]
  rfl

def taken (s : CompilerState) : CompilerState :=
  { s.shifted with trace := s.trace.map (·.terminal s.peek.lexeme) }

@[simp] theorem window_taken (s : CompilerState) : s.taken.window = s.window.drop 1 :=
  s.window_shifted

end CompilerState

def Token.Readable (t : Token) : Prop :=
  t.kind ≠ .fault

/-- Whether lexemes can be taken one after the other. -/
def Takes : Stream' Token → List Lexeme → Prop
  | _, [] => True
  | w, l :: rest => (w.get 1).lexeme = l ∧ (w.get 2).Readable ∧ Takes (w.drop 1) rest

@[simp] theorem takes_nil (w : Stream' Token) : Takes w [] := trivial

@[simp] theorem takes_cons (w : Stream' Token) (l : Lexeme) (rest : List Lexeme) :
    Takes w (l :: rest) ↔
      (w.get 1).lexeme = l ∧ (w.get 2).Readable ∧ Takes (w.drop 1) rest := Iff.rfl

theorem takes_append (w : Stream' Token) (l m : List Lexeme) :
    Takes w (l ++ m) ↔ Takes w l ∧ Takes (w.drop l.length) m := by
  induction l generalizing w with
  | nil => simp
  | cons a l ih =>
    simp only [List.cons_append, takes_cons, ih, Stream'.drop_drop, List.length_cons,
      Nat.add_comm 1, and_assoc]

namespace Lexeme

theorem kind_eq_mark {l : Lexeme} {m : Mark} : l.kind = .mark m ↔ l = .mark m := by
  cases l <;> simp [kind]

theorem kind_eq_keyword {l : Lexeme} {k : Keyword} : l.kind = .keyword k ↔ l = .keyword k := by
  cases l <;> simp [kind]

theorem kind_eq_endOfInput {l : Lexeme} : l.kind = .endOfInput ↔ l = .endOfInput := by
  cases l <;> simp [kind]

theorem kind_eq_identifier {l : Lexeme} : l.kind = .identifier ↔ ∃ name, l = .identifier name := by
  cases l <;> simp [kind]

end Lexeme

end JackVm

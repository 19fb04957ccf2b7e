import JackVm.Compile
import JackVm.Proofs.Compilation.Steps
import JackVm.Proofs.Syntax.Identifier
import JackVm.Proofs.Syntax.Terminals
import JackVm.Proofs.Token.Bytes

/-!
# The source of a compilation

A compilation that has taken the lexemes of a tree and then faces the end of the input has taken
all the text there is.
-/

namespace JackVm

/-- The lexemes of a text in front of the end of the input. -/
def sourceLexemes (text : String) : List Lexeme :=
  (TokenStream.ofString text).upcoming.map Token.lexeme

theorem TokenStream.endOfInput_not_mem_collect (bound : Nat) (c : Cursor) (read : List Token)
    (h : .endOfInput ∉ read.map Token.lexeme) :
    .endOfInput ∉ (collect bound c read).upcoming.map Token.lexeme := by
  induction bound generalizing c read with
  | zero => simpa [collect] using h
  | succ bound ih =>
    simp only [collect]
    split
    · simpa using h
    · next more =>
      apply ih
      rw [List.map_cons, List.mem_cons]
      exact not_or.mpr ⟨Ne.symm more, h⟩

theorem endOfInput_not_mem_sourceLexemes (text : String) : .endOfInput ∉ sourceLexemes text :=
  TokenStream.endOfInput_not_mem_collect _ _ [] (by simp)

theorem TokenStream.forall_mem_collect {p : Token → Prop} (reads : ∀ c : Cursor, p c.next.1)
    (bound : Nat) (c : Cursor) (read : List Token) (h : ∀ t ∈ read, p t) :
    ∀ t ∈ (collect bound c read).upcoming, p t := by
  induction bound generalizing c read with
  | zero => simpa [collect] using h
  | succ bound ih =>
    simp only [collect]
    split
    · simpa using h
    · exact ih _ _ (List.forall_mem_cons.mpr ⟨reads c, h⟩)

theorem isIdentifier_of_mem_sourceLexemes {text name : String}
    (h : .identifier name ∈ sourceLexemes text) : isIdentifier name := by
  obtain ⟨t, mem, lexeme⟩ := List.mem_map.mp h
  exact TokenStream.forall_mem_collect
    (p := fun t => ∀ name, t.lexeme = .identifier name → isIdentifier name)
    (fun _ _ => isIdentifier_of_next) _ _ [] (by simp) t mem name lexeme

theorem ofSpelling?_of_mem_sourceLexemes {text name : String}
    (h : .identifier name ∈ sourceLexemes text) : Keyword.ofSpelling? name = none :=
  ofSpelling?_of_isIdentifier (isIdentifier_of_mem_sourceLexemes h)

theorem Token.readable_of_isTerminal {t : Token} (h : t.lexeme.isTerminal) : t.Readable := by
  obtain ⟨lexeme, line⟩ := t
  cases lexeme <;> simp_all [Token.Readable, Token.kind, Lexeme.kind, Lexeme.isTerminal]

theorem Token.exists_fault {t : Token} (h : ¬ t.Readable) : ∃ f, t.lexeme = .fault f := by
  obtain ⟨lexeme, line⟩ := t
  cases lexeme <;> simp_all [Token.Readable, Token.kind, Lexeme.kind]

theorem takes_of_readable {ahead rest : List Token} {next : Token} (x : Token)
    (tail : Stream' Token) (terminals : Terminals (ahead.map Token.lexeme))
    (readable : next.Readable) :
    Takes (Stream'.cons x ((ahead ++ next :: rest) ++ₛ tail)) (ahead.map Token.lexeme) := by
  induction ahead generalizing x with
  | nil => trivial
  | cons token ahead ih =>
    refine ⟨rfl, ?_, ih token (terminals_cons.mp terminals).2⟩
    cases ahead with
    | nil => exact readable
    | cons second ahead =>
      apply Token.readable_of_isTerminal
      exact terminals second.lexeme (by simp)

theorem takes_all_iff {input : TokenStream} {ls : List Lexeme}
    (inside : .endOfInput ∉ input.upcoming.map Token.lexeme) (terminals : Terminals ls)
    (t : Token) :
    (input.next.1.Readable ∧ Takes (Stream'.cons t input.toStream) ls ∧
      (input.toStream.get ls.length).lexeme = .endOfInput) ↔
      input.upcoming.map Token.lexeme = ls := by
  obtain ⟨upcoming, endLine⟩ := input
  induction ls generalizing upcoming t with
  | nil =>
    cases upcoming with
    | nil =>
      simp only [TokenStream.next_nil, takes_nil, List.map_nil, true_and, iff_true]
      exact ⟨by simp [Token.Readable, Token.kind, Lexeme.kind], rfl⟩
    | cons token upcoming =>
      simp only [List.map_cons, List.mem_cons, not_or] at inside
      simp only [takes_nil, true_and, List.map_cons, reduceCtorEq, iff_false]
      rintro ⟨-, ended⟩
      exact inside.1 ended.symm
  | cons l ls ih =>
    cases upcoming with
    | nil =>
      simp only [List.map_nil, reduceCtorEq, iff_false, takes_cons]
      rintro ⟨-, ⟨first, -⟩, -⟩
      have first : Lexeme.endOfInput = l := first
      subst first
      exact absurd (terminals _ (List.mem_cons_self ..)) (by simp [Lexeme.isTerminal])
    | cons token upcoming =>
      simp only [List.map_cons, List.mem_cons, not_or] at inside
      have step := ih (terminals_cons.mp terminals).2 token upcoming inside.2
      have second : ((⟨upcoming, endLine⟩ : TokenStream).toStream.get 0).Readable ↔
          (⟨upcoming, endLine⟩ : TokenStream).next.1.Readable := by
        rw [TokenStream.toStream_next]
        rfl
      rw [List.map_cons, List.cons.injEq, ← step, ← second]
      constructor
      · rintro ⟨-, ⟨first, readable, more⟩, ended⟩
        exact ⟨first, readable, more, ended⟩
      · rintro ⟨first, readable, more, ended⟩
        have terminal : token.lexeme.isTerminal := first ▸ (terminals_cons.mp terminals).1
        exact ⟨Token.readable_of_isTerminal terminal, ⟨first, readable, more⟩, ended⟩

def CompilerState.start (text : String) (traced : Bool) : CompilerState :=
  (CompilerState.ofString text traced).shifted

theorem CompilerState.window_start (text : String) (traced : Bool) :
    (start text traced).window = Stream'.cons (CompilerState.ofString text traced).peek
      (TokenStream.ofString text).toStream := by
  rw [start, window_shifted]
  rfl

theorem CompilerState.remaining_start (text : String) (traced : Bool) :
    ∃ rest, (start text traced).remaining = (TokenStream.ofString text).upcoming ++ rest := by
  show ∃ rest, (TokenStream.ofString text).next.1 :: (TokenStream.ofString text).next.2.toList = _
  obtain ⟨upcoming, endLine⟩ := TokenStream.ofString text
  cases upcoming with
  | nil => exact ⟨_, rfl⟩
  | cons token upcoming => exact ⟨_, rfl⟩

/-- What is left of a result for those who do not go on after an error. -/
def Compilation.outcome :
    EStateM.Result CompileError CompilerState Unit → Except CompileError CompilerState
  | .ok () s => .ok s
  | .error e _ => .error e

theorem Compilation.outcome_eq_ok {r : EStateM.Result CompileError CompilerState Unit}
    {t : CompilerState} : outcome r = .ok t ↔ r = .ok () t := by
  cases r <;> simp [outcome]

theorem finalState_of_decoded {source : ByteArray} {text : String}
    (decoded : String.fromUTF8? source = some text) (traced : Bool) :
    finalState source traced = Compilation.outcome
      ((Compilation.advance >>= fun _ => Compilation.wholeClass) (.ofString text traced)) := by
  unfold finalState
  rw [decoded]
  rfl

/-- A text that is given by its characters need not be encoded and decoded. This is how texts that
are written out below are compiled. -/
theorem compile_ofList (cs : List Char) :
    compile (String.ofList cs).toUTF8 =
      (Compilation.outcome ((Compilation.advance >>= fun _ => Compilation.wholeClass)
        { input := .ofCursor ⟨cs, 1, 0⟩ })).map CompilerState.code := by
  rw [compile, finalState_of_decoded (fromUTF8?_toUTF8 _), CompilerState.ofString,
    TokenStream.ofString, Cursor.ofString, String.toList_ofList]
  rfl

theorem finalState_of_fault {source : ByteArray} {text : String} {f : Fault}
    (decoded : String.fromUTF8? source = some text)
    (fault : (TokenStream.ofString text).next.1.lexeme = .fault f) (traced : Bool) :
    finalState source traced = .error (.unreadable (TokenStream.ofString text).next.1.line f) := by
  have failed : Compilation.advance (.ofString text traced) =
      .error (.unreadable (TokenStream.ofString text).next.1.line f) (.start text traced) := by
    unfold Compilation.advance
    simp only [CompilerState.ofString, fault]
    rfl
  rw [finalState_of_decoded decoded, Compilation.bind_error failed]
  rfl

theorem finalState_of_readable {source : ByteArray} {text : String}
    (decoded : String.fromUTF8? source = some text)
    (readable : (TokenStream.ofString text).next.1.Readable) (traced : Bool) :
    finalState source traced =
      Compilation.outcome (Compilation.wholeClass (.start text traced)) := by
  have ran : Compilation.advance (.ofString text traced) = .ok () (.start text traced) :=
    Compilation.advance_eq_ok.mpr ⟨readable, rfl⟩
  rw [finalState_of_decoded decoded, Compilation.bind_ok ran]

theorem finalState_eq_ok {source : ByteArray} {traced : Bool} {t : CompilerState} :
    finalState source traced = .ok t ↔ ∃ text, String.fromUTF8? source = some text ∧
      (TokenStream.ofString text).next.1.Readable ∧
      Compilation.wholeClass (.start text traced) = .ok () t := by
  cases decoded : String.fromUTF8? source with
  | none => simp [finalState, decoded]
  | some text =>
    simp only [Option.some.injEq, exists_eq_left']
    by_cases readable : (TokenStream.ofString text).next.1.Readable
    · rw [finalState_of_readable decoded readable, Compilation.outcome_eq_ok]
      exact (and_iff_right readable).symm
    · obtain ⟨f, fault⟩ := Token.exists_fault readable
      rw [finalState_of_fault decoded fault]
      simp [readable]

theorem compile_eq_ok {source : ByteArray} {code : Code} :
    compile source = .ok code ↔ ∃ t, finalState source false = .ok t ∧ t.code = code := by
  rw [compile]
  cases finalState source false <;> simp [Except.map]

end JackVm

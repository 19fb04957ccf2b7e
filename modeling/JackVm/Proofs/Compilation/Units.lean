import JackVm.Proofs.Compilation.Acceptance
import JackVm.Proofs.Compilation.Beginnings
import JackVm.Proofs.Compilation.Session

/-!
# Units

A unit is a source that compiles on its own. When the tokens of a unit come next in a session, the
unit is compiled as if nothing had been before. Names, labels and code that earlier units or
failures have left behind stay what they are, or are forgotten before they are looked at.
-/

namespace JackVm

structure CompiledUnit where
  source : ByteArray
  text : String
  code : Code
  decoded : String.fromUTF8? source = some text
  compiled : compile source = .ok code

namespace CompiledUnit

theorem exists_tree (unit : CompiledUnit) : ∃ c : ClassDec,
    c.lexemes = sourceLexemes unit.text ∧ c.Valid ∧ unit.code.instructions = c.code ∧
      unit.code = .ofRows (c.output.rows (CompilerState.start unit.text false).lineAt) := by
  obtain ⟨t, run, code⟩ := compile_eq_ok.mp unit.compiled
  obtain ⟨text, c, decoded, derives, valid, p⟩ := finalState_yields run
  obtain rfl : text = unit.text := Option.some.inj (decoded.symm.trans unit.decoded)
  refine ⟨c, derives, valid, ?_, ?_⟩
  · rw [← code, p.instructions, c.code_output]
    rfl
  · rw [← code, p.code_eq c.output_aligned]
    rfl

def HasName (unit : CompiledUnit) (name : String) : Prop :=
  (sourceLexemes unit.text)[1]? = some (.identifier name)

/-- In whatever state the tokens of a unit come next, they are compiled as they are alone. -/
theorem wholeClass_eq (unit : CompiledUnit) (s : CompilerState) {ahead rest : List Token}
    {next : Token} (here : s.remaining = ahead ++ next :: rest)
    (spelled : ahead.map Token.lexeme = sourceLexemes unit.text) (readable : next.Readable) :
    ∃ (t : CompilerState) (rows : List (Row UInt32)),
      Compilation.wholeClass s = (if next.kind = .endOfInput then .ok () t
        else .error (.atToken next (.expected [.endOfInput])) t) ∧
      t.peek = next ∧ unit.HasName t.className ∧
      t.code = s.code.appendRows rows ∧
      rows.map Row.instruction = unit.code.instructions ∧
      (ahead.map Token.line = (TokenStream.ofString unit.text).upcoming.map Token.line →
        unit.code = .ofRows rows) := by
  obtain ⟨c, derives, valid, instructions, code⟩ := unit.exists_tree
  have lexemes : ahead.map Token.lexeme = c.lexemes := spelled.trans derives.symm
  have length : c.lexemes.length = ahead.length := by
    rw [← lexemes, List.length_map]
  have window := s.window_eq
  rw [here] at window
  have takes : Takes s.window c.lexemes := by
    rw [window, ← lexemes]
    exact takes_of_readable _ _ (lexemes ▸ c.terminals) readable
  obtain ⟨t, p, named, run⟩ := Compilation.wholeClass_eq valid takes
  have peek : t.peek = next := by
    rw [← t.window_get_one, p.window, c.lexemes_output, Stream'.get_drop, length, window,
      Stream'.append_append_stream]
    exact Stream'.get_append_length _ _
  refine ⟨t, c.output.rows s.lineAt, ?_, peek, ?_, p.code_eq c.output_aligned, ?_, fun lines => ?_⟩
  · rw [run, peek]
  · rw [HasName, ← derives, named]
    rfl
  · rw [Output.instruction_rows _ c.output_aligned, c.code_output, instructions]
  · rw [code]
    apply congrArg Code.ofRows
    apply Output.rows_congr
    intro place mem
    have inside := c.output_anchored place mem
    rw [c.lexemes_output, length] at inside
    have same : (TokenStream.ofString unit.text).upcoming.length = ahead.length := by
      simpa using (congrArg List.length lines).symm
    obtain ⟨more, start⟩ := CompilerState.remaining_start unit.text false
    have line := CompilerState.line_of_remaining here (by omega) (by omega : place ≤ ahead.length)
    have alone := CompilerState.line_of_remaining start (by omega : 1 ≤ place) (by omega)
    rw [lines] at line
    exact Option.some.inj (alone.symm.trans line)

end CompiledUnit

/-! ## Several units -/

private theorem answer_wholeClass {s t : CompilerState} {p : Prop} [Decidable p]
    {e : CompileError} (run : Compilation.wholeClass s = if p then .ok () t else .error e t) :
    (Call.answer .wholeClass s).2 = t := by
  show (Answer.ofResult (Compilation.wholeClass s)).2 = t
  rw [run]
  split <;> rfl

/-- Calls for one class after the other compile the units that lie ahead one after the other. -/
theorem session_of_takes (units : List CompiledUnit) {s : CompilerState}
    (takes : Takes s.window (units.flatMap fun unit => sourceLexemes unit.text)) :
    (session (List.replicate units.length .wholeClass) s).2.code.instructions =
      s.code.instructions ++ units.flatMap fun unit => unit.code.instructions := by
  induction units generalizing s with
  | nil => simp [session]
  | cons unit units ih =>
    obtain ⟨c, derives, valid, instructions, -⟩ := unit.exists_tree
    rw [List.flatMap_cons, ← derives] at takes
    obtain ⟨t, p, -, run⟩ := Compilation.wholeClass_eq valid ((takes_append ..).mp takes).1
    have rest := ih (p.takes_rest _ (by rw [c.lexemes_output]; exact takes))
    rw [p.instructions, c.code_output, ← instructions, List.append_assoc] at rest
    show (session (List.replicate units.length .wholeClass)
      (Call.answer .wholeClass s).2).2.code.instructions = _
    -- Whether the call fails at the next unit or not, it ends behind this one.
    rw [answer_wholeClass run]
    exact rest

/-- However a session has gone so far, a unit whose tokens come next is compiled as it is alone,
and what follows it decides only whether the call succeeds. So a text of several units is compiled
to the code of one after the other. -/
theorem session_compiles_units :
    (∀ (source : String) (traced : Bool) (calls : List Call) (unit : CompiledUnit)
      (ahead rest : List Token) (next : Token) (s : CompilerState),
      (session calls (.ofString source traced)).2 = s → s.remaining = ahead ++ next :: rest →
      ahead.map Token.lexeme = sourceLexemes unit.text → next.Readable →
      ∃ (t : CompilerState) (rows : List (Row UInt32)),
        Compilation.wholeClass s = (if next.kind = .endOfInput then .ok () t
          else .error (.atToken next (.expected [.endOfInput])) t) ∧
        t.peek = next ∧ unit.HasName t.className ∧
        t.code = s.code.appendRows rows ∧
        rows.map Row.instruction = unit.code.instructions ∧
        (ahead.map Token.line = (TokenStream.ofString unit.text).upcoming.map Token.line →
          unit.code = .ofRows rows)) ∧
    ∀ (source : String) (traced : Bool) (units : List CompiledUnit),
      sourceLexemes source = units.flatMap (fun unit => sourceLexemes unit.text) →
      (session (.advance :: List.replicate units.length .wholeClass)
        (.ofString source traced)).2.code.instructions =
        units.flatMap fun unit => unit.code.instructions := by
  constructor
  · intro source traced calls unit ahead rest next s _ here spelled readable
    exact unit.wholeClass_eq s here spelled readable
  · intro source traced units spelled
    have terminals : Terminals (units.flatMap fun unit => sourceLexemes unit.text) := by
      refine terminals_flatMap.mpr fun unit _ => ?_
      obtain ⟨c, derives, -⟩ := unit.exists_tree
      exact derives ▸ c.terminals
    obtain ⟨readable, takes, -⟩ := (takes_all_iff (endOfInput_not_mem_sourceLexemes source)
      terminals (CompilerState.ofString source traced).peek).mpr spelled
    rw [← CompilerState.window_start] at takes
    have advanced : Compilation.advance (.ofString source traced) = .ok () (.start source traced) :=
      Compilation.advance_eq_ok.mpr ⟨readable, rfl⟩
    have first : (Call.answer .advance (.ofString source traced)).2 = .start source traced := by
      show (Answer.ofResult (Compilation.advance (.ofString source traced))).2 = _
      rw [advanced]
      rfl
    show (session (List.replicate units.length .wholeClass)
      (Call.answer .advance (.ofString source traced)).2).2.code.instructions = _
    rw [first, session_of_takes units takes]
    rfl

/-- A session that goes on after a class has failed inside a loop of a method. -/
theorem session_compiles_units_after_error :
    ∃ (unit : CompiledUnit) (rows : List (Row UInt32)) (s t : CompilerState),
      (session [.advance, .wholeClass] (.ofString "class A \x7b field int x;
        method void f() \x7b while (true) \x7b
        class B \x7b function void g() \x7b while (x()) \x7b \x7d return; \x7d \x7d
        class C \x7b \x7d" false)).2 = s ∧
      s.className = "A" ∧ s.whileLabels = 1 ∧ s.code.size = 10 ∧
      Compilation.wholeClass s =
        .error (.atToken ⟨.keyword .class, 4⟩ (.expected [.endOfInput])) t ∧
      unit.HasName t.className ∧ unit.code = .ofRows rows ∧ t.code = s.code.appendRows rows ∧
      unit.code.instructions = [.function "B.g" 0, .label "WHILE_EXP0", .push .pointer 0,
        .call "B.x" 1, .arithmetic .not, .ifGoto "WHILE_END0", .goto "WHILE_EXP0",
        .label "WHILE_END0", .push .constant 0, .return] ∧
      (session [.advance, .wholeClass, .wholeClass] (.ofString
        "class B \x7b function void g() \x7b while (x()) \x7b \x7d return; \x7d \x7d
        class B \x7b function void g() \x7b while (x()) \x7b \x7d return; \x7d \x7d"
        true)).2.code.instructions = unit.code.instructions ++ unit.code.instructions := by
  let text := "\n\nclass B \x7b function void g() \x7b while (x()) \x7b \x7d return; \x7d \x7d"
  let code : Code := .ofRows [⟨.function "B.g" 0, 3⟩, ⟨.label "WHILE_EXP0", 3⟩,
    ⟨.push .pointer 0, 3⟩, ⟨.call "B.x" 1, 3⟩, ⟨.arithmetic .not, 3⟩, ⟨.ifGoto "WHILE_END0", 3⟩,
    ⟨.goto "WHILE_EXP0", 3⟩, ⟨.label "WHILE_END0", 3⟩, ⟨.push .constant 0, 3⟩, ⟨.return, 3⟩]
  have compiled : compile text.toUTF8 = .ok code := by
    rw [compile_ofList]
    decide +kernel
  let unit : CompiledUnit := ⟨text.toUTF8, text, code, fromUTF8?_toUTF8 text, compiled⟩
  let s := (session [.advance, .wholeClass] (.ofString "class A \x7b field int x;
        method void f() \x7b while (true) \x7b
        class B \x7b function void g() \x7b while (x()) \x7b \x7d return; \x7d \x7d
        class C \x7b \x7d" false)).2
  have reached : s.remaining = (TokenStream.ofString text).upcoming ++ ⟨.keyword .class, 4⟩ ::
        [⟨.identifier "C", 4⟩, ⟨.mark .leftBrace, 4⟩, ⟨.mark .rightBrace, 4⟩, ⟨.endOfInput, 4⟩] ∧
      s.className = "A" ∧ s.whileLabels = 1 ∧ s.code.size = 10 := by
    decide +kernel
  obtain ⟨here, named, loops, size⟩ := reached
  obtain ⟨t, rows, run, -, renamed, written, -, lines⟩ := session_compiles_units.1 _ _ _ unit _ _ _
    s rfl here rfl (fun fault => nomatch fault)
  have spelled : sourceLexemes
      "class B \x7b function void g() \x7b while (x()) \x7b \x7d return; \x7d \x7d
        class B \x7b function void g() \x7b while (x()) \x7b \x7d return; \x7d \x7d" =
      sourceLexemes text ++ (sourceLexemes text ++ []) := by
    decide +kernel
  have both := session_compiles_units.2 _ true [unit, unit] spelled
  have twice : List.replicate [unit, unit].length Call.wholeClass =
      [.wholeClass, .wholeClass] := rfl
  rw [List.flatMap_cons, List.flatMap_singleton, twice] at both
  exact ⟨unit, rows, s, t, rfl, named, loops, size, run, renamed, lines rfl, written, rfl, both⟩

end JackVm

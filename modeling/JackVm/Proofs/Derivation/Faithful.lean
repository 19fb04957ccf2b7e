import JackVm.Proofs.Compilation.Translation
import JackVm.Proofs.Derivation.Lines
import JackVm.Proofs.Derivation.Nesting
import JackVm.Proofs.Derivation.Recorded
import JackVm.Proofs.Derivation.Uniqueness
import JackVm.Proofs.Token.Partition

/-!
# Traces are derivations

The trace of a source that compiles shows the derivation of the source, line by line, and the
derivation can be read back from it. So the trace tells all the tokens of the source, and with them
its code.
-/

namespace JackVm

/-- What the text of a trace shows of a source. -/
structure Derivation.ShownBy (d : Derivation) (trace : String) (source : List Lexeme) : Prop where
  /-- The text has one line for each event, every line ended. -/
  lines_eq : trace.toList.splitOn '\n' = d.lines 0 ++ [[]]
  terminals : (trace.toList.splitOn '\n').filterMap Lexeme.ofLine? = source
  read : Derivation.ofText? trace = some d
  root : ∃ children, d = .node .class children
  grammatical : d.Grammatical
  lexemes_eq : d.lexemes = source
  unique (other : Derivation) : other.Grammatical → (∃ children, other = .node .class children) →
    other.lexemes = source → other = d

theorem newline_not_mem_of_mem_sourceLexemes {text : String} {l : Lexeme}
    (h : l ∈ sourceLexemes text) : '\n' ∉ l.value.toList := by
  obtain ⟨t, mem, lexeme⟩ := List.mem_map.mp h
  have one := TokenStream.forall_mem_collect (p := fun t => '\n' ∉ t.lexeme.value.toList)
    (fun c => ?_) _ _ [] (by simp) t mem
  · rw [← lexeme]
    exact one
  · rcases c.next_piece with ended | ⟨slice, rest, piece⟩
    · rw [ended]
      decide
    · exact piece.newline_not_mem_value

theorem Derivation.shownBy_text {d : Derivation} {text : String} (terminals : Terminals d.lexemes)
    (root : ∃ children, d = .node .class children) (grammatical : d.Grammatical)
    (lexemes_eq : d.lexemes = sourceLexemes text) :
    d.ShownBy (Trace.text ⟨d.events.toArray⟩) (sourceLexemes text) := by
  have written : (Trace.text ⟨d.events.toArray⟩).toList = unlines (d.lines 0) := by
    have whole := toList_write 0 [] d
    rw [List.append_nil] at whole
    rw [Trace.text, List.toList_toArray, whole]
    exact List.append_nil _
  have lines_eq : (Trace.text ⟨d.events.toArray⟩).toList.splitOn '\n' = d.lines 0 ++ [[]] := by
    rw [written]
    apply splitOn_unlines
    apply newline_not_mem_lines
    intro l mem
    exact newline_not_mem_of_mem_sourceLexemes (lexemes_eq ▸ mem)
  refine ⟨lines_eq, ?_, ?_, root, grammatical, lexemes_eq, fun other grammatical' root' same =>
    grammatical'.unique grammatical root' root (same.trans lexemes_eq.symm)⟩
  · rw [lines_eq, List.filterMap_append, filterMap_lines 0 d terminals, lexemes_eq]
    exact List.append_nil _
  · rw [ofText?, lines_eq, List.dropLast_concat, ← List.append_nil (d.lines 0),
      ofLines?_lines 0 [] [] [] d terminals]
    rfl

theorem compileTraced_yields {source : ByteArray} {code : Code} {trace : String}
    (h : compileTraced source = .ok (code, trace)) :
    ∃ (text : String) (c : ClassDec) (d : Derivation), String.fromUTF8? source = some text ∧
      c.lexemes = sourceLexemes text ∧ code.instructions = c.code ∧
      d.ShownBy trace (sourceLexemes text) := by
  rw [compileTraced] at h
  cases run : finalState source true with
  | error e =>
    rw [run] at h
    cases h
  | ok t =>
    rw [run] at h
    have same : (t.code, (t.trace.getD {}).text) = (code, trace) := Except.ok.inj h
    obtain ⟨text, c, decoded, derives, -, p⟩ := finalState_yields run
    obtain ⟨d, events, lexemes, root, grammatical⟩ := c.exists_derivation
    have traced : t.trace = some ⟨d.events.toArray⟩ := by
      rw [p.trace, ← events]
      show some (Trace.mk (#[] ++ c.output.events.toArray)) = _
      rw [Array.empty_append]
    rw [traced] at same
    have code_eq : t.code = code := congrArg Prod.fst same
    have trace_eq : Trace.text ⟨d.events.toArray⟩ = trace := congrArg Prod.snd same
    refine ⟨text, c, d, decoded, derives, ?_, ?_⟩
    · rw [← code_eq, p.instructions, c.code_output]
      rfl
    · rw [← trace_eq]
      exact d.shownBy_text (lexemes ▸ c.terminals) root grammatical (lexemes.trans derives)

/-- The trace of a source that compiles shows the derivation of the source, from which it can be
read back. Sources with one trace have one code. No session closes a production that is not
open. -/
theorem traces_show_derivations :
    (∀ (source : ByteArray) (code : Code) (trace : String),
      compileTraced source = .ok (code, trace) →
      ∃ (text : String) (d : Derivation), String.fromUTF8? source = some text ∧
        d.ShownBy trace (sourceLexemes text)) ∧
    (∀ (source source' : ByteArray) (code code' : Code) (trace : String),
      compileTraced source = .ok (code, trace) → compileTraced source' = .ok (code', trace) →
      code.text = code'.text) ∧
    ∀ (text : String) (traced : Bool) (calls : List Call) (trace : Trace)
      (before after : List TraceEvent),
      (session calls (.ofString text traced)).2.trace = some trace →
      trace.events.toList = before ++ .closed :: after →
      before.count .closed < before.countP TraceEvent.isOpened := by
  refine ⟨fun source code trace h => ?_, fun source source' code code' trace h h' => ?_,
    fun text traced calls trace before after kept split => ?_⟩
  · obtain ⟨text, c, d, decoded, -, -, shown⟩ := compileTraced_yields h
    exact ⟨text, d, decoded, shown⟩
  · obtain ⟨text, c, d, -, derives, instructions, shown⟩ := compileTraced_yields h
    obtain ⟨text', c', d', -, derives', instructions', shown'⟩ := compileTraced_yields h'
    have one : c = c' := by
      apply ClassDec.lexemes_injective
      rw [derives, derives', ← shown.terminals, ← shown'.terminals]
    rw [Code.text, Code.text, instructions, instructions', one]
  · obtain ⟨m, nested⟩ := open_session calls (CompilerState.open_ofString text traced)
    have all := nested trace kept
    rw [Trace.open?, split] at all
    have fewer := count_closed_lt all
    rwa [Nat.zero_add] at fewer

theorem compileTraced_eq_ok {source : ByteArray} {code : Code} {trace : Trace}
    (h : (finalState source true).map (fun s => (s.code, s.trace)) = .ok (code, some trace)) :
    compileTraced source = .ok (code, trace.text) := by
  rw [compileTraced]
  cases run : finalState source true with
  | error e =>
    rw [run] at h
    cases h
  | ok s =>
    rw [run] at h
    have same : (s.code, s.trace) = (code, some trace) := Except.ok.inj h
    rw [Prod.mk.injEq] at same
    show Except.ok (s.code, (s.trace.getD {}).text) = _
    rw [same.1, same.2]
    rfl

/-- The value of the string looks like the end of a line that closes a production. The second source
differs from the first in its lines only, and the third ends in an error behind a declaration. -/
theorem traces_show_derivations_quoted :
    ∃ (source source' : ByteArray) (code code' : Code) (trace : String) (kept : Trace)
      (before : List TraceEvent),
      compileTraced source = .ok (code, trace) ∧ compileTraced source' = .ok (code', trace) ∧
      code ≠ code' ∧
      (∃ (text : String) (d : Derivation), String.fromUTF8? source = some text ∧
        d.ShownBy trace (sourceLexemes text)) ∧
      code.text = code'.text ∧
      (session [.advance, .wholeClass] (.ofString "class A \x7b field int x; 1" true)).2.trace =
        some kept ∧
      kept.events.toList = before ++ [.closed] ∧
      before.count .closed < before.countP TraceEvent.isOpened := by
  let source := "class A \x7b function String f() \x7b return \"')\"; \x7d \x7d".toUTF8
  let source' := "class A \x7b //\nfunction String f() \x7b return \"')\"; \x7d \x7d".toUTF8
  let code (line : UInt32) : Code := .ofRows [⟨.function "A.f" 0, line⟩, ⟨.push .constant 2, line⟩,
    ⟨.call "String.new" 1, line⟩, ⟨.push .constant 39, line⟩, ⟨.call "String.appendChar" 2, line⟩,
    ⟨.push .constant 41, line⟩, ⟨.call "String.appendChar" 2, line⟩, ⟨.return, line⟩]
  let events : List TraceEvent := [.opened "class", .terminal (.keyword .class),
    .terminal (.identifier "A"), .terminal (.mark .leftBrace), .opened "subroutineDec",
    .terminal (.keyword .function), .terminal (.identifier "String"), .terminal (.identifier "f"),
    .terminal (.mark .leftParen), .opened "parameterList", .closed, .terminal (.mark .rightParen),
    .opened "subroutineBody", .terminal (.mark .leftBrace), .opened "statements",
    .opened "returnStatement", .terminal (.keyword .return), .opened "expression", .opened "term",
    .terminal (.string "')"), .closed, .closed, .terminal (.mark .semicolon), .closed, .closed,
    .terminal (.mark .rightBrace), .closed, .closed, .terminal (.mark .rightBrace), .closed]
  let before : List TraceEvent := [.opened "class", .terminal (.keyword .class),
    .terminal (.identifier "A"), .terminal (.mark .leftBrace), .opened "classVarDec",
    .terminal (.keyword .field), .terminal (.keyword .int), .terminal (.identifier "x"),
    .terminal (.mark .semicolon)]
  have run : compileTraced source = .ok (code 1, Trace.text ⟨events.toArray⟩) :=
    compileTraced_eq_ok (by decide +kernel)
  have run' : compileTraced source' = .ok (code 2, Trace.text ⟨events.toArray⟩) :=
    compileTraced_eq_ok (by decide +kernel)
  have failed : (session [.advance, .wholeClass]
      (.ofString "class A \x7b field int x; 1" true)).2.trace =
      some ⟨(before ++ [TraceEvent.closed]).toArray⟩ := by
    decide +kernel
  exact ⟨source, source', code 1, code 2, _, ⟨(before ++ [TraceEvent.closed]).toArray⟩, before, run,
    run', by decide, traces_show_derivations.1 _ _ _ run,
    traces_show_derivations.2.1 _ _ _ _ _ run run', failed, rfl,
    traces_show_derivations.2.2 _ _ _ _ before [] failed rfl⟩

end JackVm

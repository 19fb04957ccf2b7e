import JackVm.Compilation.Statement
import JackVm.Proofs.Compilation.ExpressionSound

/-!
# Compiled statements have a tree

The statements nested in a conditional or a loop are a parameter here, as they are in what is
compiled. Labels are numbered from the counters of the state in which a statement begins.
-/

namespace JackVm.Compilation

open Output

/-- Whether each success of a compilation is that of a row of statements. -/
def YieldsStatements (c : Compilation Unit) : Prop :=
  ∀ s t, c s = .ok () t → ∃ body : List Statement,
    (∀ u ∈ statementUses body, u.Permitted s.environment) ∧
    Compiles s (within .statements
      (statementOutput s.environment s.ifLabels s.whileLabels body)) t

variable {s t : CompilerState} {bound : Nat}

theorem letStatement_yields (h : letStatement bound s = .ok () t) :
    ∃ st : Statement, (∀ u ∈ st.uses, u.Permitted s.environment) ∧
      Compiles s (st.output s.environment s.ifLabels s.whileLabels) t := by
  rw [letStatement, production_eq_ok] at h
  obtain ⟨r, run, rfl⟩ := h
  simp only [bind_eq_ok, peekKind_bind] at run
  obtain ⟨_, r₁, opened, _, r₂, named, v, _, resolved, run⟩ := run
  obtain ⟨found, rfl⟩ := resolveCurrent_eq_ok.mp resolved
  obtain ⟨name, p₂, text⟩ := compiles_of_identifier named
  have p := (compiles_of_keyword opened).trans p₂
  rw [text] at found
  have declared : (Use.variable name).Permitted s.environment := by
    show ((s.entered .letStatement).environment.find? name).isSome
    rw [← p.environment, found]
    rfl
  split at run
  · simp only [bind_eq_ok, currentLine_bind, emitAll_bind] at run
    obtain ⟨_, r₃, addressed, _, r₄, equals, _, r₅, ran, ended⟩ := run
    obtain ⟨index, permitted, pi, -⟩ :=
      elementAddress_yields (expression_yields bound) found addressed
    rw [p.environment] at permitted pi
    have q := (p.trans pi).trans (compiles_of_mark equals)
    obtain ⟨value, permitted', pv⟩ := expression_yields bound _ _ ran
    rw [q.environment] at permitted' pv
    refine ⟨.letElement name index value, List.forall_mem_cons.mpr
      ⟨declared, List.forall_mem_append.mpr ⟨permitted, permitted'⟩⟩, ?_⟩
    exact (((q.trans pv).trans (.wrote r₅ _ 0)).trans (compiles_of_mark ended)).within
  · simp only [bind_eq_ok, currentLine_bind, emit_bind] at run
    obtain ⟨_, r₃, equals, _, r₄, ran, ended⟩ := run
    have q := p.trans (compiles_of_mark equals)
    obtain ⟨value, permitted, pv⟩ := expression_yields bound _ _ ran
    rw [q.environment] at permitted pv
    have stored : s.environment.store name = [v.pop] :=
      Environment.store_of_find? (p.environment ▸ found)
    refine ⟨.let name value, List.forall_mem_cons.mpr ⟨declared, permitted⟩, ?_⟩
    rw [Statement.output, stored]
    exact (((q.trans pv).trans (.wrote r₄ [v.pop] 0)).trans (compiles_of_mark ended)).within

theorem doStatement_yields (h : doStatement bound s = .ok () t) :
    ∃ st : Statement, (∀ u ∈ st.uses, u.Permitted s.environment) ∧
      Compiles s (st.output s.environment s.ifLabels s.whileLabels) t := by
  rw [doStatement, production_eq_ok] at h
  obtain ⟨r, run, rfl⟩ := h
  simp only [bind_eq_ok, currentText_bind, currentLine_bind, emit_run] at run
  obtain ⟨_, r₁, opened, _, r₂, named, _, r₃, ran, _, r₄, ended, done⟩ := run
  cases done
  obtain ⟨name, p₂, text⟩ := compiles_of_identifier named
  have p := (compiles_of_keyword opened).trans p₂
  rw [text] at ran
  obtain ⟨callee, arguments, rfl, permitted, pc⟩ := call_yields (expression_yields bound) ran
  rw [p.environment] at permitted pc
  exact ⟨.do callee arguments, permitted,
    (((p.trans pc).trans (compiles_of_mark ended)).trans (.wrote r₄ [.pop .temp 0] 0)).within⟩

theorem returnStatement_yields (h : returnStatement bound s = .ok () t) :
    ∃ st : Statement, (∀ u ∈ st.uses, u.Permitted s.environment) ∧
      Compiles s (st.output s.environment s.ifLabels s.whileLabels) t := by
  rw [returnStatement, production_eq_ok] at h
  obtain ⟨r, run, rfl⟩ := h
  simp only [bind_eq_ok, peekKind_bind] at run
  obtain ⟨_, r₁, opened, run⟩ := run
  have p := compiles_of_keyword opened
  split at run
  · simp only [bind_eq_ok, currentLine_bind, emit_bind, emit_run] at run
    obtain ⟨_, r₂, ended, done⟩ := run
    cases done
    exact ⟨.return none, by simp [Statement.uses],
      (((p.trans (.wrote r₁ [.push .constant 0] 0)).trans (compiles_of_mark ended)).trans
        (.wrote r₂ [.return] 0)).within⟩
  · simp only [bind_eq_ok, currentLine_bind, emit_run] at run
    obtain ⟨_, r₂, ran, _, r₃, ended, done⟩ := run
    cases done
    obtain ⟨value, permitted, pv⟩ := expression_yields bound _ _ ran
    rw [p.environment] at permitted pv
    exact ⟨.return (some value), permitted,
      (((p.trans pv).trans (compiles_of_mark ended)).trans (.wrote r₃ [.return] 0)).within⟩

section
variable {statements : Compilation Unit} (sound : YieldsStatements statements)
include sound

theorem block_yields (h : block statements s = .ok () t) :
    ∃ body : List Statement, (∀ u ∈ statementUses body, u.Permitted s.environment) ∧
      Compiles s (blockOutput (within .statements
        (statementOutput s.environment s.ifLabels s.whileLabels body))) t := by
  simp only [block, bind_eq_ok] at h
  obtain ⟨_, r₁, opened, _, r₂, ran, closed⟩ := h
  have p := compiles_of_mark opened
  obtain ⟨body, permitted, pb⟩ := sound _ _ ran
  rw [p.environment] at permitted pb
  rw [p.ifLabels, p.whileLabels] at pb
  exact ⟨body, permitted, (p.trans pb).trans (compiles_of_mark closed)⟩

theorem whileStatement_yields (h : whileStatement statements bound s = .ok () t) :
    ∃ st : Statement, (∀ u ∈ st.uses, u.Permitted s.environment) ∧
      Compiles s (st.output s.environment s.ifLabels s.whileLabels) t := by
  rw [whileStatement, production_eq_ok] at h
  obtain ⟨r, run, rfl⟩ := h
  simp only [nextWhileLabel_bind, peekLine_bind, emit_bind, bind_eq_ok, currentLine_bind,
    emitAll_bind] at run
  obtain ⟨_, r₁, keyword, _, r₂, opened, _, r₃, ran, _, r₄, closed, _, r₅, braced, _, r₆, nested,
    ended⟩ := run
  have p := (((Compiles.oneWhile (s.entered .whileStatement)).trans
    (.wrote _ [.label (whileStartLabel s.whileLabels)] 1)).trans
    (compiles_of_keyword keyword)).trans (compiles_of_mark opened)
  obtain ⟨condition, permitted, pc⟩ := expression_yields bound _ _ ran
  rw [p.environment] at permitted pc
  have q := (((p.trans pc).trans (.wrote r₃ [.arithmetic .not,
    .ifGoto (whileEndLabel s.whileLabels)] 0)).trans (compiles_of_mark closed)).trans
    (compiles_of_mark braced)
  obtain ⟨body, permitted', pb⟩ := sound _ _ nested
  have ifs : r₅.ifLabels = s.ifLabels := by
    simpa [(condition.output_amounts _).ifs_eq] using q.ifLabels
  have whiles : r₅.whileLabels = s.whileLabels + 1 := by
    simpa [(condition.output_amounts _).whiles_eq] using q.whileLabels
  rw [q.environment] at permitted'
  rw [q.environment, ifs, whiles] at pb
  exact ⟨.while condition body, List.forall_mem_append.mpr ⟨permitted, permitted'⟩,
    (((q.trans pb).trans (.wrote r₆ [.goto (whileStartLabel s.whileLabels),
      .label (whileEndLabel s.whileLabels)] 1)).trans (compiles_of_mark ended)).within⟩

theorem ifStatement_yields (h : ifStatement statements bound s = .ok () t) :
    ∃ st : Statement, (∀ u ∈ st.uses, u.Permitted s.environment) ∧
      Compiles s (st.output s.environment s.ifLabels s.whileLabels) t := by
  rw [ifStatement, production_eq_ok] at h
  obtain ⟨r, run, rfl⟩ := h
  simp only [nextIfLabel_bind, CompilerState.entered_ifLabels, bind_eq_ok, currentLine_bind,
    emitAll_bind, peekKind_bind] at run
  obtain ⟨_, r₁, keyword, _, r₂, opened, _, r₃, ran, _, r₄, closed, _, r₅, nested, run⟩ := run
  have p := ((Compiles.oneIf (s.entered .ifStatement)).trans
    (compiles_of_keyword keyword)).trans (compiles_of_mark opened)
  obtain ⟨condition, permitted, pc⟩ := expression_yields bound _ _ ran
  rw [p.environment] at permitted pc
  have q := ((p.trans pc).trans (compiles_of_mark closed)).trans
    (.wrote r₄ [.ifGoto (ifTrueLabel s.ifLabels), .goto (ifFalseLabel s.ifLabels),
      .label (ifTrueLabel s.ifLabels)] 0)
  obtain ⟨body, permitted', pb⟩ := block_yields sound nested
  have ifs := q.ifLabels.trans (show _ = s.ifLabels + 1 by
    simp [(condition.output_amounts _).ifs_eq])
  have whiles := q.whileLabels.trans (show _ = s.whileLabels by
    simp [(condition.output_amounts _).whiles_eq])
  rw [q.environment] at permitted'
  rw [q.environment, ifs, whiles] at pb
  have pif := q.trans pb
  split at run
  · next otherwise =>
    simp only [emitAll_bind, bind_eq_ok, currentLine_bind, emit_run] at run
    obtain ⟨_, r₆, taken, _, r₇, nested', done⟩ := run
    cases done
    obtain ⟨pe, -⟩ := compiles_of_consume taken
    have ahead : (r₅.emitted [.goto (ifEndLabel s.ifLabels), .label (ifFalseLabel s.ifLabels)]
      (r₅.lineAt 0)).peek.lexeme = .keyword .else := Lexeme.kind_eq_keyword.mp otherwise
    rw [ahead] at pe
    have pelse := (pif.trans (.wrote r₅ [.goto (ifEndLabel s.ifLabels),
      .label (ifFalseLabel s.ifLabels)] 0)).trans pe
    obtain ⟨other, permitted'', po⟩ := block_yields sound nested'
    have ifs' := pelse.ifLabels.trans (show _ = s.ifLabels + 1 + ifCount body by
      simp [blockOutput, (condition.output_amounts _).ifs_eq,
        (statementOutput_amounts _ _ _ _).ifs_eq, Nat.add_assoc])
    have whiles' := pelse.whileLabels.trans (show _ = s.whileLabels + whileCount body by
      simp [blockOutput, (condition.output_amounts _).whiles_eq,
        (statementOutput_amounts _ _ _ _).whiles_eq])
    rw [pelse.environment] at permitted''
    rw [pelse.environment, ifs', whiles'] at po
    refine ⟨.ifElse condition body other, ?_, ?_⟩
    · exact List.forall_mem_append.mpr
        ⟨permitted, List.forall_mem_append.mpr ⟨permitted', permitted''⟩⟩
    · exact ((pelse.trans po).trans (.wrote r₇ [.label (ifEndLabel s.ifLabels)] 0)).within
  · rw [emit_run] at run
    cases run
    exact ⟨.if condition body, List.forall_mem_append.mpr ⟨permitted, permitted'⟩,
      (pif.trans (.wrote r₅ [.label (ifFalseLabel s.ifLabels)] 0)).within⟩

theorem statement_yields (h : statement statements bound s = .ok () t)
    (starts : (StatementForm.ofKind? s.peek.kind).isSome) :
    ∃ st : Statement, (∀ u ∈ st.uses, u.Permitted s.environment) ∧
      Compiles s (st.output s.environment s.ifLabels s.whileLabels) t := by
  obtain ⟨form, kind⟩ := Option.isSome_iff_exists.mp starts
  rw [statement, peekKind_bind, kind] at h
  cases form with
  | «let» => exact letStatement_yields h
  | «if» => exact ifStatement_yields sound h
  | «while» => exact whileStatement_yields sound h
  | «do» => exact doStatement_yields h
  | «return» => exact returnStatement_yields h

theorem row_yields {u v : Unit}
    (h : Loops (fun kind => (StatementForm.ofKind? kind).isSome)
      (fun _ => statement statements bound) u s v t) :
    ∃ body : List Statement, (∀ u ∈ statementUses body, u.Permitted s.environment) ∧
      Compiles s (statementOutput s.environment s.ifLabels s.whileLabels body) t := by
  induction h with
  | stop _ s => exact ⟨[], by simp [statementUses], .refl s⟩
  | step again run _ ih =>
    obtain ⟨first, permitted, p⟩ := statement_yields sound run again
    obtain ⟨rest, permitted', q⟩ := ih
    have amounts := first.output_amounts
    rw [p.environment] at permitted'
    rw [p.environment, p.ifLabels, p.whileLabels, (amounts ..).ifs_eq, (amounts ..).whiles_eq] at q
    exact ⟨first :: rest, List.forall_mem_append.mpr ⟨permitted, permitted'⟩, p.trans q⟩

end

theorem statements_yields (bound : Nat) : YieldsStatements (statements bound) := by
  induction bound with
  | zero =>
    intro s t h
    cases h
  | succ bound ih =>
    intro s t h
    rw [statements, production_eq_ok] at h
    obtain ⟨r, run, rfl⟩ := h
    obtain ⟨body, permitted, p⟩ := row_yields ih (loops_of_iterate run)
    exact ⟨body, permitted, p.within⟩

end JackVm.Compilation

import JackVm.Proofs.Compilation.ExpressionComplete
import JackVm.Proofs.Compilation.StatementSound

/-!
# Trees of statements compile

A row of statements ends at a closing brace. A conditional must not be followed by an `else`, which
would belong to it.
-/

namespace JackVm

/-- The form that a statement's first keyword tells. -/
def Statement.form : Statement → Compilation.StatementForm
  | .let _ _ | .letElement _ _ _ => .let
  | .if _ _ | .ifElse _ _ _ => .if
  | .while _ _ => .while
  | .do _ _ => .do
  | .return _ => .return

namespace Compilation

open Output

/-- Whether a compilation succeeds wherever the text of a statement lies ahead that may be used. -/
def CompletesStatement (c : Compilation Unit) (st : Statement) : Prop :=
  ∀ (s : CompilerState) (rest : List Lexeme), Takes s.window (st.lexemes ++ rest) →
    Stops Lexeme.isElse rest → (∀ u ∈ st.uses, u.Permitted s.environment) →
    ∃ t, c s = .ok () t ∧ Compiles s (st.output s.environment s.ifLabels s.whileLabels) t

/-- The same for a row of statements in front of a closing brace. -/
def CompletesStatements (c : Compilation Unit) (body : List Statement) : Prop :=
  ∀ (s : CompilerState) (rest : List Lexeme),
    Takes s.window (statementLexemes body ++ .mark .rightBrace :: rest) →
    (∀ u ∈ statementUses body, u.Permitted s.environment) →
    ∃ t, c s = .ok () t ∧ Compiles s (within .statements
      (statementOutput s.environment s.ifLabels s.whileLabels body)) t

def statementOf (statements : Compilation Unit) (bound : Nat) : StatementForm → Compilation Unit
  | .let => letStatement bound
  | .if => ifStatement statements bound
  | .while => whileStatement statements bound
  | .do => doStatement bound
  | .return => returnStatement bound

section
variable {s t : CompilerState} {rest : List Lexeme} {bound : Nat}

theorem expression_ok (bound : Nat) {e : Expression} {m : Mark}
    (small : 2 * e.lexemes.length + 1 ≤ bound)
    (takes : Takes s.window (e.lexemes ++ .mark m :: rest))
    (permitted : ∀ u ∈ e.uses, u.Permitted s.environment)
    (ends : (Lexeme.mark m).operates = false := by rfl) :
    ∃ t, expression bound s = .ok () t ∧ Compiles s (e.output s.environment) t ∧
      Takes t.window (.mark m :: rest) := by
  obtain ⟨t, run, p⟩ := expression_completes e bound small s _ takes (stops_cons.mpr ends) permitted
  exact ⟨t, run, p, p.takes_rest _ (by simpa using takes)⟩

theorem let_ok {name : String} {value : Expression}
    (small : 2 * (Statement.let name value).lexemes.length + 1 ≤ bound)
    (takes : Takes s.window ((Statement.let name value).lexemes ++ rest))
    (permitted : ∀ u ∈ (Statement.let name value).uses, u.Permitted s.environment) :
    ∃ t, letStatement bound s = .ok () t ∧
      Compiles s ((Statement.let name value).output s.environment s.ifLabels s.whileLabels) t := by
  obtain ⟨declared, permitted⟩ := List.forall_mem_cons.mp permitted
  obtain ⟨v, found⟩ := Option.isSome_iff_exists.mp declared
  simp only [Statement.lexemes, List.length_cons, List.length_append] at small
  have takes := takes.entered .letStatement
  simp only [Statement.lexemes, List.cons_append, List.append_assoc, List.nil_append] at takes
  have p₁ := takes.compiles
  have p := (p₁.trans takes.taken.compiles).trans takes.taken.taken.compiles
  obtain ⟨r, run, q, ending⟩ := expression_ok bound (by omega) takes.taken.taken.taken
    (p.environment ▸ permitted)
  rw [p.environment] at q
  have ending := ending.emitted [v.pop] (r.lineAt 0)
  rw [Statement.output, Environment.store_of_find? found]
  refine production_ok
    ⟨_, ?_, ((p.trans q).trans (.wrote r [v.pop] 0)).trans ending.compiles⟩
  rw [bind_ok (expect_ok (.keyword .let) takes rfl),
    bind_ok (expect_ok .identifier takes.taken rfl),
    bind_ok (resolveCurrent_ok takes.taken (p₁.environment ▸ found)), peekKind_bind,
    takes.taken.taken.kind_eq_mark, if_neg (by decide),
    bind_ok (expect_ok (.mark .equal) takes.taken.taken rfl), bind_ok run, currentLine_bind,
    emit_bind]
  exact expect_ok (.mark .semicolon) ending rfl

theorem letElement_ok {name : String} {index value : Expression}
    (small : 2 * (Statement.letElement name index value).lexemes.length + 1 ≤ bound)
    (takes : Takes s.window ((Statement.letElement name index value).lexemes ++ rest))
    (permitted : ∀ u ∈ (Statement.letElement name index value).uses,
      u.Permitted s.environment) :
    ∃ t, letStatement bound s = .ok () t ∧
      Compiles s ((Statement.letElement name index value).output s.environment s.ifLabels
        s.whileLabels) t := by
  obtain ⟨declared, permitted⟩ := List.forall_mem_cons.mp permitted
  obtain ⟨allowed, allowed'⟩ := List.forall_mem_append.mp permitted
  obtain ⟨v, found⟩ := Option.isSome_iff_exists.mp declared
  simp only [Statement.lexemes, List.length_cons, List.length_append] at small
  have takes := takes.entered .letStatement
  simp only [Statement.lexemes, List.cons_append, List.append_assoc, List.nil_append] at takes
  have p₁ := takes.compiles
  have p := p₁.trans takes.taken.compiles
  obtain ⟨r₁, run, p₂⟩ := elementAddress_ok (expression_completes index bound (by omega))
    (p.environment ▸ found) takes.taken.taken (p.environment ▸ allowed)
  rw [p.environment] at run p₂
  have equals := (p.trans p₂).takes_rest
    (.mark .equal :: (value.lexemes ++ .mark .semicolon :: rest))
    (by simpa [indexOutput] using takes)
  have q := (p.trans p₂).trans equals.compiles
  obtain ⟨r₂, run', p₃, ending⟩ := expression_ok bound (by omega) equals.taken
    (q.environment ▸ allowed')
  rw [q.environment] at p₃
  have ending := ending.emitted [.pop .temp 0, .pop .pointer 1, .push .temp 0, .pop .that 0]
    (r₂.lineAt 0)
  refine production_ok ⟨_, ?_, ((q.trans p₃).trans (.wrote r₂ _ 0)).trans ending.compiles⟩
  rw [bind_ok (expect_ok (.keyword .let) takes rfl),
    bind_ok (expect_ok .identifier takes.taken rfl),
    bind_ok (resolveCurrent_ok takes.taken (p₁.environment ▸ found)), peekKind_bind,
    if_pos takes.taken.taken.kind_eq_mark, bind_ok run,
    bind_ok (expect_ok (.mark .equal) equals rfl), bind_ok run', currentLine_bind,
    emitAll_bind]
  exact expect_ok (.mark .semicolon) ending rfl

theorem do_ok {callee : Callee} {arguments : List Expression}
    (small : 2 * (Statement.do callee arguments).lexemes.length + 1 ≤ bound)
    (takes : Takes s.window ((Statement.do callee arguments).lexemes ++ rest))
    (permitted : ∀ u ∈ (Statement.do callee arguments).uses, u.Permitted s.environment) :
    ∃ t, doStatement bound s = .ok () t ∧
      Compiles s ((Statement.do callee arguments).output s.environment s.ifLabels
        s.whileLabels) t := by
  simp only [Statement.lexemes, Callee.lexemes, inParens, List.length_cons, List.length_append]
    at small
  have takes := takes.entered .doStatement
  simp only [Statement.lexemes, Callee.lexemes, List.cons_append, List.append_assoc,
    List.nil_append] at takes
  have p := takes.compiles.trans takes.taken.compiles
  have shorter := furtherLexemes_length_le arguments
  have room := length_le_furtherLexemes arguments
  obtain ⟨r, run, q⟩ := call_ok bound
    (arguments_completes arguments bound (by omega)) (by omega) takes.taken.taken
    (p.environment ▸ permitted)
  rw [p.environment] at q
  have ending := (p.trans q).takes_rest (.mark .semicolon :: rest)
    (by simpa [(callOutput_amounts _ _ _ (argumentOutput_amounts _ _)).lexemes_eq] using takes)
  refine production_ok
    ⟨_, ?_, ((p.trans q).trans ending.compiles).trans (.wrote _ [.pop .temp 0] 0)⟩
  have text : (s.entered .doStatement).taken.taken.current.text = callee.head :=
    takes.taken.text_taken
  rw [bind_ok (expect_ok (.keyword .do) takes rfl),
    bind_ok (expect_ok .identifier takes.taken rfl), currentText_bind, text, bind_ok run,
    bind_ok (expect_ok (.mark .semicolon) ending rfl), currentLine_bind, emit_run]

theorem returnZero_ok (takes : Takes s.window ((Statement.return none).lexemes ++ rest)) :
    ∃ t, returnStatement bound s = .ok () t ∧
      Compiles s ((Statement.return none).output s.environment s.ifLabels s.whileLabels) t := by
  have takes := takes.entered .returnStatement
  simp only [Statement.lexemes, List.cons_append, List.nil_append] at takes
  have ending := takes.taken.emitted [.push .constant 0]
    ((s.entered .returnStatement).taken.lineAt 0)
  refine production_ok ⟨_, ?_, ((takes.compiles.trans (.wrote _ [.push .constant 0] 0)).trans
    ending.compiles).trans (.wrote _ [.return] 0)⟩
  rw [bind_ok (expect_ok (.keyword .return) takes rfl), peekKind_bind,
    if_pos takes.taken.kind_eq_mark, currentLine_bind, emit_bind]
  beta_reduce
  rw [bind_ok (expect_ok (.mark .semicolon) ending rfl), currentLine_bind, emit_run]

theorem returnValue_ok {value : Expression}
    (small : 2 * (Statement.return (some value)).lexemes.length + 1 ≤ bound)
    (takes : Takes s.window ((Statement.return (some value)).lexemes ++ rest))
    (permitted : ∀ u ∈ (Statement.return (some value)).uses, u.Permitted s.environment) :
    ∃ t, returnStatement bound s = .ok () t ∧
      Compiles s ((Statement.return (some value)).output s.environment s.ifLabels
        s.whileLabels) t := by
  simp only [Statement.lexemes, List.length_cons, List.length_append] at small
  have takes := takes.entered .returnStatement
  simp only [Statement.lexemes, List.cons_append, List.append_assoc, List.nil_append] at takes
  have p := takes.compiles
  obtain ⟨r, run, q, ending⟩ := expression_ok bound (by omega) takes.taken
    (p.environment ▸ permitted)
  rw [p.environment] at q
  refine production_ok ⟨_, ?_, ((p.trans q).trans ending.compiles).trans (.wrote _ [.return] 0)⟩
  rw [bind_ok (expect_ok (.keyword .return) takes rfl), peekKind_bind,
    if_neg (takes.taken.peek_ne_mark value (.inr rfl)), bind_ok run]
  beta_reduce
  rw [bind_ok (expect_ok (.mark .semicolon) ending rfl), currentLine_bind, emit_run]

theorem block_ok {statements : Compilation Unit} {body : List Statement}
    (complete : CompletesStatements statements body)
    (takes : Takes s.window (inBraces (statementLexemes body) ++ rest))
    (permitted : ∀ u ∈ statementUses body, u.Permitted s.environment) :
    ∃ t, block statements s = .ok () t ∧ Takes t.window rest ∧
      Compiles s (blockOutput (within .statements
        (statementOutput s.environment s.ifLabels s.whileLabels body))) t := by
  simp only [inBraces, List.cons_append, List.append_assoc, List.nil_append] at takes
  have p := takes.compiles
  obtain ⟨r, run, q⟩ := complete _ _ takes.taken (p.environment ▸ permitted)
  rw [p.environment, p.ifLabels, p.whileLabels] at q
  have ending := (p.trans q).takes_rest (.mark .rightBrace :: rest) (by simpa using takes)
  refine ⟨r.taken, ?_, ending.taken, (p.trans q).trans ending.compiles⟩
  rw [block, bind_ok (expect_ok (.mark .leftBrace) takes rfl), bind_ok run]
  exact expect_ok (.mark .rightBrace) ending rfl

theorem while_ok {statements : Compilation Unit} {condition : Expression} {body : List Statement}
    (complete : CompletesStatements statements body)
    (small : 2 * (Statement.while condition body).lexemes.length + 1 ≤ bound)
    (takes : Takes s.window ((Statement.while condition body).lexemes ++ rest))
    (permitted : ∀ u ∈ (Statement.while condition body).uses, u.Permitted s.environment) :
    ∃ t, whileStatement statements bound s = .ok () t ∧
      Compiles s ((Statement.while condition body).output s.environment s.ifLabels
        s.whileLabels) t := by
  obtain ⟨allowed, allowed'⟩ := List.forall_mem_append.mp permitted
  simp only [Statement.lexemes, inParens, inBraces, List.length_cons, List.length_append] at small
  simp only [Statement.lexemes, inParens, inBraces, List.cons_append, List.append_assoc,
    List.nil_append] at takes
  have p₀ := (Compiles.oneWhile (s.entered .whileStatement)).trans
    (.wrote _ [.label (whileStartLabel s.whileLabels)] 1)
  have ahead := takes.entered .whileStatement
  have takes := Takes.emitted (s := (s.entered .whileStatement).begunWhile) takes
    [.label (whileStartLabel s.whileLabels)] ((s.entered .whileStatement).begunWhile.lineAt 1)
  have p := (p₀.trans takes.compiles).trans takes.taken.compiles
  obtain ⟨r₁, run, p₁, closing⟩ := expression_ok bound (by omega) takes.taken.taken
    (p.environment ▸ allowed)
  rw [p.environment] at p₁
  have closing := closing.emitted [.arithmetic .not, .ifGoto (whileEndLabel s.whileLabels)]
    (r₁.lineAt 0)
  have q := (((p.trans p₁).trans (.wrote r₁ [.arithmetic .not,
    .ifGoto (whileEndLabel s.whileLabels)] 0)).trans closing.compiles).trans closing.taken.compiles
  obtain ⟨r₂, run', p₂⟩ := complete _ _ closing.taken.taken (q.environment ▸ allowed')
  have ifs := q.ifLabels.trans (show _ = s.ifLabels by
    simp [(condition.output_amounts _).ifs_eq])
  have whiles := q.whileLabels.trans (show _ = s.whileLabels + 1 by
    simp [(condition.output_amounts _).whiles_eq])
  rw [q.environment, ifs, whiles] at p₂
  have ending := ((q.trans p₂).takes_rest (.mark .rightBrace :: rest)
    (by simpa using ahead)).emitted [.goto (whileStartLabel s.whileLabels),
      .label (whileEndLabel s.whileLabels)] (r₂.lineAt 1)
  refine production_ok ⟨_, ?_, ((q.trans p₂).trans (.wrote r₂
    [.goto (whileStartLabel s.whileLabels), .label (whileEndLabel s.whileLabels)] 1)).trans
      ending.compiles⟩
  simp only [nextWhileLabel_bind, CompilerState.entered_whileLabels, peekLine_bind, emit_bind]
  rw [bind_ok (expect_ok (.keyword .while) takes rfl),
    bind_ok (expect_ok (.mark .leftParen) takes.taken rfl), bind_ok run, currentLine_bind,
    emitAll_bind, bind_ok (expect_ok (.mark .rightParen) closing rfl),
    bind_ok (expect_ok (.mark .leftBrace) closing.taken rfl), bind_ok run', peekLine_bind,
    emitAll_bind]
  exact expect_ok (.mark .rightBrace) ending rfl

theorem branch_ok (bound : Nat) {statements : Compilation Unit} {condition : Expression}
    {body : List Statement} (complete : CompletesStatements statements body)
    (small : 2 * condition.lexemes.length + 1 ≤ bound)
    (takes : Takes s.window (.keyword .if :: (inParens condition.lexemes ++
      (inBraces (statementLexemes body) ++ rest))))
    (permitted : ∀ u ∈ condition.uses, u.Permitted s.environment)
    (permitted' : ∀ u ∈ statementUses body, u.Permitted s.environment) :
    ∃ t, (∀ f : Nat → Compilation Unit, (do
        let number ← nextIfLabel
        expect (.keyword .if)
        expect (.mark .leftParen)
        expression bound
        expect (.mark .rightParen)
        emitAll [.ifGoto (ifTrueLabel number), .goto (ifFalseLabel number),
          .label (ifTrueLabel number)] (← currentLine)
        block statements
        f number) s = f s.ifLabels t) ∧ Takes t.window rest ∧
      Compiles s (ifOutput s.ifLabels (condition.output s.environment) (within .statements
        (statementOutput s.environment (s.ifLabels + 1) s.whileLabels body))) t := by
  simp only [inParens, List.cons_append, List.append_assoc, List.nil_append] at takes
  have takes : Takes s.begunIf.window _ := takes
  have p := ((Compiles.oneIf s).trans takes.compiles).trans takes.taken.compiles
  obtain ⟨r₁, run, p₁, closing⟩ := expression_ok bound small takes.taken.taken
    (p.environment ▸ permitted)
  rw [p.environment] at p₁
  have q := ((p.trans p₁).trans closing.compiles).trans (.wrote r₁.taken
    [.ifGoto (ifTrueLabel s.ifLabels), .goto (ifFalseLabel s.ifLabels),
      .label (ifTrueLabel s.ifLabels)] 0)
  obtain ⟨r₂, run', behind, p₂⟩ := block_ok complete (closing.taken.emitted
    [.ifGoto (ifTrueLabel s.ifLabels), .goto (ifFalseLabel s.ifLabels),
      .label (ifTrueLabel s.ifLabels)] (r₁.taken.lineAt 0)) (q.environment ▸ permitted')
  have ifs := q.ifLabels.trans (show _ = s.ifLabels + 1 by
    simp [(condition.output_amounts _).ifs_eq])
  have whiles := q.whileLabels.trans (show _ = s.whileLabels by
    simp [(condition.output_amounts _).whiles_eq])
  rw [q.environment, ifs, whiles] at p₂
  refine ⟨r₂, fun f => ?_, behind, q.trans p₂⟩
  rw [nextIfLabel_bind, bind_ok (expect_ok (.keyword .if) takes rfl),
    bind_ok (expect_ok (.mark .leftParen) takes.taken rfl), bind_ok run,
    bind_ok (expect_ok (.mark .rightParen) closing rfl), currentLine_bind, emitAll_bind,
    bind_ok run']

theorem if_ok {statements : Compilation Unit} {condition : Expression} {body : List Statement}
    (complete : CompletesStatements statements body)
    (small : 2 * (Statement.if condition body).lexemes.length + 1 ≤ bound)
    (takes : Takes s.window ((Statement.if condition body).lexemes ++ rest))
    (stops : Stops Lexeme.isElse rest)
    (permitted : ∀ u ∈ (Statement.if condition body).uses, u.Permitted s.environment) :
    ∃ t, ifStatement statements bound s = .ok () t ∧
      Compiles s ((Statement.if condition body).output s.environment s.ifLabels
        s.whileLabels) t := by
  obtain ⟨allowed, allowed'⟩ := List.forall_mem_append.mp permitted
  simp only [Statement.lexemes, inParens, List.length_cons, List.length_append] at small
  simp only [Statement.lexemes, List.cons_append, List.append_assoc] at takes
  obtain ⟨r, run, behind, p⟩ := branch_ok bound complete (by omega)
    (takes.entered .ifStatement) allowed allowed'
  refine production_ok ⟨_, ?_, p.trans (.wrote r [.label (ifFalseLabel s.ifLabels)] 0)⟩
  have alone : ¬ r.peek.kind = .keyword .else := by
    intro other
    have none := behind.stops stops
    rw [Lexeme.kind_eq_keyword.mp other] at none
    cases none
  apply (run _).trans
  rw [currentLine_bind, peekKind_bind, if_neg alone]
  rfl

theorem ifElse_ok {statements : Compilation Unit} {condition : Expression}
    {body otherwise : List Statement} (complete : CompletesStatements statements body)
    (complete' : CompletesStatements statements otherwise)
    (small : 2 * (Statement.ifElse condition body otherwise).lexemes.length + 1 ≤ bound)
    (takes : Takes s.window ((Statement.ifElse condition body otherwise).lexemes ++ rest))
    (permitted : ∀ u ∈ (Statement.ifElse condition body otherwise).uses,
      u.Permitted s.environment) :
    ∃ t, ifStatement statements bound s = .ok () t ∧
      Compiles s ((Statement.ifElse condition body otherwise).output s.environment s.ifLabels
        s.whileLabels) t := by
  obtain ⟨allowed, permitted⟩ := List.forall_mem_append.mp permitted
  obtain ⟨allowed', allowed''⟩ := List.forall_mem_append.mp permitted
  simp only [Statement.lexemes, inParens, List.length_cons, List.length_append] at small
  simp only [Statement.lexemes, List.cons_append, List.append_assoc] at takes
  obtain ⟨r, run, behind, p⟩ := branch_ok bound complete (by omega)
    (takes.entered .ifStatement) allowed allowed'
  have keyword := behind.emitted [.goto (ifEndLabel s.ifLabels), .label (ifFalseLabel s.ifLabels)]
    (r.lineAt 0)
  have q := (p.trans (.wrote r [.goto (ifEndLabel s.ifLabels),
    .label (ifFalseLabel s.ifLabels)] 0)).trans keyword.compiles
  obtain ⟨t, run', -, p'⟩ := block_ok complete' keyword.taken (q.environment ▸ allowed'')
  have ifs := q.ifLabels.trans (show _ = s.ifLabels + 1 + ifCount body by
    simp [ifOutput, blockOutput, (condition.output_amounts _).ifs_eq,
      (statementOutput_amounts _ _ _ _).ifs_eq, Nat.add_assoc])
  have whiles := q.whileLabels.trans (show _ = s.whileLabels + whileCount body by
    simp [ifOutput, blockOutput, (condition.output_amounts _).whiles_eq,
      (statementOutput_amounts _ _ _ _).whiles_eq])
  rw [q.environment, ifs, whiles] at p'
  refine production_ok ⟨_, ?_, (q.trans p').trans (.wrote t [.label (ifEndLabel s.ifLabels)] 0)⟩
  apply (run _).trans
  have otherwise : r.peek.kind = .keyword .else := Takes.kind_eq behind
  rw [currentLine_bind, peekKind_bind, if_pos otherwise, emitAll_bind]
  exact (bind_ok (consume_ok keyword) _).trans ((bind_ok run' _).trans rfl)

theorem ofKind?_of_takes {st : Statement} (takes : Takes s.window (st.lexemes ++ rest)) :
    StatementForm.ofKind? s.peek.kind = some st.form := by
  rcases st with _ | _ | _ | _ | _ | _ | ⟨_ | _⟩ <;>
  · rw [Takes.kind_eq takes]
    rfl

theorem statement_of_takes {statements : Compilation Unit} {st : Statement}
    (takes : Takes s.window (st.lexemes ++ rest)) :
    statement statements bound s = statementOf statements bound st.form s := by
  rw [statement, peekKind_bind, ofKind?_of_takes takes]
  cases st.form <;> rfl

theorem row_ok {statements : Compilation Unit} {body : List Statement}
    (complete : ∀ st ∈ body, CompletesStatement (statement statements bound) st) (more : Nat)
    (room : body.length ≤ more)
    (takes : Takes s.window (statementLexemes body ++ .mark .rightBrace :: rest))
    (permitted : ∀ u ∈ statementUses body, u.Permitted s.environment) :
    ∃ t, iterate (fun kind => (StatementForm.ofKind? kind).isSome)
        (fun _ => statement statements bound) more () s = .ok () t ∧
      Compiles s (statementOutput s.environment s.ifLabels s.whileLabels body) t := by
  induction body generalizing s more with
  | nil =>
    refine ⟨s, iterate_stop () ?_, .refl s⟩
    rw [Takes.kind_eq takes]
    rfl
  | cons first body ih =>
    cases more with
    | zero => simp at room
    | succ more =>
      simp only [statementLexemes, List.append_assoc] at takes
      obtain ⟨allowed, allowed'⟩ := List.forall_mem_append.mp permitted
      obtain ⟨r, run, p⟩ := complete first (List.mem_cons_self ..) _ _ takes
        (statementLexemes_stop body rest) allowed
      have behind := p.takes_rest (statementLexemes body ++ .mark .rightBrace :: rest)
        (by simpa using takes)
      obtain ⟨t, run', q⟩ := ih (fun st hst => complete st (List.mem_cons_of_mem _ hst))
        more (by simpa using room) behind (p.environment ▸ allowed')
      have amounts := first.output_amounts
      rw [p.environment, p.ifLabels, p.whileLabels, (amounts ..).ifs_eq,
        (amounts ..).whiles_eq] at q
      have again : (StatementForm.ofKind? s.peek.kind).isSome := by
        rw [ofKind?_of_takes takes]
        rfl
      refine ⟨t, ?_, p.trans q⟩
      rw [iterate_step (b := ()) again run]
      exact run'

theorem length_le_statementLexemes (body : List Statement) :
    body.length ≤ (statementLexemes body).length := by
  induction body with
  | nil => exact Nat.le_refl _
  | cons first body ih =>
    obtain ⟨k, rest, begins, -⟩ := first.lexemes_eq_cons
    simp only [statementLexemes, begins, List.length_cons, List.length_append]
    omega

theorem statements_ok {body : List Statement}
    (complete : ∀ st ∈ body, CompletesStatement (statement (statements bound) bound) st)
    (small : 2 * (statementLexemes body).length + 1 ≤ bound) :
    CompletesStatements (statements (bound + 1)) body := by
  intro s rest takes permitted
  rw [statements]
  apply production_ok
  have room := length_le_statementLexemes body
  exact row_ok complete bound (by omega) (takes.entered .statements) permitted

end

mutual

theorem statement_completes : (st : Statement) → (bound : Nat) →
    2 * st.lexemes.length + 1 ≤ bound →
    CompletesStatement (statement (statements bound) bound) st
  | st, 0, small => absurd small (Nat.not_succ_le_zero _)
  | .let name value, bound + 1, small => by
    intro s rest takes stops permitted
    rw [statement_of_takes takes]
    exact let_ok small takes permitted
  | .letElement name index value, bound + 1, small => by
    intro s rest takes stops permitted
    rw [statement_of_takes takes]
    exact letElement_ok small takes permitted
  | .if condition body, bound + 1, small => by
    intro s rest takes stops permitted
    rw [statement_of_takes takes]
    have size : 2 * (statementLexemes body).length + 1 ≤ bound := by
      simp only [Statement.lexemes, inParens, inBraces, List.length_cons, List.length_append]
        at small
      omega
    exact if_ok (statements_ok (row_completes body bound size) size) small takes stops permitted
  | .ifElse condition body otherwise, bound + 1, small => by
    intro s rest takes stops permitted
    rw [statement_of_takes takes]
    have sizes : 2 * (statementLexemes body).length + 1 ≤ bound ∧
        2 * (statementLexemes otherwise).length + 1 ≤ bound := by
      simp only [Statement.lexemes, inParens, inBraces, List.length_cons, List.length_append]
        at small
      omega
    exact ifElse_ok (statements_ok (row_completes body bound sizes.1) sizes.1)
      (statements_ok (row_completes otherwise bound sizes.2) sizes.2) small takes permitted
  | .while condition body, bound + 1, small => by
    intro s rest takes stops permitted
    rw [statement_of_takes takes]
    have size : 2 * (statementLexemes body).length + 1 ≤ bound := by
      simp only [Statement.lexemes, inParens, inBraces, List.length_cons, List.length_append]
        at small
      omega
    exact while_ok (statements_ok (row_completes body bound size) size) small takes permitted
  | .do callee arguments, bound + 1, small => by
    intro s rest takes stops permitted
    rw [statement_of_takes takes]
    exact do_ok small takes permitted
  | .return none, bound + 1, small => by
    intro s rest takes stops permitted
    rw [statement_of_takes takes]
    exact returnZero_ok takes
  | .return (some value), bound + 1, small => by
    intro s rest takes stops permitted
    rw [statement_of_takes takes]
    exact returnValue_ok small takes permitted

theorem row_completes : (body : List Statement) → (bound : Nat) →
    2 * (statementLexemes body).length + 1 ≤ bound →
    ∀ st ∈ body, CompletesStatement (statement (statements bound) bound) st
  | [], _, _ => by simp
  | first :: body, bound, small => by
    simp only [statementLexemes, List.length_append] at small
    refine List.forall_mem_cons.mpr ⟨statement_completes first bound (by omega), ?_⟩
    exact row_completes body bound (by omega)

end

theorem statements_completes (bound : Nat) (body : List Statement)
    (small : 2 * (statementLexemes body).length + 2 ≤ bound) :
    CompletesStatements (statements bound) body := by
  obtain ⟨bound, rfl⟩ := Nat.exists_eq_add_of_le' (Nat.le_of_add_left_le small)
  exact statements_ok (row_completes body _ (by omega)) (by omega)

end Compilation

end JackVm

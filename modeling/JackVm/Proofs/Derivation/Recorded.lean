import JackVm.Proofs.Compilation.ClassOutput
import JackVm.Proofs.Derivation.Grammar

/-!
# The derivation of a class

What compiling a tree records is a derivation: the events of each production, the terminals that it
takes itself included, are those of a row of trees that its rule allows. The cases follow the trees.
-/

namespace JackVm

open Output Grammar
open scoped Computability

theorem indexOutput_derives (env : Environment) (name : String) {o : Output}
    (h : o.Derives (part .expression)) : (indexOutput env name o).Derives index :=
  (((Derives.mark .leftBracket).append h).append_wrote _).append (.mark .rightBracket)

theorem blockOutput_derives {o : Output} (h : o.Derives (part .statements)) :
    (blockOutput o).Derives block :=
  ((Derives.mark .leftBrace).append h).append (.mark .rightBrace)

theorem listOutput_derives {o : Output} (h : o.Derives Production.expressionList.rule) :
    (listOutput o).Derives (part .expressionList * mark .rightParen) :=
  h.within.append (.mark .rightParen)

theorem callOutput_derives (env : Environment) (callee : Callee) (count : Nat) {o : Output}
    (h : o.Derives Production.expressionList.rule) :
    (callOutput env callee count o).Derives callTail := by
  have list := listOutput_derives h
  refine Derives.thenWrote ?_ _ _
  cases callee with
  | own name =>
    have own := ((Derives.mark .leftParen).thenWrote [.push .pointer 0] 0).append list
    rw [← mul_assoc] at own
    exact own.left
  | qualified qualifier name =>
    have front := ((Derives.mark .dot).append (.identifier name)).thenWrote (env.load qualifier) 0
    have qualified := (front.append (.mark .leftParen)).append list
    refine Derives.right (qualified.of_eq ?_)
    simp only [arguments, mul_assoc]

theorem took_constant {l : Lexeme} (h : l.kind ∈ [.integer, .string, .keyword .true,
    .keyword .false, .keyword .null, .keyword .this]) (code : List Instruction) :
    (within .term (took l ++ wrote code)).Derives (part .term) :=
  (((Derives.took h).append_wrote code).left.left.left.left).within

mutual

theorem Expression.output_derives (env : Environment) :
    (e : Expression) → (e.output env).Derives (part .expression)
  | .mk first rest => by
    have body := (first.output_derives env).append (operationOutput_derives env rest)
    exact body.within

theorem operationOutput_derives (env : Environment) :
    (rest : List (BinaryOperator × Term)) →
      (operationOutput env rest).Derives (binaryOperator * part .term)∗
  | [] => .kstar_nil
  | (op, operand) :: rest => by
    have sign : (took (.mark op.mark)).Derives binaryOperator :=
      .took (by cases op <;> decide)
    have operation := sign.append ((operand.output_derives env).thenWrote [op.instruction] 0)
    exact operation.kstar_cons (operationOutput_derives env rest)

theorem Term.output_derives (env : Environment) : (t : Term) → (t.output env).Derives (part .term)
  | .integer _ => took_constant (by simp [Lexeme.kind]) _
  | .string _ => took_constant (by simp [Lexeme.kind]) _
  | .constant k => took_constant (by cases k <;> decide) _
  | .variable name => by
    have body := ((Derives.identifier name).append_wrote (env.load name)).absent (M := index)
    exact body.right.left.left.left.within
  | .element name index => by
    have inner := (indexOutput_derives env name (index.output_derives env)).thenWrote
      [.pop .pointer 1, .push .that 0] (1 + (index.output env).lexemes.length)
    exact ((Derives.identifier name).append inner.right).right.left.left.left.within
  | .call callee arguments => by
    have tail := callOutput_derives env callee arguments.length
      (argumentOutput_derives env arguments)
    exact ((Derives.identifier callee.head).append tail).right.left.left.within
  | .group inner => by
    have body := ((Derives.mark .leftParen).append (inner.output_derives env)).append
      (.mark .rightParen)
    exact body.right.left.within
  | .unary op operand => by
    have sign : (took (.mark op.mark)).Derives unaryOperator :=
      .took (by cases op <;> decide)
    have body := sign.append ((operand.output_derives env).thenWrote [op.instruction] 0)
    exact body.right.within

theorem argumentOutput_derives (env : Environment) :
    (arguments : List Expression) →
      (argumentOutput env arguments).Derives Production.expressionList.rule
  | [] => (Derives.silent rfl rfl).left
  | e :: rest => ((e.output_derives env).append (furtherOutput_derives env rest)).right

theorem furtherOutput_derives (env : Environment) :
    (arguments : List Expression) →
      (furtherOutput env arguments).Derives (Grammar.mark .comma * part .expression)∗
  | [] => .kstar_nil
  | e :: rest =>
    ((Derives.mark .comma).append (e.output_derives env)).kstar_cons
      (furtherOutput_derives env rest)

end

theorem ifOutput_derives (number : Nat) {condition body : Output}
    (h : condition.Derives (part .expression)) (h' : body.Derives (part .statements)) :
    (ifOutput number condition body).Derives (Grammar.word .if * Grammar.mark .leftParen *
      part .expression * Grammar.mark .rightParen * block) := by
  have front := (Derives.word .if).silent_append (o := oneIf) rfl rfl
  have head := ((front.append (.mark .leftParen)).append h).append (.mark .rightParen)
  exact (head.append_wrote _).append (blockOutput_derives h')

theorem elseOutput_derives {head other : Output} {L : Language Symbol} (h : head.Derives L)
    (h' : other.Derives block) (code : List Instruction) :
    (head ++ wrote code ++ took (.keyword .else) ++ other).Derives
      (L * (1 + Grammar.word .else * block)) := by
  have both := ((h.append_wrote code).append (.word .else)).append h'
  rw [mul_assoc] at both
  rw [mul_add]
  exact both.right

mutual

theorem Statement.output_derives (env : Environment) (ifs whiles : Nat) :
    (st : Statement) → (st.output env ifs whiles).Derives statement
  | .let name value => by
    have front := ((Derives.word .let).append (.identifier name)).absent (M := index)
    have body := (front.append (.mark .equal)).append (value.output_derives env)
    exact ((body.append_wrote _).append (.mark .semicolon)).within.left.left.left.left
  | .letElement name index value => by
    have inner := indexOutput_derives env name (index.output_derives env)
    have front := ((Derives.word .let).append (.identifier name)).append (inner.right (L := 1))
    have body := (front.append (.mark .equal)).append (value.output_derives env)
    exact ((body.append_wrote _).append (.mark .semicolon)).within.left.left.left.left
  | .if condition body => by
    have head := ifOutput_derives ifs (condition.output_derives env)
      (statementOutput_derives env (ifs + 1) whiles body).within
    exact (head.append_wrote _).absent.within.right.left.left.left
  | .ifElse condition body otherwise => by
    have head := ifOutput_derives ifs (condition.output_derives env)
      (statementOutput_derives env (ifs + 1) whiles body).within
    have other := blockOutput_derives (statementOutput_derives env (ifs + 1 + ifCount body)
      (whiles + whileCount body) otherwise).within
    exact ((elseOutput_derives head other _).append_wrote _).within.right.left.left.left
  | .while condition body => by
    have front := (Derives.word .while).silent_append
      (o := oneWhile ++ wrote [.label (Compilation.whileStartLabel whiles)] 1) rfl rfl
    have test := (front.append (.mark .leftParen)).append (condition.output_derives env)
    have head := (test.append_wrote [.arithmetic .not,
      .ifGoto (Compilation.whileEndLabel whiles)]).append (.mark .rightParen)
    have inner := (statementOutput_derives env ifs (whiles + 1) body).within
    have body := ((head.append (.mark .leftBrace)).append inner).append_wrote
      [.goto (Compilation.whileStartLabel whiles), .label (Compilation.whileEndLabel whiles)] 1
    refine ((body.append (.mark .rightBrace)).of_eq ?_).within.right.left.left
    simp only [mul_assoc, block, Production.rule]
  | .do callee arguments => by
    have tail := callOutput_derives env callee arguments.length
      (argumentOutput_derives env arguments)
    have call := ((Derives.word .do).append (.identifier callee.head)).append tail
    exact ((call.append (.mark .semicolon)).append_wrote _).within.right.left
  | .return none => by
    have zero := (Derives.word .return).append_wrote [.push .constant 0]
    have body := zero.absent (M := part .expression)
    exact ((body.append (.mark .semicolon)).append_wrote _).within.right
  | .return (some value) => by
    have body := (Derives.word .return).append ((value.output_derives env).right (L := 1))
    exact ((body.append (.mark .semicolon)).append_wrote _).within.right

theorem statementOutput_derives (env : Environment) (ifs whiles : Nat) :
    (body : List Statement) →
      (statementOutput env ifs whiles body).Derives Production.statements.rule
  | [] => .kstar_nil
  | first :: rest =>
    (first.output_derives env ifs whiles).kstar_cons (statementOutput_derives env _ _ rest)

end

theorem join_derives {os : List Output} {L : Language Symbol} (h : ∀ o ∈ os, o.Derives L) :
    (join os).Derives L∗ := by
  induction os with
  | nil => exact .kstar_nil
  | cons o os ih =>
    rw [List.forall_mem_cons] at h
    exact h.1.kstar_cons (ih h.2)

theorem type_derives (type : TypeName) : (took type.lexeme).Derives typeName :=
  .took (by cases type <;> simp [TypeName.lexeme, Lexeme.kind])

theorem VariableGroup.output_derives (g : VariableGroup) :
    g.output.Derives (typeName * nameList * Grammar.mark .semicolon) := by
  have further : (join (g.rest.map furtherNameOutput)).Derives
      (Grammar.mark .comma * Grammar.identifier)∗ := by
    refine join_derives fun o mem => ?_
    obtain ⟨name, -, rfl⟩ := List.mem_map.mp mem
    exact (Derives.mark .comma).append (.identifier name)
  have front := ((type_derives g.type).append (.identifier g.first)).append further
  refine (front.append (.mark .semicolon)).of_eq ?_
  simp only [nameList, mul_assoc]

theorem Parameter.output_derives (p : Parameter) : p.output.Derives parameter :=
  (type_derives p.type).append (.identifier p.name)

theorem parameterOutput_derives (ps : List Parameter) :
    (parameterOutput ps).Derives Production.parameterList.rule := by
  cases ps with
  | nil => exact (Derives.silent rfl rfl).left
  | cons p rest =>
    have further : (join (rest.map furtherParameterOutput)).Derives
        (Grammar.mark .comma * parameter)∗ := by
      refine join_derives fun o mem => ?_
      obtain ⟨q, -, rfl⟩ := List.mem_map.mp mem
      exact (Derives.mark .comma).append q.output_derives
    exact (p.output_derives.append further).right

theorem ClassVarDec.output_derives (d : ClassVarDec) :
    d.output.Derives (part .classVarDec) := by
  have storage : (took (.keyword d.storage.keyword)).Derives
      (anyOf [.keyword .static, .keyword .field]) :=
    .took (by cases d.storage <;> decide)
  exact (storage.append d.group.output_derives).within

theorem SubroutineDec.bodyOutput_derives (d : SubroutineDec) (c : ClassDec) :
    (d.bodyOutput c).Derives (part .subroutineBody) := by
  have locals : (join (d.varDecs.map VariableGroup.localOutput)).Derives (part .varDec)∗ := by
    refine join_derives fun o mem => ?_
    obtain ⟨g, -, rfl⟩ := List.mem_map.mp mem
    exact ((Derives.word .var).append g.output_derives).within
  have front := (Derives.mark .leftBrace).append locals
  have inner := (statementOutput_derives (d.environment c) 0 0 d.body).within
  exact ((((front.append_wrote _).append_wrote _).append inner).append (.mark .rightBrace)).within

theorem SubroutineDec.output_derives (d : SubroutineDec) (c : ClassDec) :
    (d.output c).Derives (part .subroutineDec) := by
  have form : (took (.keyword d.form.keyword)).Derives
      (anyOf [.keyword .constructor, .keyword .function, .keyword .method]) :=
    .took (by cases d.form <;> decide)
  have result : (took (resultLexeme d.result)).Derives (Grammar.word .void + typeName) := by
    cases d.result with
    | none => exact (Derives.word .void).left
    | some type => exact (type_derives type).right
  have front := ((form.append result).append (.identifier d.name)).append (.mark .leftParen)
  have head := (front.append (parameterOutput_derives d.parameters).within).append
    (.mark .rightParen)
  exact (head.append (d.bodyOutput_derives c)).within

/-- What compiling a class records is a derivation of the class. -/
theorem ClassDec.output_derives (c : ClassDec) : c.output.Derives (part .class) := by
  have declared : (join (c.varDecs.map ClassVarDec.output)).Derives (part .classVarDec)∗ := by
    refine join_derives fun o mem => ?_
    obtain ⟨d, -, rfl⟩ := List.mem_map.mp mem
    exact d.output_derives
  have subroutines : (join (c.subroutines.map fun d => d.output c)).Derives
      (part .subroutineDec)∗ := by
    refine join_derives fun o mem => ?_
    obtain ⟨d, -, rfl⟩ := List.mem_map.mp mem
    exact d.output_derives c
  have front := ((Derives.word .class).append (.identifier c.name)).append (.mark .leftBrace)
  exact (((front.append declared).append subroutines).append (.mark .rightBrace)).within

theorem ClassDec.exists_derivation (c : ClassDec) :
    ∃ d : Derivation, c.output.events = d.events ∧ d.lexemes = c.lexemes ∧
      (∃ children, d = .node .class children) ∧ d.Grammatical := by
  obtain ⟨ds, records⟩ := c.output_derives
  obtain ⟨d, alone, symbol⟩ := List.map_eq_singleton_iff.mp records.derived
  have events := records.events_eq
  have lexemes := records.lexemes_eq
  rw [alone, Derivation.eventsOf, Derivation.eventsOf, List.append_nil] at events
  rw [alone, Derivation.lexemesOf, Derivation.lexemesOf, List.append_nil,
    c.lexemes_output] at lexemes
  refine ⟨d, events, lexemes.symm, ?_, records.grammatical d (alone ▸ List.mem_cons_self)⟩
  cases d with
  | terminal lexeme => cases symbol
  | node p children =>
    have root : p = .class := Symbol.production.inj symbol
    exact ⟨children, by rw [root]⟩

end JackVm

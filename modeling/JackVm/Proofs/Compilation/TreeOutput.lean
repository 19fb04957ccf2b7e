import JackVm.Proofs.Compilation.Progress
import JackVm.Proofs.Translation.Code

/-!
# The output of a tree

What compiling a tree takes, writes and records, put together in the order in which a compilation
does it. Its lexemes are those of the tree and its code is the tree's translation.
-/

namespace JackVm

open Output

def indexOutput (env : Environment) (name : String) (index : Output) : Output :=
  took (.mark .leftBracket) ++ index ++ wrote (env.load name ++ [.arithmetic .add]) ++
    took (.mark .rightBracket)

/-- The arguments of a call behind their opening parenthesis. -/
def listOutput (arguments : Output) : Output :=
  within .expressionList arguments ++ took (.mark .rightParen)

/-- A call behind its first name, up to the instruction that calls. -/
def preparedOutput (env : Environment) (arguments : Output) : Callee → Output
  | .own _ =>
    (took (.mark .leftParen)).thenWrote [.push .pointer 0] ++ listOutput arguments
  | .qualified qualifier name =>
    (took (.mark .dot) ++ took (.identifier name)).thenWrote (env.load qualifier) ++
      took (.mark .leftParen) ++ listOutput arguments

/-- A call behind its first name. All that it writes itself has the line of that name. -/
def callOutput (env : Environment) (callee : Callee) (count : Nat) (arguments : Output) : Output :=
  (preparedOutput env arguments callee).thenWrote
    [.call (env.target callee) (count + env.receivers callee)]

mutual

def Expression.output (env : Environment) : Expression → Output
  | .mk first rest => within .expression (first.output env ++ operationOutput env rest)

def operationOutput (env : Environment) : List (BinaryOperator × Term) → Output
  | [] => {}
  | (op, operand) :: rest =>
    took (.mark op.mark) ++ (operand.output env).thenWrote [op.instruction] ++
      operationOutput env rest

def Term.output (env : Environment) : Term → Output
  | .integer digits =>
    within .term (took (.integer digits) ++ wrote [.push .constant (numeralValue digits)])
  | .string content => within .term (took (.string content) ++ wrote (stringCode content))
  | .constant k => within .term (took (.keyword k.keyword) ++ wrote k.code)
  | .variable name => within .term (took (.identifier name) ++ wrote (env.load name))
  | .element name index =>
    within .term (took (.identifier name) ++
      (indexOutput env name (index.output env)).thenWrote [.pop .pointer 1, .push .that 0]
        (1 + (index.output env).lexemes.length))
  | .call callee arguments =>
    within .term (took (.identifier callee.head) ++
      callOutput env callee arguments.length (argumentOutput env arguments))
  | .group inner =>
    within .term (took (.mark .leftParen) ++ inner.output env ++ took (.mark .rightParen))
  | .unary op operand =>
    within .term (took (.mark op.mark) ++ (operand.output env).thenWrote [op.instruction])

def argumentOutput (env : Environment) : List Expression → Output
  | [] => {}
  | e :: rest => e.output env ++ furtherOutput env rest

def furtherOutput (env : Environment) : List Expression → Output
  | [] => {}
  | e :: rest => took (.mark .comma) ++ e.output env ++ furtherOutput env rest

end

def blockOutput (o : Output) : Output :=
  took (.mark .leftBrace) ++ o ++ took (.mark .rightBrace)

/-- A conditional up to the end of its first block. -/
def ifOutput (number : Nat) (condition body : Output) : Output :=
  oneIf ++ took (.keyword .if) ++ took (.mark .leftParen) ++ condition ++
    took (.mark .rightParen) ++
    wrote [.ifGoto (Compilation.ifTrueLabel number), .goto (Compilation.ifFalseLabel number),
      .label (Compilation.ifTrueLabel number)] ++ blockOutput body

mutual

def Statement.output (env : Environment) (ifs whiles : Nat) : Statement → Output
  | .let name value =>
    within .letStatement (took (.keyword .let) ++ took (.identifier name) ++ took (.mark .equal) ++
      value.output env ++ wrote (env.store name) ++ took (.mark .semicolon))
  | .letElement name index value =>
    within .letStatement (took (.keyword .let) ++ took (.identifier name) ++
      indexOutput env name (index.output env) ++ took (.mark .equal) ++ value.output env ++
      wrote [.pop .temp 0, .pop .pointer 1, .push .temp 0, .pop .that 0] ++
      took (.mark .semicolon))
  | .if condition body =>
    within .ifStatement (ifOutput ifs (condition.output env)
      (within .statements (statementOutput env (ifs + 1) whiles body)) ++
      wrote [.label (Compilation.ifFalseLabel ifs)])
  | .ifElse condition body otherwise =>
    within .ifStatement (ifOutput ifs (condition.output env)
      (within .statements (statementOutput env (ifs + 1) whiles body)) ++
      wrote [.goto (Compilation.ifEndLabel ifs), .label (Compilation.ifFalseLabel ifs)] ++
      took (.keyword .else) ++
      blockOutput (within .statements (statementOutput env (ifs + 1 + ifCount body)
        (whiles + whileCount body) otherwise)) ++
      wrote [.label (Compilation.ifEndLabel ifs)])
  | .while condition body =>
    within .whileStatement (oneWhile ++
      wrote [.label (Compilation.whileStartLabel whiles)] 1 ++
      took (.keyword .while) ++ took (.mark .leftParen) ++ condition.output env ++
      wrote [.arithmetic .not, .ifGoto (Compilation.whileEndLabel whiles)] ++
      took (.mark .rightParen) ++ took (.mark .leftBrace) ++
      within .statements (statementOutput env ifs (whiles + 1) body) ++
      wrote [.goto (Compilation.whileStartLabel whiles),
        .label (Compilation.whileEndLabel whiles)] 1 ++
      took (.mark .rightBrace))
  | .do callee arguments =>
    within .doStatement (took (.keyword .do) ++ took (.identifier callee.head) ++
      callOutput env callee arguments.length (argumentOutput env arguments) ++
      took (.mark .semicolon) ++ wrote [.pop .temp 0])
  | .return none =>
    within .returnStatement (took (.keyword .return) ++ wrote [.push .constant 0] ++
      took (.mark .semicolon) ++ wrote [.return])
  | .return (some value) =>
    within .returnStatement (took (.keyword .return) ++ value.output env ++
      took (.mark .semicolon) ++ wrote [.return])

def statementOutput (env : Environment) (ifs whiles : Nat) : List Statement → Output
  | [] => {}
  | first :: rest =>
    first.output env ifs whiles ++
      statementOutput env (ifs + first.ifCount) (whiles + first.whileCount) rest

end

/-! ## The lexemes, the code and the labels of an output -/

/-- What the output of an expression or a part of one amounts to. -/
structure Output.Amounts (o : Output) (lexemes : List Lexeme) (code : List Instruction)
    (ifs whiles : Nat) : Prop where
  lexemes_eq : o.lexemes = lexemes
  code_eq : o.code = code
  ifs_eq : o.ifs = ifs
  whiles_eq : o.whiles = whiles

theorem callOutput_amounts (env : Environment) (callee : Callee) (count : Nat)
    {arguments : Output} {lexemes : List Lexeme} {code : List Instruction}
    (h : arguments.Amounts lexemes code 0 0) :
    (callOutput env callee count arguments).Amounts
      (callee.tail ++ inParens lexemes) (env.callCode callee count code) 0 0 := by
  obtain ⟨hl, hc, hi, hw⟩ := h
  cases callee <;> constructor <;>
    simp [callOutput, preparedOutput, listOutput, Callee.tail, inParens, Environment.callCode,
      Environment.receiver, hl, hc, hi, hw]

mutual

theorem Expression.output_amounts (env : Environment) :
    (e : Expression) → (e.output env).Amounts e.lexemes (e.code env) 0 0
  | .mk first rest => by
    obtain ⟨hl, hc, hi, hw⟩ := first.output_amounts env
    obtain ⟨rl, rc, ri, rw⟩ := operationOutput_amounts env rest
    constructor <;> simp [Expression.output, Expression.lexemes, Expression.code, *]

theorem operationOutput_amounts (env : Environment) :
    (rest : List (BinaryOperator × Term)) →
      (operationOutput env rest).Amounts (operationLexemes rest) (operationCode env rest) 0 0
  | [] => ⟨rfl, rfl, rfl, rfl⟩
  | (op, operand) :: rest => by
    obtain ⟨hl, hc, hi, hw⟩ := operand.output_amounts env
    obtain ⟨rl, rc, ri, rw⟩ := operationOutput_amounts env rest
    constructor <;> simp [operationOutput, operationLexemes, operationCode, *]

theorem Term.output_amounts (env : Environment) :
    (t : Term) → (t.output env).Amounts t.lexemes (t.code env) 0 0
  | .integer _ | .string _ | .constant _ | .variable _ => ⟨rfl, rfl, rfl, rfl⟩
  | .element name index => by
    obtain ⟨hl, hc, hi, hw⟩ := index.output_amounts env
    constructor <;> simp [Term.output, indexOutput, Term.lexemes, Term.code, *]
  | .call callee arguments => by
    obtain ⟨hl, hc, hi, hw⟩ := callOutput_amounts env callee arguments.length
      (argumentOutput_amounts env arguments)
    constructor <;> simp [Term.output, Term.lexemes, Term.code, Callee.lexemes, *]
  | .group inner => by
    obtain ⟨hl, hc, hi, hw⟩ := inner.output_amounts env
    constructor <;> simp [Term.output, Term.lexemes, Term.code, inParens, *]
  | .unary op operand => by
    obtain ⟨hl, hc, hi, hw⟩ := operand.output_amounts env
    constructor <;> simp [Term.output, Term.lexemes, Term.code, *]

theorem argumentOutput_amounts (env : Environment) :
    (arguments : List Expression) → (argumentOutput env arguments).Amounts
      (argumentLexemes arguments) (argumentCode env arguments) 0 0
  | [] => ⟨rfl, rfl, rfl, rfl⟩
  | e :: rest => by
    obtain ⟨hl, hc, hi, hw⟩ := e.output_amounts env
    obtain ⟨rl, rc, ri, rw⟩ := furtherOutput_amounts env rest
    constructor <;> simp [argumentOutput, argumentLexemes, argumentCode, *]

theorem furtherOutput_amounts (env : Environment) :
    (arguments : List Expression) → (furtherOutput env arguments).Amounts
      (furtherLexemes arguments) (argumentCode env arguments) 0 0
  | [] => ⟨rfl, rfl, rfl, rfl⟩
  | e :: rest => by
    obtain ⟨hl, hc, hi, hw⟩ := e.output_amounts env
    obtain ⟨rl, rc, ri, rw⟩ := furtherOutput_amounts env rest
    constructor <;> simp [furtherOutput, furtherLexemes, argumentCode, *]

end

mutual

theorem Statement.output_amounts (env : Environment) (ifs whiles : Nat) :
    (st : Statement) → (st.output env ifs whiles).Amounts st.lexemes (st.code env ifs whiles)
      st.ifCount st.whileCount
  | .let name value => by
    obtain ⟨hl, hc, hi, hw⟩ := value.output_amounts env
    constructor <;> simp [Statement.output, Statement.lexemes, Statement.code, Statement.ifCount,
      Statement.whileCount, *]
  | .letElement name index value => by
    obtain ⟨il, ic, ii, iw⟩ := index.output_amounts env
    obtain ⟨hl, hc, hi, hw⟩ := value.output_amounts env
    constructor <;> simp [Statement.output, indexOutput, Statement.lexemes, Statement.code,
      Statement.ifCount, Statement.whileCount, *]
  | .if condition body => by
    obtain ⟨hl, hc, hi, hw⟩ := condition.output_amounts env
    obtain ⟨bl, bc, bi, bw⟩ := statementOutput_amounts env (ifs + 1) whiles body
    constructor <;> simp [Statement.output, ifOutput, blockOutput, Statement.lexemes,
      Statement.code, Statement.ifCount, Statement.whileCount, inParens, inBraces, *]
  | .ifElse condition body otherwise => by
    obtain ⟨hl, hc, hi, hw⟩ := condition.output_amounts env
    obtain ⟨bl, bc, bi, bw⟩ := statementOutput_amounts env (ifs + 1) whiles body
    obtain ⟨ol, oc, oi, ow⟩ := statementOutput_amounts env (ifs + 1 + ifCount body)
      (whiles + whileCount body) otherwise
    constructor <;> simp [Statement.output, ifOutput, blockOutput, Statement.lexemes,
      Statement.code, Statement.ifCount, Statement.whileCount, inParens, inBraces, *]
  | .while condition body => by
    obtain ⟨hl, hc, hi, hw⟩ := condition.output_amounts env
    obtain ⟨bl, bc, bi, bw⟩ := statementOutput_amounts env ifs (whiles + 1) body
    constructor <;> simp [Statement.output, Statement.lexemes, Statement.code, Statement.ifCount,
      Statement.whileCount, inParens, inBraces, *]
  | .do callee arguments => by
    obtain ⟨hl, hc, hi, hw⟩ := callOutput_amounts env callee arguments.length
      (argumentOutput_amounts env arguments)
    constructor <;> simp [Statement.output, Statement.lexemes, Statement.code, Statement.ifCount,
      Statement.whileCount, Callee.lexemes, *]
  | .return none => ⟨rfl, rfl, rfl, rfl⟩
  | .return (some value) => by
    obtain ⟨hl, hc, hi, hw⟩ := value.output_amounts env
    constructor <;> simp [Statement.output, Statement.lexemes, Statement.code, Statement.ifCount,
      Statement.whileCount, *]

theorem statementOutput_amounts (env : Environment) (ifs whiles : Nat) :
    (body : List Statement) → (statementOutput env ifs whiles body).Amounts
      (statementLexemes body) (statementCode env ifs whiles body) (ifCount body) (whileCount body)
  | [] => ⟨rfl, rfl, rfl, rfl⟩
  | first :: rest => by
    obtain ⟨hl, hc, hi, hw⟩ := first.output_amounts env ifs whiles
    obtain ⟨rl, rc, ri, rw⟩ := statementOutput_amounts env (ifs + first.ifCount)
      (whiles + first.whileCount) rest
    constructor <;> simp [statementOutput, statementLexemes, statementCode, ifCount, whileCount, *]

end

@[simp] theorem Expression.lexemes_output (env : Environment) (e : Expression) :
    (e.output env).lexemes = e.lexemes :=
  (e.output_amounts env).lexemes_eq

@[simp] theorem Term.lexemes_output (env : Environment) (t : Term) :
    (t.output env).lexemes = t.lexemes :=
  (t.output_amounts env).lexemes_eq

@[simp] theorem argumentOutput_lexemes (env : Environment) (arguments : List Expression) :
    (argumentOutput env arguments).lexemes = argumentLexemes arguments :=
  (argumentOutput_amounts env arguments).lexemes_eq

@[simp] theorem Statement.lexemes_output (env : Environment) (ifs whiles : Nat) (st : Statement) :
    (st.output env ifs whiles).lexemes = st.lexemes :=
  (st.output_amounts env ifs whiles).lexemes_eq

@[simp] theorem statementOutput_lexemes (env : Environment) (ifs whiles : Nat)
    (body : List Statement) :
    (statementOutput env ifs whiles body).lexemes = statementLexemes body :=
  (statementOutput_amounts env ifs whiles body).lexemes_eq

end JackVm

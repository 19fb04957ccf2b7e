import JackVm.Proofs.Syntax.Class

/-!
# Terminals

The text of a tree has no faults in it and does not run into the end of the input.
-/

namespace JackVm

/-- Whether a lexeme is a terminal of the grammar. -/
def Lexeme.isTerminal : Lexeme → Bool
  | .fault _ | .endOfInput => false
  | _ => true

@[simp] theorem Lexeme.isTerminal_keyword (k : Keyword) : (Lexeme.keyword k).isTerminal := rfl

@[simp] theorem Lexeme.isTerminal_mark (m : Mark) : (Lexeme.mark m).isTerminal := rfl

@[simp] theorem Lexeme.isTerminal_identifier (name : String) :
    (Lexeme.identifier name).isTerminal := rfl

@[simp] theorem Lexeme.isTerminal_integer (digits : String) :
    (Lexeme.integer digits).isTerminal := rfl

@[simp] theorem Lexeme.isTerminal_string (content : String) :
    (Lexeme.string content).isTerminal := rfl

def Terminals (lexemes : List Lexeme) : Prop :=
  ∀ l ∈ lexemes, l.isTerminal

@[simp] theorem terminals_nil : Terminals [] := by simp [Terminals]

@[simp] theorem terminals_cons {l : Lexeme} {rest : List Lexeme} :
    Terminals (l :: rest) ↔ l.isTerminal ∧ Terminals rest :=
  List.forall_mem_cons

@[simp] theorem terminals_append {a b : List Lexeme} :
    Terminals (a ++ b) ↔ Terminals a ∧ Terminals b :=
  List.forall_mem_append

theorem terminals_flatMap {τ : Type} {f : τ → List Lexeme} {xs : List τ} :
    Terminals (xs.flatMap f) ↔ ∀ x ∈ xs, Terminals (f x) := by
  induction xs with
  | nil => simp
  | cons x xs ih => simp [ih]

theorem terminals_inParens {lexemes : List Lexeme} :
    Terminals (inParens lexemes) ↔ Terminals lexemes := by
  simp [inParens]

theorem terminals_inBraces {lexemes : List Lexeme} :
    Terminals (inBraces lexemes) ↔ Terminals lexemes := by
  simp [inBraces]

theorem Callee.terminals (callee : Callee) : Terminals callee.lexemes := by
  cases callee <;> simp [Callee.lexemes, Callee.tail]

mutual

theorem Expression.terminals : (e : Expression) → Terminals e.lexemes
  | .mk first rest => by
    rw [Expression.lexemes, terminals_append]
    exact ⟨first.terminals, operationLexemes_terminals rest⟩

theorem operationLexemes_terminals : (rest : List (BinaryOperator × Term)) →
    Terminals (operationLexemes rest)
  | [] => terminals_nil
  | (op, operand) :: rest => by
    simp only [operationLexemes, terminals_cons, terminals_append]
    exact ⟨rfl, operand.terminals, operationLexemes_terminals rest⟩

theorem Term.terminals : (t : Term) → Terminals t.lexemes
  | .integer _ | .string _ | .constant _ | .variable _ => by
    simp [Term.lexemes]
  | .element name index => by
    simp [Term.lexemes, index.terminals]
  | .call callee arguments => by
    simp [Term.lexemes, terminals_inParens, callee.terminals, argumentLexemes_terminals arguments]
  | .group inner => terminals_inParens.mpr inner.terminals
  | .unary op operand => terminals_cons.mpr ⟨rfl, operand.terminals⟩

theorem argumentLexemes_terminals : (arguments : List Expression) →
    Terminals (argumentLexemes arguments)
  | [] => terminals_nil
  | e :: rest => terminals_append.mpr ⟨e.terminals, furtherLexemes_terminals rest⟩

theorem furtherLexemes_terminals : (rest : List Expression) → Terminals (furtherLexemes rest)
  | [] => terminals_nil
  | e :: rest => by
    simp only [furtherLexemes, terminals_cons, terminals_append]
    exact ⟨rfl, e.terminals, furtherLexemes_terminals rest⟩

end

mutual

theorem Statement.terminals : (st : Statement) → Terminals st.lexemes
  | .let _ value => by simp [Statement.lexemes, value.terminals]
  | .letElement _ index value => by
    simp [Statement.lexemes, index.terminals, value.terminals]
  | .if condition body => by
    simp [Statement.lexemes, terminals_inParens, terminals_inBraces,
      condition.terminals, statementLexemes_terminals body]
  | .ifElse condition body otherwise => by
    simp [Statement.lexemes, terminals_inParens, terminals_inBraces,
      condition.terminals, statementLexemes_terminals body, statementLexemes_terminals otherwise]
  | .while condition body => by
    simp [Statement.lexemes, terminals_inParens, terminals_inBraces,
      condition.terminals, statementLexemes_terminals body]
  | .do callee arguments => by
    simp [Statement.lexemes, terminals_inParens, callee.terminals,
      argumentLexemes_terminals arguments]
  | .return none => by simp [Statement.lexemes]
  | .return (some value) => by simp [Statement.lexemes, value.terminals]

theorem statementLexemes_terminals : (body : List Statement) → Terminals (statementLexemes body)
  | [] => terminals_nil
  | first :: rest => terminals_append.mpr ⟨first.terminals, statementLexemes_terminals rest⟩

end

theorem TypeName.isTerminal_lexeme (type : TypeName) : type.lexeme.isTerminal := by
  cases type <;> rfl

theorem VariableGroup.terminals (g : VariableGroup) : Terminals g.lexemes := by
  simp [VariableGroup.lexemes, furtherNames, terminals_flatMap,
    g.type.isTerminal_lexeme]

theorem parameterLexemes_terminals (ps : List Parameter) : Terminals (parameterLexemes ps) := by
  cases ps <;>
    simp [parameterLexemes, Parameter.lexemes, terminals_flatMap,
      TypeName.isTerminal_lexeme]

theorem SubroutineDec.terminals (d : SubroutineDec) : Terminals d.lexemes := by
  have result : (resultLexeme d.result).isTerminal := by
    cases d.result with
    | none => rfl
    | some type => exact type.isTerminal_lexeme
  simp [SubroutineDec.lexemes, SubroutineDec.bodyLexemes, VariableGroup.varDec, terminals_inParens,
    terminals_inBraces, terminals_flatMap, result, VariableGroup.terminals,
    parameterLexemes_terminals, statementLexemes_terminals]

theorem ClassDec.terminals (c : ClassDec) : Terminals c.lexemes := by
  simp [ClassDec.lexemes, ClassVarDec.lexemes, terminals_inBraces, terminals_flatMap,
    VariableGroup.terminals, SubroutineDec.terminals]

end JackVm

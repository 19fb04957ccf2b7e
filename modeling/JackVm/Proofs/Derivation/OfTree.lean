import JackVm.Proofs.Derivation.Grammar
import JackVm.Proofs.Syntax.Class

/-!
# Derivations of syntax trees

A syntax tree leaves out the terminals that its form determines and the productions that stand in
a fixed place. Its derivation has them all, and spells the same text.
-/

namespace JackVm

namespace Derivation

def keyword (k : Keyword) : Derivation :=
  terminal (.keyword k)

def mark (m : Mark) : Derivation :=
  terminal (.mark m)

def identifier (name : String) : Derivation :=
  terminal (.identifier name)

def callRow (callee : Callee) (arguments : List Derivation) : List Derivation :=
  callee.lexemes.map terminal ++ [mark .leftParen, node .expressionList arguments, mark .rightParen]

def blockRow (body : List Derivation) : List Derivation :=
  [mark .leftBrace, node .statements body, mark .rightBrace]

@[simp] theorem lexemes_keyword (k : Keyword) : (keyword k).lexemes = [.keyword k] := by
  simp [keyword, lexemes]

@[simp] theorem lexemes_mark (m : Mark) : (mark m).lexemes = [.mark m] := by
  simp [mark, lexemes]

@[simp] theorem lexemes_identifier (name : String) :
    (identifier name).lexemes = [.identifier name] := by
  simp [identifier, lexemes]

@[simp] theorem lexemesOf_nil : lexemesOf [] = [] := by
  simp [lexemesOf]

@[simp] theorem lexemesOf_cons (d : Derivation) (ds : List Derivation) :
    lexemesOf (d :: ds) = d.lexemes ++ lexemesOf ds := by
  simp [lexemesOf]

@[simp] theorem lexemes_node (p : Production) (children : List Derivation) :
    (node p children).lexemes = lexemesOf children := by
  simp [lexemes]

@[simp] theorem lexemesOf_map_terminal (ls : List Lexeme) : lexemesOf (ls.map terminal) = ls := by
  induction ls with
  | nil => simp
  | cons l ls ih => simp [lexemes, ih]

@[simp] theorem lexemesOf_callRow (callee : Callee) (arguments : List Derivation) :
    lexemesOf (callRow callee arguments) = callee.lexemes ++ inParens (lexemesOf arguments) := by
  simp [callRow, inParens]

@[simp] theorem lexemesOf_blockRow (body : List Derivation) :
    lexemesOf (blockRow body) = inBraces (lexemesOf body) := by
  simp [blockRow, inBraces]

def furtherNameRow (names : List String) : List Derivation :=
  names.flatMap fun name => [mark .comma, identifier name]

@[simp] theorem lexemesOf_flatMap {α : Type} (f : α → List Derivation) (xs : List α) :
    lexemesOf (xs.flatMap f) = xs.flatMap fun x => lexemesOf (f x) := by
  induction xs with
  | nil => simp
  | cons x xs ih => simp [ih]

end Derivation

open JackVm.Derivation

mutual

def Expression.derivation : Expression → Derivation
  | .mk first rest => node .expression (first.derivation :: operationRow rest)

def operationRow : List (BinaryOperator × Term) → List Derivation
  | [] => []
  | (op, operand) :: rest => Derivation.mark op.mark :: operand.derivation :: operationRow rest

def Term.derivation : Term → Derivation
  | .integer digits => node .term [terminal (.integer digits)]
  | .string content => node .term [terminal (.string content)]
  | .constant k => node .term [keyword k.keyword]
  | .variable name => node .term [identifier name]
  | .element name index =>
    node .term [identifier name, Derivation.mark .leftBracket, index.derivation,
      Derivation.mark .rightBracket]
  | .call callee arguments => node .term (callRow callee (argumentRow arguments))
  | .group inner =>
    node .term [Derivation.mark .leftParen, inner.derivation, Derivation.mark .rightParen]
  | .unary op operand => node .term [Derivation.mark op.mark, operand.derivation]

def argumentRow : List Expression → List Derivation
  | [] => []
  | e :: rest => e.derivation :: furtherRow rest

def furtherRow : List Expression → List Derivation
  | [] => []
  | e :: rest => Derivation.mark .comma :: e.derivation :: furtherRow rest

end

mutual

def Statement.derivation : Statement → Derivation
  | .let name value =>
    node .letStatement [keyword .let, identifier name, Derivation.mark .equal, value.derivation,
      Derivation.mark .semicolon]
  | .letElement name index value =>
    node .letStatement [keyword .let, identifier name, Derivation.mark .leftBracket,
      index.derivation, Derivation.mark .rightBracket, Derivation.mark .equal, value.derivation,
      Derivation.mark .semicolon]
  | .if condition body =>
    node .ifStatement (keyword .if :: Derivation.mark .leftParen :: condition.derivation ::
      Derivation.mark .rightParen :: blockRow (statementRow body))
  | .ifElse condition body otherwise =>
    node .ifStatement (keyword .if :: Derivation.mark .leftParen :: condition.derivation ::
      Derivation.mark .rightParen :: (blockRow (statementRow body) ++
        keyword .else :: blockRow (statementRow otherwise)))
  | .while condition body =>
    node .whileStatement (keyword .while :: Derivation.mark .leftParen :: condition.derivation ::
      Derivation.mark .rightParen :: blockRow (statementRow body))
  | .do callee arguments =>
    node .doStatement (keyword .do :: (callRow callee (argumentRow arguments) ++
      [Derivation.mark .semicolon]))
  | .return none => node .returnStatement [keyword .return, Derivation.mark .semicolon]
  | .return (some value) =>
    node .returnStatement [keyword .return, value.derivation, Derivation.mark .semicolon]

def statementRow : List Statement → List Derivation
  | [] => []
  | first :: rest => first.derivation :: statementRow rest

end

def VariableGroup.row (g : VariableGroup) : List Derivation :=
  terminal g.type.lexeme :: identifier g.first ::
    (furtherNameRow g.rest ++ [Derivation.mark .semicolon])

def ClassVarDec.derivation (d : ClassVarDec) : Derivation :=
  node .classVarDec (keyword d.storage.keyword :: d.group.row)

def VariableGroup.derivation (g : VariableGroup) : Derivation :=
  node .varDec (keyword .var :: g.row)

def Parameter.row (p : Parameter) : List Derivation :=
  [terminal p.type.lexeme, identifier p.name]

def parameterRow : List Parameter → List Derivation
  | [] => []
  | p :: rest => p.row ++ rest.flatMap fun q => Derivation.mark .comma :: q.row

def bodyDerivation (varDecs : List VariableGroup) (body : List Statement) : Derivation :=
  node .subroutineBody (Derivation.mark .leftBrace :: (varDecs.map VariableGroup.derivation ++
    [node .statements (statementRow body), Derivation.mark .rightBrace]))

def SubroutineDec.derivation (d : SubroutineDec) : Derivation :=
  node .subroutineDec [keyword d.form.keyword, terminal (resultLexeme d.result), identifier d.name,
    Derivation.mark .leftParen, node .parameterList (parameterRow d.parameters),
    Derivation.mark .rightParen, bodyDerivation d.varDecs d.body]

def ClassDec.derivation (c : ClassDec) : Derivation :=
  node .class (keyword .class :: identifier c.name :: Derivation.mark .leftBrace ::
    (c.varDecs.map ClassVarDec.derivation ++ (c.subroutines.map SubroutineDec.derivation ++
      [Derivation.mark .rightBrace])))

/-! ## What they spell -/

mutual

theorem Expression.lexemes_derivation : (e : Expression) → e.derivation.lexemes = e.lexemes
  | .mk first rest => by
    simp [Expression.derivation, Expression.lexemes, first.lexemes_derivation,
      lexemesOf_operationRow rest]

theorem lexemesOf_operationRow : (rest : List (BinaryOperator × Term)) →
    lexemesOf (operationRow rest) = operationLexemes rest
  | [] => by simp [operationRow, operationLexemes]
  | (op, operand) :: rest => by
    simp [operationRow, operationLexemes, operand.lexemes_derivation, lexemesOf_operationRow rest]

theorem Term.lexemes_derivation : (t : Term) → t.derivation.lexemes = t.lexemes
  | .integer _ => by simp [Term.derivation, Term.lexemes, Derivation.lexemes]
  | .string _ => by simp [Term.derivation, Term.lexemes, Derivation.lexemes]
  | .constant _ => by simp [Term.derivation, Term.lexemes]
  | .variable _ => by simp [Term.derivation, Term.lexemes]
  | .element _ index => by simp [Term.derivation, Term.lexemes, index.lexemes_derivation]
  | .call _ arguments => by simp [Term.derivation, Term.lexemes, lexemesOf_argumentRow arguments]
  | .group inner => by simp [Term.derivation, Term.lexemes, inParens, inner.lexemes_derivation]
  | .unary _ operand => by simp [Term.derivation, Term.lexemes, operand.lexemes_derivation]

theorem lexemesOf_argumentRow : (arguments : List Expression) →
    lexemesOf (argumentRow arguments) = argumentLexemes arguments
  | [] => by simp [argumentRow, argumentLexemes]
  | e :: rest => by
    simp [argumentRow, argumentLexemes, e.lexemes_derivation, lexemesOf_furtherRow rest]

theorem lexemesOf_furtherRow : (arguments : List Expression) →
    lexemesOf (furtherRow arguments) = furtherLexemes arguments
  | [] => by simp [furtherRow, furtherLexemes]
  | e :: rest => by
    simp [furtherRow, furtherLexemes, e.lexemes_derivation, lexemesOf_furtherRow rest]

end

attribute [simp] Expression.lexemes_derivation lexemesOf_argumentRow

mutual

theorem Statement.lexemes_derivation : (st : Statement) → st.derivation.lexemes = st.lexemes
  | .let _ _ => by simp [Statement.derivation, Statement.lexemes]
  | .letElement _ _ _ => by simp [Statement.derivation, Statement.lexemes]
  | .if _ body => by
    simp [Statement.derivation, Statement.lexemes, inParens, lexemesOf_statementRow body]
  | .ifElse _ body otherwise => by
    simp [Statement.derivation, Statement.lexemes, inParens, lexemesOf_statementRow body,
      lexemesOf_statementRow otherwise]
  | .while _ body => by
    simp [Statement.derivation, Statement.lexemes, inParens, lexemesOf_statementRow body]
  | .do _ _ => by simp [Statement.derivation, Statement.lexemes]
  | .return none => by simp [Statement.derivation, Statement.lexemes]
  | .return (some _) => by simp [Statement.derivation, Statement.lexemes]

theorem lexemesOf_statementRow : (body : List Statement) →
    lexemesOf (statementRow body) = statementLexemes body
  | [] => by simp [statementRow, statementLexemes]
  | first :: rest => by
    simp [statementRow, statementLexemes, first.lexemes_derivation, lexemesOf_statementRow rest]

end

theorem VariableGroup.lexemesOf_row (g : VariableGroup) : lexemesOf g.row = g.lexemes := by
  simp [VariableGroup.row, VariableGroup.lexemes, furtherNameRow, furtherNames, Derivation.lexemes]

theorem VariableGroup.lexemes_derivation (g : VariableGroup) :
    g.derivation.lexemes = g.varDec := by
  simp [VariableGroup.derivation, VariableGroup.varDec, g.lexemesOf_row]

theorem ClassVarDec.lexemes_derivation (d : ClassVarDec) : d.derivation.lexemes = d.lexemes := by
  simp [ClassVarDec.derivation, ClassVarDec.lexemes, d.group.lexemesOf_row]

theorem Parameter.lexemesOf_row (p : Parameter) : lexemesOf p.row = p.lexemes := by
  simp [Parameter.row, Parameter.lexemes, Derivation.lexemes]

theorem lexemesOf_parameterRow (ps : List Parameter) :
    lexemesOf (parameterRow ps) = parameterLexemes ps := by
  cases ps with
  | nil => simp [parameterRow, parameterLexemes]
  | cons p rest => simp [parameterRow, parameterLexemes, Parameter.lexemesOf_row]

theorem lexemesOf_map {α : Type} {f : α → Derivation} {g : α → List Lexeme}
    (h : ∀ x, (f x).lexemes = g x) (xs : List α) : lexemesOf (xs.map f) = xs.flatMap g := by
  induction xs with
  | nil => simp
  | cons x xs ih => simp [h, ih]

theorem SubroutineDec.lexemes_derivation (d : SubroutineDec) :
    d.derivation.lexemes = d.lexemes := by
  have locals := lexemesOf_map VariableGroup.lexemes_derivation d.varDecs
  simp [SubroutineDec.derivation, SubroutineDec.lexemes, SubroutineDec.bodyLexemes, bodyDerivation,
    Derivation.lexemes, inParens, inBraces, lexemesOf_parameterRow, lexemesOf_statementRow, locals]

theorem ClassDec.lexemes_derivation (c : ClassDec) : c.derivation.lexemes = c.lexemes := by
  have declared := lexemesOf_map ClassVarDec.lexemes_derivation c.varDecs
  have subroutines := lexemesOf_map SubroutineDec.lexemes_derivation c.subroutines
  simp [ClassDec.derivation, ClassDec.lexemes, inBraces, declared, subroutines]

end JackVm

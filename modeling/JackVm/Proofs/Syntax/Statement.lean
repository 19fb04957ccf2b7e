import JackVm.Proofs.Syntax.Expression

/-!
# Syntax trees of statements

Conditionals and loops are counted, since the labels that they compile to are numbered.
-/

namespace JackVm

inductive Statement where
  | let (name : String) (value : Expression)
  | letElement (name : String) (index value : Expression)
  | if (condition : Expression) (body : List Statement)
  | ifElse (condition : Expression) (body otherwise : List Statement)
  | while (condition : Expression) (body : List Statement)
  | do (callee : Callee) (arguments : List Expression)
  | return (value : Option Expression)

def inBraces (lexemes : List Lexeme) : List Lexeme :=
  .mark .leftBrace :: (lexemes ++ [.mark .rightBrace])

mutual

def Statement.lexemes : Statement → List Lexeme
  | .let name value =>
    .keyword .let :: .identifier name :: .mark .equal :: (value.lexemes ++ [.mark .semicolon])
  | .letElement name index value =>
    .keyword .let :: .identifier name :: .mark .leftBracket :: (index.lexemes ++
      .mark .rightBracket :: .mark .equal :: (value.lexemes ++ [.mark .semicolon]))
  | .if condition body =>
    .keyword .if :: (inParens condition.lexemes ++ inBraces (statementLexemes body))
  | .ifElse condition body otherwise =>
    .keyword .if :: (inParens condition.lexemes ++ (inBraces (statementLexemes body) ++
      .keyword .else :: inBraces (statementLexemes otherwise)))
  | .while condition body =>
    .keyword .while :: (inParens condition.lexemes ++ inBraces (statementLexemes body))
  | .do callee arguments =>
    .keyword .do :: (callee.lexemes ++ inParens (argumentLexemes arguments) ++ [.mark .semicolon])
  | .return none => [.keyword .return, .mark .semicolon]
  | .return (some value) => .keyword .return :: (value.lexemes ++ [.mark .semicolon])

def statementLexemes : List Statement → List Lexeme
  | [] => []
  | first :: rest => first.lexemes ++ statementLexemes rest

end

mutual

def Statement.uses : Statement → List Use
  | .let name value => .variable name :: value.uses
  | .letElement name index value => .variable name :: (index.uses ++ value.uses)
  | .if condition body => condition.uses ++ statementUses body
  | .ifElse condition body otherwise =>
    condition.uses ++ (statementUses body ++ statementUses otherwise)
  | .while condition body => condition.uses ++ statementUses body
  | .do callee arguments => .call callee arguments.length :: argumentUses arguments
  | .return none => []
  | .return (some value) => value.uses

def statementUses : List Statement → List Use
  | [] => []
  | first :: rest => first.uses ++ statementUses rest

end

mutual

def Statement.ifCount : Statement → Nat
  | .if _ body => 1 + ifCount body
  | .ifElse _ body otherwise => 1 + ifCount body + ifCount otherwise
  | .while _ body => ifCount body
  | .let _ _ | .letElement _ _ _ | .do _ _ | .return _ => 0

def ifCount : List Statement → Nat
  | [] => 0
  | first :: rest => first.ifCount + ifCount rest

end

mutual

def Statement.whileCount : Statement → Nat
  | .if _ body => whileCount body
  | .ifElse _ body otherwise => whileCount body + whileCount otherwise
  | .while _ body => 1 + whileCount body
  | .let _ _ | .letElement _ _ _ | .do _ _ | .return _ => 0

def whileCount : List Statement → Nat
  | [] => 0
  | first :: rest => first.whileCount + whileCount rest

end

end JackVm

import JackVm.Compilation.Expression

/-!
# Compilation of statements

A statement leaves the stack as it was. Conditions and loops become jumps between labels that are
numbered within the subroutine, in the order in which the statements begin.
-/

namespace JackVm.Compilation

def ifTrueLabel (number : Nat) : String := "IF_TRUE" ++ number.repr
def ifFalseLabel (number : Nat) : String := "IF_FALSE" ++ number.repr
def ifEndLabel (number : Nat) : String := "IF_END" ++ number.repr
def whileStartLabel (number : Nat) : String := "WHILE_EXP" ++ number.repr
def whileEndLabel (number : Nat) : String := "WHILE_END" ++ number.repr

/-- Compiles statements in braces. -/
def block (statements : Compilation Unit) : Compilation Unit := do
  expect (.mark .leftBrace)
  statements
  expect (.mark .rightBrace)

/-- In an array assignment the address is left on the stack while the value is computed, and the
element is selected after that, since computing the value may select another element. -/
def letStatement (bound : Nat) : Compilation Unit := production .letStatement do
  expect (.keyword .let)
  expect .identifier
  let v ← resolveCurrent
  if (← peekKind) = .mark .leftBracket then
    let _ ← elementAddress (expression bound) v
    expect (.mark .equal)
    expression bound
    emitAll [.pop .temp 0, .pop .pointer 1, .push .temp 0, .pop .that 0] (← currentLine)
  else
    expect (.mark .equal)
    expression bound
    emit v.pop (← currentLine)
  expect (.mark .semicolon)

def ifStatement (statements : Compilation Unit) (bound : Nat) : Compilation Unit :=
  production .ifStatement do
    let number ← nextIfLabel
    expect (.keyword .if)
    expect (.mark .leftParen)
    expression bound
    expect (.mark .rightParen)
    emitAll [.ifGoto (ifTrueLabel number), .goto (ifFalseLabel number),
      .label (ifTrueLabel number)] (← currentLine)
    block statements
    let line ← currentLine
    if (← peekKind) = .keyword .else then
      emitAll [.goto (ifEndLabel number), .label (ifFalseLabel number)] line
      consume
      block statements
      emit (.label (ifEndLabel number)) (← currentLine)
    else
      emit (.label (ifFalseLabel number)) line

/-- The label before the condition and the jump back after the body lie on the lines of the
tokens that come next. -/
def whileStatement (statements : Compilation Unit) (bound : Nat) : Compilation Unit :=
  production .whileStatement do
    let number ← nextWhileLabel
    emit (.label (whileStartLabel number)) (← peekLine)
    expect (.keyword .while)
    expect (.mark .leftParen)
    expression bound
    emitAll [.arithmetic .not, .ifGoto (whileEndLabel number)] (← currentLine)
    expect (.mark .rightParen)
    expect (.mark .leftBrace)
    statements
    emitAll [.goto (whileStartLabel number), .label (whileEndLabel number)] (← peekLine)
    expect (.mark .rightBrace)

/-- The result of the call is dropped. -/
def doStatement (bound : Nat) : Compilation Unit := production .doStatement do
  expect (.keyword .do)
  expect .identifier
  call (expression bound) bound (← currentText)
  expect (.mark .semicolon)
  emit (.pop .temp 0) (← currentLine)

/-- Every subroutine returns a value, which is zero if none is given. -/
def returnStatement (bound : Nat) : Compilation Unit := production .returnStatement do
  expect (.keyword .return)
  if (← peekKind) = .mark .semicolon then
    emit (.push .constant 0) (← currentLine)
  else
    expression bound
  expect (.mark .semicolon)
  emit .return (← currentLine)

inductive StatementForm where
  | let | if | while | do | return
  deriving DecidableEq, Repr

/-- A statement's form shows in its first token. -/
def StatementForm.ofKind? : TokenKind → Option StatementForm
  | .keyword .let => some .let
  | .keyword .if => some .if
  | .keyword .while => some .while
  | .keyword .do => some .do
  | .keyword .return => some .return
  | _ => none

/-- Compiles one statement. The statements nested in it are given. -/
def statement (statements : Compilation Unit) (bound : Nat) : Compilation Unit := do
  match StatementForm.ofKind? (← peekKind) with
  | some .let => letStatement bound
  | some .if => ifStatement statements bound
  | some .while => whileStatement statements bound
  | some .do => doStatement bound
  | some .return => returnStatement bound
  | none => failAtPeek .expectedStatement

def statements : Nat → Compilation Unit
  | 0 => exhausted
  | bound + 1 => production .statements do
    repeatWhile (fun kind => (StatementForm.ofKind? kind).isSome)
      (statement (statements bound) bound) bound

end JackVm.Compilation

import JackVm.Grammar.Operator
import JackVm.Compilation.Basic

/-!
# Compilation of expressions

The code of an expression leaves its value on the stack. Operators apply from left to right, so
each is written as soon as its right operand has been.
-/

namespace JackVm

def BinaryOperator.instruction : BinaryOperator → Instruction
  | .add => .arithmetic .add
  | .subtract => .arithmetic .sub
  | .multiply => .call "Math.multiply" 2
  | .divide => .call "Math.divide" 2
  | .and => .arithmetic .and
  | .or => .arithmetic .or
  | .less => .arithmetic .lt
  | .greater => .arithmetic .gt
  | .equal => .arithmetic .eq

def UnaryOperator.instruction : UnaryOperator → Instruction
  | .negate => .arithmetic .neg
  | .complement => .arithmetic .not

def Variable.push (v : Variable) : Instruction :=
  .push v.kind.segment v.index

def Variable.pop (v : Variable) : Instruction :=
  .pop v.kind.segment v.index

/-- The number that a text of decimal digits denotes. -/
def decimalValue (digits : String) : Nat :=
  digits.toList.foldl (fun n c => 10 * n + (c.toNat - '0'.toNat)) 0

/-- The largest integer constant. -/
def maxInteger : Nat := 32767

def maxStringLength : Nat := 65535

def maxCharacter : Nat := 65535

/-- The largest number of arguments of a call, with the receiver. -/
def maxArguments : Nat := 65535

namespace Compilation

/-- Writes an integer constant that has just been taken. -/
def integerConstant (digits : String) : Compilation Unit := do
  let value := decimalValue digits
  if value ≤ maxInteger then
    emit (.push .constant value) (← currentLine)
  else
    failAtCurrent .integerTooLarge

/-- Writes a string constant that has just been taken, as a new string with its characters
appended one by one. -/
def stringConstant (content : String) : Compilation Unit := do
  let line ← currentLine
  if content.length ≤ maxStringLength then
    emitAll [.push .constant content.length, .call "String.new" 1] line
    content.toList.forM fun c => do
      if c.toNat ≤ maxCharacter then
        emitAll [.push .constant c.toNat, .call "String.appendChar" 2] line
      else
        failAtCurrent .characterOutOfRange
  else
    failAtCurrent .stringTooLong

/-- Compiles an index in brackets and adds the array's base to it. Answers the line to use. -/
def elementAddress (index : Compilation Unit) (base : Variable) : Compilation UInt32 := do
  expect (.mark .leftBracket)
  index
  let line ← currentLine
  emitAll [base.push, .arithmetic .add] line
  expect (.mark .rightBracket)
  return line

def countArguments (count more : Nat) : Compilation Nat := do
  if count + more ≤ maxArguments then
    return count + more
  else
    failAtCurrent .tooManyArguments

/-- Compiles the arguments of a call and answers how many there are. -/
def expressionList (argument : Compilation Unit) (bound : Nat) : Compilation Nat :=
  production .expressionList do
    if (← peekKind) = .mark .rightParen then
      return 0
    else
      argument
      iterate (· = .mark .comma) (fun count => do
        consume
        argument
        countArguments count 1) bound 1

/-- Compiles the arguments of a call in parentheses and answers their number with the
receiver, if there is one. -/
def callArguments (argument : Compilation Unit) (bound receivers : Nat) : Compilation Nat := do
  let count ← expressionList argument bound
  let count ← countArguments count receivers
  expect (.mark .rightParen)
  return count

/-- Compiles a call whose first name has just been taken. A name alone calls a method of the
current object; a variable in front is the receiver; any other name in front is a class. -/
def call (argument : Compilation Unit) (bound : Nat) (name : String) : Compilation Unit := do
  let line ← currentLine
  if (← peekKind) = .mark .leftParen then
    consume
    emit (.push .pointer 0) line
    let count ← callArguments argument bound 1
    emit (.call ((← className) ++ "." ++ name) count) line
  else
    expect (.mark .dot)
    expect .identifier
    let subroutine ← currentText
    match ← lookup name with
    | some v =>
      emit v.push line
      expect (.mark .leftParen)
      let count ← callArguments argument bound 1
      emit (.call (v.type ++ "." ++ subroutine) count) line
    | none =>
      expect (.mark .leftParen)
      let count ← callArguments argument bound 0
      emit (.call (name ++ "." ++ subroutine) count) line

def applied (operator : UnaryOperator) (operand : Compilation Unit) : Compilation Unit := do
  consume
  let line ← currentLine
  operand
  emit operator.instruction line

mutual

def expression : Nat → Compilation Unit
  | 0 => exhausted
  | bound + 1 => production .expression do
    term bound
    repeatWhile (fun kind => (BinaryOperator.ofKind? kind).isSome) (do
      match BinaryOperator.ofKind? (← peekKind) with
      | some operator =>
        consume
        let line ← currentLine
        term bound
        emit operator.instruction line
      | none => pure ()) bound

def term : Nat → Compilation Unit
  | 0 => exhausted
  | bound + 1 => production .term do
    match ← peekLexeme with
    | .integer digits =>
      consume
      integerConstant digits
    | .string content =>
      consume
      stringConstant content
    | .keyword .true =>
      consume
      emitAll [.push .constant 0, .arithmetic .not] (← currentLine)
    | .keyword .false | .keyword .null =>
      consume
      emit (.push .constant 0) (← currentLine)
    | .keyword .this =>
      consume
      emit (.push .pointer 0) (← currentLine)
    | .identifier name =>
      consume
      let next ← peekKind
      if next = .mark .leftParen ∨ next = .mark .dot then
        call (expression bound) bound name
      else
        let v ← resolveCurrent
        if next = .mark .leftBracket then
          let line ← elementAddress (expression bound) v
          emitAll [.pop .pointer 1, .push .that 0] line
        else
          emit v.push (← currentLine)
    | .mark .leftParen =>
      consume
      expression bound
      expect (.mark .rightParen)
    | .mark .minus => applied .negate (term bound)
    | .mark .tilde => applied .complement (term bound)
    | _ => failAtPeek .expectedTerm

end

end Compilation

end JackVm

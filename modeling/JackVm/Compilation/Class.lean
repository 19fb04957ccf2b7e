import JackVm.Compilation.Statement

/-!
# Compilation of classes

A class declares its variables and then its subroutines. Each subroutine becomes one function of
the machine, named by class and subroutine.
-/

namespace JackVm

def variableTypes : List TokenKind :=
  [.keyword .int, .keyword .char, .keyword .boolean, .identifier]

def returnTypes : List TokenKind :=
  .keyword .void :: variableTypes

inductive SubroutineForm where
  | constructor | function | method
  deriving DecidableEq, Repr

def SubroutineForm.ofKind? : TokenKind → Option SubroutineForm
  | .keyword .constructor => some .constructor
  | .keyword .function => some .function
  | .keyword .method => some .method
  | _ => none

/-- The kind of the class variables that a keyword declares. -/
def VariableKind.ofClassKeyword? : TokenKind → Option VariableKind
  | .keyword .static => some .static
  | .keyword .field => some .field
  | _ => none

namespace Compilation

def typeName (allowed : List TokenKind) : Compilation String := do
  expectAny allowed
  currentText

def declareName (type : String) (kind : VariableKind) : Compilation Unit := do
  expect .identifier
  declare (← currentText) type kind

/-- Compiles a type, the names of that type and the semicolon after them. -/
def variableNames (kind : VariableKind) (bound : Nat) : Compilation Unit := do
  let type ← typeName variableTypes
  declareName type kind
  repeatWhile (· = .mark .comma) (do
    consume
    declareName type kind) bound
  expect (.mark .semicolon)

def classVarDec (bound : Nat) : Compilation Unit := production .classVarDec do
  match VariableKind.ofClassKeyword? (← peekKind) with
  | some kind =>
    consume
    variableNames kind bound
  | none => failAtPeek (.expected [.keyword .field, .keyword .static])

def varDec (bound : Nat) : Compilation Unit := production .varDec do
  expect (.keyword .var)
  variableNames .local bound

def parameter : Compilation Unit := do
  declareName (← typeName variableTypes) .argument

def parameterList (bound : Nat) : Compilation Unit := production .parameterList do
  if (← peekKind) = .mark .rightParen then
    pure ()
  else
    parameter
    repeatWhile (· = .mark .comma) (do
      consume
      parameter) bound

/-- What a subroutine does before its statements: a constructor makes the object, a method takes
it from its first argument. -/
def SubroutineForm.prologue (fields : Nat) : SubroutineForm → List Instruction
  | .constructor => [.push .constant fields, .call "Memory.alloc" 1, .pop .pointer 0]
  | .method => [.push .argument 0, .pop .pointer 0]
  | .function => []

def subroutineBody (name : String) (form : SubroutineForm) (bound : Nat) : Compilation Unit :=
  production .subroutineBody do
    expect (.mark .leftBrace)
    repeatWhile (· = .keyword .var) (varDec bound) bound
    let line ← currentLine
    emit (.function name (← countOf .local)) line
    emitAll (SubroutineForm.prologue (← countOf .field) form) line
    statements bound
    expect (.mark .rightBrace)

/-- Forgets the names and the labels of the subroutine before. -/
def startSubroutine : Compilation Unit := fun s =>
  .ok () { s with ifLabels := 0, whileLabels := 0, scopes := s.scopes.startSubroutine }

/-- The object of a method is its first argument. -/
def declareReceiver : SubroutineForm → Compilation Unit
  | .method => do declare "this" (← className) .argument
  | _ => pure ()

def subroutineDec (bound : Nat) : Compilation Unit := production .subroutineDec do
  startSubroutine
  match SubroutineForm.ofKind? (← peekKind) with
  | some form =>
    consume
    declareReceiver form
    expectAny returnTypes
    expect .identifier
    let name := (← className) ++ "." ++ (← currentText)
    expect (.mark .leftParen)
    parameterList bound
    expect (.mark .rightParen)
    subroutineBody name form bound
  | none =>
    failAtPeek (.expected [.keyword .constructor, .keyword .function, .keyword .method])

/-- Forgets all names of the class before. -/
def startClass (name : String) : Compilation Unit := fun s =>
  .ok () { s with className := name, scopes := s.scopes.startClass }

def classBody (bound : Nat) : Compilation Unit := do
  expect (.mark .leftBrace)
  repeatWhile (fun kind => (VariableKind.ofClassKeyword? kind).isSome) (classVarDec bound) bound
  repeatWhile (fun kind => (SubroutineForm.ofKind? kind).isSome) (subroutineDec bound) bound
  expect (.mark .rightBrace)

/-- A bound for the productions below a class, from the tokens that are left. Expressions and
terms alternate, so for each token at most two of them open, and no loop goes round more often
than there are tokens. -/
def depthBound : Compilation Nat :=
  fun s => .ok (2 * s.input.upcoming.length + 8) s

/-- Compiles a class that must be all of the rest of the input. -/
def wholeClass : Compilation Unit := do
  let bound ← depthBound
  production .class do
    expect (.keyword .class)
    expect .identifier
    startClass (← currentText)
    classBody bound
  if (← peekKind) = .endOfInput then
    pure ()
  else
    failAtPeek (.expected [.endOfInput])

end Compilation

end JackVm

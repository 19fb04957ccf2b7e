import JackVm.CompileError
import JackVm.Grammar.Trace
import JackVm.Token.Stream
import JackVm.Vm.Code

/-!
# Compilations

A compilation reads tokens through a window of two and writes code as it goes. It fails at the
first error and leaves its state as the error found it.
-/

namespace JackVm

structure CompilerState where
  /-- The token that was taken last. -/
  current : Token := ⟨.fault .beforeStart, 1⟩
  /-- The token that comes next. -/
  peek : Token := ⟨.fault .beforeStart, 1⟩
  input : TokenStream
  className : String := ""
  scopes : ScopeTable := {}
  code : Code := {}
  /-- The number of `if` statements of the subroutine so far. -/
  ifLabels : Nat := 0
  /-- The number of `while` statements of the subroutine so far. -/
  whileLabels : Nat := 0
  /-- Kept only if a trace is asked for. -/
  trace : Option Trace := none

def CompilerState.ofString (source : String) (traced : Bool) : CompilerState :=
  { input := .ofString source, trace := if traced then some {} else none }

abbrev Compilation := EStateM CompileError CompilerState

namespace Compilation

def peekKind : Compilation TokenKind :=
  fun s => .ok s.peek.kind s

def peekLexeme : Compilation Lexeme :=
  fun s => .ok s.peek.lexeme s

def peekLine : Compilation UInt32 :=
  fun s => .ok s.peek.line s

def currentText : Compilation String :=
  fun s => .ok s.current.text s

def currentLine : Compilation UInt32 :=
  fun s => .ok s.current.line s

def className : Compilation String :=
  fun s => .ok s.className s

def failAtPeek {α : Type} (problem : Problem) : Compilation α :=
  fun s => .error (.atToken s.peek problem) s

def failAtCurrent {α : Type} (problem : Problem) : Compilation α :=
  fun s => .error (.atToken s.current problem) s

/-- Moves the window by one token, which fails if the new token is a fault. -/
def advance : Compilation Unit := fun s =>
  let (token, input) := s.input.next
  let s := { s with current := s.peek, peek := token, input }
  match token.lexeme with
  | .fault fault => .error (.unreadable token.line fault) s
  | _ => .ok () s

def record (f : Trace → Trace) : Compilation Unit :=
  fun s => .ok () { s with trace := s.trace.map f }

/-- Takes the next token as a terminal of the grammar. -/
def consume : Compilation Unit := do
  advance
  let lexeme ← fun s => .ok s.current.lexeme s
  record (·.terminal lexeme)

def expect (kind : TokenKind) : Compilation Unit := do
  if (← peekKind) = kind then
    consume
  else
    failAtPeek (.expected [kind])

def expectAny (kinds : List TokenKind) : Compilation Unit := do
  if (← peekKind) ∈ kinds then
    consume
  else
    failAtPeek (.expected kinds)

/-- Compiles one production. A failure leaves it open in the trace. -/
def production {α : Type} (p : Production) (body : Compilation α) : Compilation α := do
  record (·.enter p.name)
  let a ← body
  record .leave
  return a

/-- What a production or a loop answers when its bound is used up. Bounds are chosen so that no
input does that. -/
def exhausted {α : Type} : Compilation α :=
  failAtPeek .boundReached

/-- Runs `body` as long as the kind of the next token satisfies `p`, at most `bound` times. -/
def iterate {α : Type} (p : TokenKind → Bool) (body : α → Compilation α) :
    Nat → α → Compilation α
  | 0, a => do
    if p (← peekKind) then
      exhausted
    else
      pure a
  | bound + 1, a => do
    if p (← peekKind) then
      iterate p body bound (← body a)
    else
      pure a

def repeatWhile (p : TokenKind → Bool) (body : Compilation Unit) (bound : Nat) :
    Compilation Unit :=
  iterate p (fun _ => body) bound ()

def emit (instruction : Instruction) (line : UInt32) : Compilation Unit :=
  fun s => .ok () { s with code := s.code.append instruction line }

def emitAll (instructions : List Instruction) (line : UInt32) : Compilation Unit :=
  instructions.forM fun i => emit i line

/-- Declares a variable. An error is reported at the current token. -/
def declare (name type : String) (kind : VariableKind) : Compilation Unit := fun s =>
  match s.scopes.declare name type kind with
  | .ok _ scopes => .ok () { s with scopes }
  | .error e scopes => .error (.atToken s.current (.declaration e)) { s with scopes }

def lookup (name : String) : Compilation (Option Variable) :=
  fun s => .ok (s.scopes.find? name) s

def countOf (kind : VariableKind) : Compilation Nat :=
  fun s => .ok (s.scopes.count kind) s

def resolveCurrent : Compilation Variable := do
  let name ← currentText
  match ← lookup name with
  | some v => pure v
  | none => failAtCurrent (.undefinedVariable name)

def nextIfLabel : Compilation Nat :=
  fun s => .ok s.ifLabels { s with ifLabels := s.ifLabels + 1 }

def nextWhileLabel : Compilation Nat :=
  fun s => .ok s.whileLabels { s with whileLabels := s.whileLabels + 1 }

end Compilation

end JackVm

import JackVm.Token

/-!
# Grammar traces

A trace records a derivation while it is made: where a production begins and ends, and which
terminals it takes. Its text nests productions in parentheses, one line for each event, indented
by two blanks for every production that is open.
-/

namespace JackVm

/-- The productions of the grammar that a trace shows. -/
inductive Production where
  | «class» | classVarDec | subroutineDec | parameterList | subroutineBody | varDec
  | statements | letStatement | ifStatement | whileStatement | doStatement | returnStatement
  | expressionList | expression | term
  deriving DecidableEq, Repr

def Production.name : Production → String
  | .class => "class"
  | .classVarDec => "classVarDec"
  | .subroutineDec => "subroutineDec"
  | .parameterList => "parameterList"
  | .subroutineBody => "subroutineBody"
  | .varDec => "varDec"
  | .statements => "statements"
  | .letStatement => "letStatement"
  | .ifStatement => "ifStatement"
  | .whileStatement => "whileStatement"
  | .doStatement => "doStatement"
  | .returnStatement => "returnStatement"
  | .expressionList => "expressionList"
  | .expression => "expression"
  | .term => "term"

inductive TraceEvent where
  | opened (production : String)
  | closed
  | terminal (lexeme : Lexeme)
  deriving DecidableEq, Repr

structure Trace where
  events : Array TraceEvent := #[]
  deriving DecidableEq, Repr

namespace Trace

/-- Begins a production, which need not be one of the grammar's own. -/
def enter (t : Trace) (production : String) : Trace :=
  { events := t.events.push (.opened production) }

def leave (t : Trace) : Trace :=
  { events := t.events.push .closed }

def terminal (t : Trace) (lexeme : Lexeme) : Trace :=
  { events := t.events.push (.terminal lexeme) }

def indent (depth : Nat) : String :=
  "".pushn ' ' (2 * depth)

/-- Writes events behind `done`, with `depth` productions open. Closing none leaves none open. -/
def write (depth : Nat) (done : String) : List TraceEvent → String
  | [] => done
  | .opened production :: events =>
    write (depth + 1) (done ++ indent depth ++ "(" ++ production ++ "\n") events
  | .closed :: events =>
    write (depth - 1) (done ++ indent (depth - 1) ++ ")\n") events
  | .terminal lexeme :: events =>
    write depth
      (done ++ indent depth ++ lexeme.kind.category ++ " '" ++ lexeme.value ++ "'\n") events

def text (t : Trace) : String :=
  write 0 "" t.events.toList

/-- The text written before stays in front. -/
theorem write_eq_append (depth : Nat) (done : String) (events : List TraceEvent) :
    write depth done events = done ++ write depth "" events := by
  induction events generalizing depth done with
  | nil => simp [write]
  | cons event events ih =>
    cases event <;> simp only [write] <;> rw [ih] <;> conv => rhs; rw [ih]
    all_goals simp [String.append_assoc]

end Trace

end JackVm

import JackVm.Scope
import JackVm.Token

/-!
# Compile errors

Why a source is refused. Compilation stops at the first error, so there is one for each refused
source: at a token that the grammar or a declaration does not allow, at text that is no token, or
in the encoding of the source as a whole.
-/

namespace JackVm

inductive Problem where
  | expected (kinds : List TokenKind)
  | expectedTerm
  | expectedStatement
  | declaration (error : DeclarationError)
  | undefinedVariable (name : String)
  | tooManyArguments
  | integerTooLarge
  | stringTooLong
  | characterOutOfRange
  /-- Stands for a bound on the work that is used up. -/
  | boundReached
  deriving DecidableEq, Repr

def Problem.message : Problem → String
  | .expected [kind] => "Expected " ++ kind.description
  | .expected kinds =>
    "Expected one of " ++ String.intercalate ", " (kinds.map TokenKind.description)
  | .expectedTerm => "Expected term"
  | .expectedStatement => "Expected a statement"
  | .declaration error => error.message
  | .undefinedVariable name => "Undefined variable '" ++ name ++ "'"
  | .tooManyArguments => "Too many arguments"
  | .integerTooLarge => "Integer constant too large"
  | .stringTooLong => "String constant too long"
  | .characterOutOfRange => "Character out of range"
  | .boundReached => "Bound reached"

inductive CompileError where
  | atToken (token : Token) (problem : Problem)
  | unreadable (line : UInt32) (fault : Fault)
  | notUtf8
  deriving DecidableEq, Repr

/-- Where a token stands, for a message. The end of input has no text to quote. -/
def Token.place (t : Token) : String :=
  match t.lexeme with
  | .endOfInput => " at end"
  | lexeme => " at '" ++ lexeme.text ++ "'"

def CompileError.message : CompileError → String
  | .atToken token problem =>
    "[line " ++ token.line.toNat.repr ++ "] Error" ++ token.place ++ ": " ++ problem.message
  | .unreadable line fault => "[line " ++ line.toNat.repr ++ "] Error: " ++ fault.message
  | .notUtf8 => "Error: source is not valid UTF-8"

end JackVm

import JackVm.Token

/-!
# Operators

The operators of expressions. Binary operators have no precedence over each other.
-/

namespace JackVm

inductive BinaryOperator where
  | add | subtract | multiply | divide | and | or | less | greater | equal
  deriving DecidableEq, Repr

def BinaryOperator.ofKind? : TokenKind → Option BinaryOperator
  | .mark .plus => some .add
  | .mark .minus => some .subtract
  | .mark .star => some .multiply
  | .mark .slash => some .divide
  | .mark .ampersand => some .and
  | .mark .bar => some .or
  | .mark .less => some .less
  | .mark .greater => some .greater
  | .mark .equal => some .equal
  | _ => none

inductive UnaryOperator where
  | negate | complement
  deriving DecidableEq, Repr

end JackVm

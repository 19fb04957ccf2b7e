import JackVm.Compilation.Expression
import Mathlib.Data.List.Induction
import Mathlib.Data.Nat.Digits.Defs

/-!
# Syntax trees of expressions

A tree has one node for each production that derives something, and `lexemes` reads the derived
text off it. An expression keeps its operations in a row, since no operator binds tighter than
another. What a tree demands of its surroundings (numbers that fit, names that are variables, room
for the arguments of a call) is collected in `uses`.
-/

namespace JackVm

def BinaryOperator.mark : BinaryOperator → Mark
  | .add => .plus
  | .subtract => .minus
  | .multiply => .star
  | .divide => .slash
  | .and => .ampersand
  | .or => .bar
  | .less => .less
  | .greater => .greater
  | .equal => .equal

theorem BinaryOperator.ofKind?_eq_some_iff {kind : TokenKind} {op : BinaryOperator} :
    BinaryOperator.ofKind? kind = some op ↔ kind = .mark op.mark := by
  constructor
  · intro h
    unfold BinaryOperator.ofKind? at h
    split at h <;> cases h <;> rfl
  · rintro rfl
    cases op <;> rfl

def UnaryOperator.mark : UnaryOperator → Mark
  | .negate => .minus
  | .complement => .tilde

/-- The terms that are keywords. -/
inductive Constant where
  | true | false | null | this
  deriving DecidableEq, Repr

def Constant.keyword : Constant → Keyword
  | .true => .true
  | .false => .false
  | .null => .null
  | .this => .this

/-- What a call names: a method of the current object, or a subroutine behind a qualifier. -/
inductive Callee where
  | own (name : String)
  | qualified (qualifier name : String)
  deriving DecidableEq, Repr

def Callee.head : Callee → String
  | .own name => name
  | .qualified qualifier _ => qualifier

def Callee.tail : Callee → List Lexeme
  | .own _ => []
  | .qualified _ name => [.mark .dot, .identifier name]

def Callee.lexemes (callee : Callee) : List Lexeme :=
  .identifier callee.head :: callee.tail

mutual

inductive Expression where
  | mk (first : Term) (rest : List (BinaryOperator × Term))

inductive Term where
  | integer (digits : String)
  | string (content : String)
  | constant (k : Constant)
  | variable (name : String)
  | element (name : String) (index : Expression)
  | call (callee : Callee) (arguments : List Expression)
  | group (inner : Expression)
  | unary (op : UnaryOperator) (operand : Term)

end

/-- The number that a numeral denotes. A digit counts ten times as much as the one behind it. -/
def numeralValue (digits : String) : Nat :=
  Nat.ofDigits 10 (digits.toList.reverse.map fun c => c.toNat - '0'.toNat)

/-- The value of a numeral is the same if it is read from left to right. -/
theorem decimalValue_eq_numeralValue (digits : String) :
    decimalValue digits = numeralValue digits := by
  rw [decimalValue, numeralValue]
  induction digits.toList using List.reverseRecOn with
  | nil => rfl
  | append_singleton cs c ih =>
    rw [List.foldl_append, List.reverse_concat, List.map_cons, Nat.ofDigits_cons, ← ih,
      List.foldl_cons, List.foldl_nil, Nat.add_comm]

theorem numeralValue_repr (n : Nat) : numeralValue n.repr = n := by
  have read : Nat.ofDigitChars 10 n.repr.toList 0 = n := by
    rw [Nat.toList_repr]
    exact Nat.ofDigitChars_toDigits (by decide) (by decide)
  rw [← decimalValue_eq_numeralValue]
  exact read

theorem numeralValue_leadingZeros (zeros : Nat) (digits : String) :
    numeralValue (String.ofList (List.replicate zeros '0') ++ digits) = numeralValue digits := by
  simp [numeralValue]

/-- The part of a call behind its callee, given the lexemes of its arguments. -/
def inParens (lexemes : List Lexeme) : List Lexeme :=
  .mark .leftParen :: (lexemes ++ [.mark .rightParen])

mutual

def Expression.lexemes : Expression → List Lexeme
  | .mk first rest => first.lexemes ++ operationLexemes rest

def operationLexemes : List (BinaryOperator × Term) → List Lexeme
  | [] => []
  | (op, operand) :: rest => .mark op.mark :: (operand.lexemes ++ operationLexemes rest)

def Term.lexemes : Term → List Lexeme
  | .integer digits => [.integer digits]
  | .string content => [.string content]
  | .constant k => [.keyword k.keyword]
  | .variable name => [.identifier name]
  | .element name index =>
    .identifier name :: .mark .leftBracket :: (index.lexemes ++ [.mark .rightBracket])
  | .call callee arguments => callee.lexemes ++ inParens (argumentLexemes arguments)
  | .group inner => inParens inner.lexemes
  | .unary op operand => .mark op.mark :: operand.lexemes

/-- The arguments of a call, separated by commas. -/
def argumentLexemes : List Expression → List Lexeme
  | [] => []
  | e :: rest => e.lexemes ++ furtherLexemes rest

def furtherLexemes : List Expression → List Lexeme
  | [] => []
  | e :: rest => .mark .comma :: (e.lexemes ++ furtherLexemes rest)

end

/-- A place of a tree that its surroundings must permit. -/
inductive Use where
  | integer (digits : String)
  | string (content : String)
  | variable (name : String)
  | call (callee : Callee) (arguments : Nat)
  deriving DecidableEq, Repr

mutual

def Expression.uses : Expression → List Use
  | .mk first rest => first.uses ++ operationUses rest

def operationUses : List (BinaryOperator × Term) → List Use
  | [] => []
  | (_, operand) :: rest => operand.uses ++ operationUses rest

def Term.uses : Term → List Use
  | .integer digits => [.integer digits]
  | .string content => [.string content]
  | .constant _ => []
  | .variable name => [.variable name]
  | .element name index => .variable name :: index.uses
  | .call callee arguments => .call callee arguments.length :: argumentUses arguments
  | .group inner => inner.uses
  | .unary _ operand => operand.uses

def argumentUses : List Expression → List Use
  | [] => []
  | e :: rest => e.uses ++ argumentUses rest

end

theorem Term.lexemes_ne_nil (t : Term) : t.lexemes ≠ [] := by
  cases t <;> simp [Term.lexemes, Callee.lexemes, inParens]

theorem Expression.lexemes_ne_nil (e : Expression) : e.lexemes ≠ [] := by
  cases e
  simp [Expression.lexemes, Term.lexemes_ne_nil]

theorem Term.lexemes_length_pos (t : Term) : 0 < t.lexemes.length :=
  List.length_pos_iff.mpr t.lexemes_ne_nil

end JackVm

import JackVm.Proofs.Translation.Environment

/-!
# The code of a tree

Translation by recursion on the syntax tree. The state of a compiler plays no part in it: a name
is looked up in the environment of its subroutine, a call counts its arguments, and a label's
number is the number of conditionals or loops that begin before it.
-/

namespace JackVm

namespace Environment

def load (env : Environment) (name : String) : List Instruction :=
  (env.find? name).toList.map Variable.push

def store (env : Environment) (name : String) : List Instruction :=
  (env.find? name).toList.map Variable.pop

theorem load_of_find? {env : Environment} {name : String} {v : Variable}
    (h : env.find? name = some v) : env.load name = [v.push] := by
  simp [load, h]

theorem store_of_find? {env : Environment} {name : String} {v : Variable}
    (h : env.find? name = some v) : env.store name = [v.pop] := by
  simp [store, h]

def receiver (env : Environment) : Callee → List Instruction
  | .own _ => [.push .pointer 0]
  | .qualified qualifier _ => env.load qualifier

def callCode (env : Environment) (callee : Callee) (count : Nat) (arguments : List Instruction) :
    List Instruction :=
  env.receiver callee ++ arguments ++ [.call (env.target callee) (count + env.receivers callee)]

end Environment

def characterCode (c : Char) : List Instruction :=
  [.push .constant c.toNat, .call "String.appendChar" 2]

/-- A string is made empty and then appended to character by character. -/
def stringCode (content : String) : List Instruction :=
  [.push .constant content.length, .call "String.new" 1] ++ content.toList.flatMap characterCode

def Constant.code : Constant → List Instruction
  | .true => [.push .constant 0, .arithmetic .not]
  | .false | .null => [.push .constant 0]
  | .this => [.push .pointer 0]

mutual

def Expression.code (env : Environment) : Expression → List Instruction
  | .mk first rest => first.code env ++ operationCode env rest

def operationCode (env : Environment) : List (BinaryOperator × Term) → List Instruction
  | [] => []
  | (op, operand) :: rest => operand.code env ++ [op.instruction] ++ operationCode env rest

def Term.code (env : Environment) : Term → List Instruction
  | .integer digits => [.push .constant (numeralValue digits)]
  | .string content => stringCode content
  | .constant k => k.code
  | .variable name => env.load name
  | .element name index =>
    index.code env ++ env.load name ++ [.arithmetic .add, .pop .pointer 1, .push .that 0]
  | .call callee arguments => env.callCode callee arguments.length (argumentCode env arguments)
  | .group inner => inner.code env
  | .unary op operand => operand.code env ++ [op.instruction]

def argumentCode (env : Environment) : List Expression → List Instruction
  | [] => []
  | e :: rest => e.code env ++ argumentCode env rest

end

mutual

/-- The code of a statement that has `ifs` conditionals and `whiles` loops in front of it. -/
def Statement.code (env : Environment) (ifs whiles : Nat) : Statement → List Instruction
  | .let name value => value.code env ++ env.store name
  | .letElement name index value =>
    index.code env ++ env.load name ++ [.arithmetic .add] ++ value.code env ++
      [.pop .temp 0, .pop .pointer 1, .push .temp 0, .pop .that 0]
  | .if condition body =>
    condition.code env ++
      [.ifGoto (Compilation.ifTrueLabel ifs), .goto (Compilation.ifFalseLabel ifs),
        .label (Compilation.ifTrueLabel ifs)] ++
      statementCode env (ifs + 1) whiles body ++ [.label (Compilation.ifFalseLabel ifs)]
  | .ifElse condition body otherwise =>
    condition.code env ++
      [.ifGoto (Compilation.ifTrueLabel ifs), .goto (Compilation.ifFalseLabel ifs),
        .label (Compilation.ifTrueLabel ifs)] ++
      statementCode env (ifs + 1) whiles body ++
      [.goto (Compilation.ifEndLabel ifs), .label (Compilation.ifFalseLabel ifs)] ++
      statementCode env (ifs + 1 + ifCount body) (whiles + whileCount body) otherwise ++
      [.label (Compilation.ifEndLabel ifs)]
  | .while condition body =>
    [.label (Compilation.whileStartLabel whiles)] ++ condition.code env ++
      [.arithmetic .not, .ifGoto (Compilation.whileEndLabel whiles)] ++
      statementCode env ifs (whiles + 1) body ++
      [.goto (Compilation.whileStartLabel whiles), .label (Compilation.whileEndLabel whiles)]
  | .do callee arguments =>
    env.callCode callee arguments.length (argumentCode env arguments) ++ [.pop .temp 0]
  | .return none => [.push .constant 0, .return]
  | .return (some value) => value.code env ++ [.return]

def statementCode (env : Environment) (ifs whiles : Nat) : List Statement → List Instruction
  | [] => []
  | first :: rest =>
    first.code env ifs whiles ++
      statementCode env (ifs + first.ifCount) (whiles + first.whileCount) rest

end

def SubroutineDec.localCount (d : SubroutineDec) : Nat :=
  (d.varDecs.flatMap VariableGroup.names).length

/-- The number of variables in each object of a class. -/
def ClassDec.fieldCount (c : ClassDec) : Nat :=
  ((c.varDecs.filter (·.storage = .field)).flatMap fun d => d.group.names).length

/-- The code of a subroutine: its function, what makes or takes its object, its statements. -/
def SubroutineDec.code (d : SubroutineDec) (c : ClassDec) : List Instruction :=
  [.function (c.name ++ "." ++ d.name) d.localCount] ++
    Compilation.SubroutineForm.prologue c.fieldCount d.form ++
    statementCode (d.environment c) 0 0 d.body

def ClassDec.code (c : ClassDec) : List Instruction :=
  c.subroutines.flatMap fun d => d.code c

end JackVm

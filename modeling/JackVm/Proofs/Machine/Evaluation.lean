import JackVm.Proofs.Machine.Execution
import JackVm.Proofs.Translation.Environment

/-!
# Evaluation of expressions

The value of an expression, without regard to any code. Evaluation goes strictly from left to
right: an operator applies to all that is in front of it, the object of a call comes before its
arguments, an index before its array. Calls may change the world, so the order shows.
-/

namespace JackVm

/-- A computation that may change the world, and that fails on names that are not declared. -/
abbrev Evaluation (W α : Type) := StateT (World W) Option α

def Variable.value {W : Type} (m : Machine W) (frame : Frame W) (v : Variable) (world : World W) :
    W :=
  match v.kind with
  | .static => world.statics v.index
  | .field => world.heap (m.fieldAddress frame.object v.index)
  | .argument => frame.arguments v.index
  | .local => frame.locals v.index

namespace Machine

variable {W : Type} (m : Machine W)

def invoke (target : String) (values : List W) : Evaluation W W :=
  fun world => some (m.answer target values world)

def elementValue (index base : W) : Evaluation W W :=
  fun world => some (world.heap (m.add index base), world)

def appendCharacters (made : W) : List Char → Evaluation W W
  | [] => pure made
  | c :: rest => do
    let longer ← m.invoke "String.appendChar" [made, m.constant c.toNat]
    appendCharacters longer rest

def makeString (content : String) : Evaluation W W := do
  let empty ← m.invoke "String.new" [m.constant content.length]
  m.appendCharacters empty content.toList

def binary : BinaryOperator → W → W → Evaluation W W
  | .add, x, y => pure (m.add x y)
  | .subtract, x, y => pure (m.sub x y)
  | .multiply, x, y => m.invoke "Math.multiply" [x, y]
  | .divide, x, y => m.invoke "Math.divide" [x, y]
  | .and, x, y => pure (m.and x y)
  | .or, x, y => pure (m.or x y)
  | .less, x, y => pure (m.lt x y)
  | .greater, x, y => pure (m.gt x y)
  | .equal, x, y => pure (m.eq x y)

def unary : UnaryOperator → W → W
  | .negate => m.neg
  | .complement => m.not

def constantValue (object : W) : Constant → W
  | .true => m.not (m.constant 0)
  | .false | .null => m.constant 0
  | .this => object

variable (env : Environment) (frame : Frame W)

def variableValue (name : String) : Evaluation W W :=
  fun world => (env.find? name).map fun v => (v.value m frame world, world)

def receiverValue : Callee → Evaluation W (List W)
  | .own _ => pure [frame.object]
  | .qualified qualifier _ =>
    fun world => some ((env.find? qualifier).toList.map fun v => v.value m frame world, world)

end Machine

mutual

def Expression.eval {W : Type} (m : Machine W) (env : Environment) (frame : Frame W) :
    Expression → Evaluation W W
  | .mk first rest => do
    let left ← first.eval m env frame
    evalOperations m env frame left rest

def evalOperations {W : Type} (m : Machine W) (env : Environment) (frame : Frame W) (left : W) :
    List (BinaryOperator × Term) → Evaluation W W
  | [] => pure left
  | (op, operand) :: rest => do
    let right ← operand.eval m env frame
    let value ← m.binary op left right
    evalOperations m env frame value rest

def Term.eval {W : Type} (m : Machine W) (env : Environment) (frame : Frame W) :
    Term → Evaluation W W
  | .integer digits => pure (m.constant (numeralValue digits))
  | .string content => m.makeString content
  | .constant k => pure (m.constantValue frame.object k)
  | .variable name => m.variableValue env frame name
  | .element name index => do
    let i ← index.eval m env frame
    let base ← m.variableValue env frame name
    m.elementValue i base
  | .call callee arguments => do
    let object ← m.receiverValue env frame callee
    let values ← evalArguments m env frame arguments
    m.invoke (env.target callee) (object ++ values)
  | .group inner => inner.eval m env frame
  | .unary op operand => do
    let value ← operand.eval m env frame
    pure (m.unary op value)

def evalArguments {W : Type} (m : Machine W) (env : Environment) (frame : Frame W) :
    List Expression → Evaluation W (List W)
  | [] => pure []
  | e :: rest => do
    let value ← e.eval m env frame
    let values ← evalArguments m env frame rest
    pure (value :: values)

end

end JackVm

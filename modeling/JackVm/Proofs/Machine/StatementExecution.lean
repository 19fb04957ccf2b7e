import JackVm.Proofs.Machine.Evaluation
import JackVm.Proofs.Translation.Code

/-!
# Execution of statements

What statements do, without regard to any code. A subroutine first takes or makes its object. Then
its statements are executed in order until one returns a value or none are left.
-/

namespace JackVm

/-- What the statements of a subroutine can read and change. -/
structure Activation (W : Type) where
  frame : Frame W
  world : World W

inductive Outcome (W : Type) where
  | finished
  | returned (v : W)

namespace Activation

variable {W : Type}

/-- Whether a computation answers a value in one activation and leaves another. -/
structure Computes {α : Type} (a : Activation W) (x : Evaluation W α) (v : α) (b : Activation W) :
    Prop where
  evaluates : x a.world = some (v, b.world)
  frame : b.frame = a.frame

def put [DecidableEq W] (a : Activation W) (address v : W) : Activation W :=
  { a with world.heap := Function.update a.world.heap address v }

end Activation

def Variable.assign {W : Type} [DecidableEq W] (m : Machine W) (v : Variable) (x : W)
    (a : Activation W) : Activation W :=
  match v.kind with
  | .static => { a with world.statics := Function.update a.world.statics v.index x }
  | .field => a.put (m.fieldAddress a.frame.object v.index) x
  | .argument => { a with frame.arguments := Function.update a.frame.arguments v.index x }
  | .local => { a with frame.locals := Function.update a.frame.locals v.index x }

mutual

/-- Big-step execution of a statement. A loop goes on as long as the complement of its condition is
zero. The address of an element is fixed before the value for it is computed. -/
inductive Statement.Executes {W : Type} [DecidableEq W] (m : Machine W) (env : Environment) :
    Statement → Activation W → Outcome W → Activation W → Prop
  | let {name value v x a b} : a.Computes (value.eval m env a.frame) x b →
    env.find? name = some v →
    Statement.Executes m env (.let name value) a .finished (v.assign m x b)
  | letElement {name index value i base x a b c d} : a.Computes (index.eval m env a.frame) i b →
    b.Computes (m.variableValue env b.frame name) base c →
    c.Computes (value.eval m env c.frame) x d →
    Statement.Executes m env (.letElement name index value) a .finished (d.put (m.add i base) x)
  | ifTaken {condition body v o a b c} : a.Computes (condition.eval m env a.frame) v b →
    v ≠ m.constant 0 → StatementsExecute m env body b o c →
    Statement.Executes m env (.if condition body) a o c
  | ifPassed {condition body v a b} : a.Computes (condition.eval m env a.frame) v b →
    v = m.constant 0 →
    Statement.Executes m env (.if condition body) a .finished b
  | ifElseTaken {condition body otherwise v o a b c} :
    a.Computes (condition.eval m env a.frame) v b →
    v ≠ m.constant 0 → StatementsExecute m env body b o c →
    Statement.Executes m env (.ifElse condition body otherwise) a o c
  | ifElseOther {condition body otherwise v o a b c} :
    a.Computes (condition.eval m env a.frame) v b →
    v = m.constant 0 → StatementsExecute m env otherwise b o c →
    Statement.Executes m env (.ifElse condition body otherwise) a o c
  | whileDone {condition body v a b} : a.Computes (condition.eval m env a.frame) v b →
    m.not v ≠ m.constant 0 →
    Statement.Executes m env (.while condition body) a .finished b
  | whileAgain {condition body v o a b c d} : a.Computes (condition.eval m env a.frame) v b →
    m.not v = m.constant 0 → StatementsExecute m env body b .finished c →
    Statement.Executes m env (.while condition body) c o d →
    Statement.Executes m env (.while condition body) a o d
  | whileReturned {condition body v x a b c} : a.Computes (condition.eval m env a.frame) v b →
    m.not v = m.constant 0 → StatementsExecute m env body b (.returned x) c →
    Statement.Executes m env (.while condition body) a (.returned x) c
  | do {callee arguments v a b} : a.Computes ((Term.call callee arguments).eval m env a.frame) v b →
    Statement.Executes m env (.do callee arguments) a .finished b
  | return {a} : Statement.Executes m env (.return none) a (.returned (m.constant 0)) a
  | returnValue {value v a b} : a.Computes (value.eval m env a.frame) v b →
    Statement.Executes m env (.return (some value)) a (.returned v) b

inductive StatementsExecute {W : Type} [DecidableEq W] (m : Machine W) (env : Environment) :
    List Statement → Activation W → Outcome W → Activation W → Prop
  | nil {a} : StatementsExecute m env [] a .finished a
  | cons {first rest o a b c} : Statement.Executes m env first a .finished b →
    StatementsExecute m env rest b o c →
    StatementsExecute m env (first :: rest) a o c
  | stop {first rest v a b} : Statement.Executes m env first a (.returned v) b →
    StatementsExecute m env (first :: rest) a (.returned v) b

end

/-- How a subroutine takes its object before its statements: a method from its first argument, a
constructor from the memory, of as many words as its class has fields. -/
def SubroutineForm.enter {W : Type} (m : Machine W) (fields : Nat) (a : Activation W) :
    SubroutineForm → Activation W
  | .function => a
  | .method => { a with frame.object := a.frame.arguments 0 }
  | .constructor =>
    let made := m.answer "Memory.alloc" [m.constant fields] a.world
    ⟨{ a.frame with object := made.1 }, made.2⟩

def SubroutineDec.Executes {W : Type} [DecidableEq W] (m : Machine W) (c : ClassDec)
    (d : SubroutineDec) (a : Activation W) (o : Outcome W) (b : Activation W) : Prop :=
  StatementsExecute m (d.environment c) d.body (d.form.enter m c.fieldCount a) o b

end JackVm

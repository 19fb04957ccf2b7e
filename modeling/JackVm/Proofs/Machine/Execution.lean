import JackVm.Vm.Instruction
import Mathlib.Logic.Function.Basic

/-!
# Execution on the stack machine

What the instructions that do not jump do to the state of a function. The machine is given by its
words and by what its functions answer: a call hands over values, and it may change everything but
the frame and the pointers of its caller.
-/

namespace JackVm

/-- The arithmetic of a machine. -/
structure Words (W : Type) where
  constant : Nat → W
  neg : W → W
  not : W → W
  add : W → W → W
  sub : W → W → W
  eq : W → W → W
  gt : W → W → W
  lt : W → W → W
  and : W → W → W
  or : W → W → W

structure World (W : Type) where
  heap : W → W
  statics : Nat → W
  temp : W

/-- What a function has for itself. Pointer 0 is the address of its object. -/
structure Frame (W : Type) where
  locals : Nat → W
  arguments : Nat → W
  object : W

/-- The state of a function. Its stack begins with the value on top. -/
structure MachineState (W : Type) where
  frame : Frame W
  stack : List W
  /-- Pointer 1. -/
  element : W
  world : World W

structure Machine (W : Type) extends Words W where
  /-- What a function answers to values, the first one first, and the world it leaves. -/
  answer : String → List W → World W → W × World W

def Words.operate {W : Type} (words : Words W) : Command → List W → Option (List W)
  | .neg, x :: rest => some (words.neg x :: rest)
  | .not, x :: rest => some (words.not x :: rest)
  | .add, y :: x :: rest => some (words.add x y :: rest)
  | .sub, y :: x :: rest => some (words.sub x y :: rest)
  | .eq, y :: x :: rest => some (words.eq x y :: rest)
  | .gt, y :: x :: rest => some (words.gt x y :: rest)
  | .lt, y :: x :: rest => some (words.lt x y :: rest)
  | .and, y :: x :: rest => some (words.and x y :: rest)
  | .or, y :: x :: rest => some (words.or x y :: rest)
  | _, _ => none

namespace Machine

variable {W : Type} (m : Machine W)

def fieldAddress (object : W) (index : Nat) : W :=
  m.add object (m.constant index)

/-- What `push` finds in a segment. -/
def read (σ : MachineState W) : Segment → Nat → Option W
  | .constant, n => some (m.constant n)
  | .argument, i => some (σ.frame.arguments i)
  | .local, i => some (σ.frame.locals i)
  | .static, i => some (σ.world.statics i)
  | .this, i => some (σ.world.heap (m.fieldAddress σ.frame.object i))
  | .that, 0 => some (σ.world.heap σ.element)
  | .pointer, 0 => some σ.frame.object
  | .pointer, 1 => some σ.element
  | .temp, 0 => some σ.world.temp
  | _, _ => none

variable [DecidableEq W]

/-- What `pop` does to a segment. -/
def write (σ : MachineState W) (v : W) : Segment → Nat → Option (MachineState W)
  | .argument, i =>
    some { σ with frame.arguments := Function.update σ.frame.arguments i v }
  | .local, i => some { σ with frame.locals := Function.update σ.frame.locals i v }
  | .static, i => some { σ with world.statics := Function.update σ.world.statics i v }
  | .this, i =>
    some { σ with
      world.heap := Function.update σ.world.heap (m.fieldAddress σ.frame.object i) v }
  | .that, 0 => some { σ with world.heap := Function.update σ.world.heap σ.element v }
  | .pointer, 0 => some { σ with frame.object := v }
  | .pointer, 1 => some { σ with element := v }
  | .temp, 0 => some { σ with world.temp := v }
  | _, _ => none

/-- The state behind an instruction that is run straight through, unless it cannot be. -/
def step (σ : MachineState W) : Instruction → Option (MachineState W)
  | .push segment index =>
    (m.read σ segment index).map fun v => { σ with stack := v :: σ.stack }
  | .pop segment index =>
    match σ.stack with
    | v :: rest => m.write { σ with stack := rest } v segment index
    | [] => none
  | .arithmetic command =>
    (m.operate command σ.stack).map fun stack => { σ with stack }
  | .call target arguments =>
    if arguments ≤ σ.stack.length then
      let (v, world) := m.answer target (σ.stack.take arguments).reverse σ.world
      some { σ with stack := v :: σ.stack.drop arguments, world }
    else none
  | .label _ | .goto _ | .ifGoto _ | .function _ _ | .return => none

def exec (code : List Instruction) (σ : MachineState W) : Option (MachineState W) :=
  code.foldlM m.step σ

theorem exec_append (a b : List Instruction) (σ : MachineState W) :
    m.exec (a ++ b) σ = (m.exec a σ).bind (m.exec b) :=
  List.foldlM_append ..

@[simp] theorem exec_cons (i : Instruction) (code : List Instruction) (σ : MachineState W) :
    m.exec (i :: code) σ = (m.step σ i).bind (m.exec code) :=
  rfl

end Machine

end JackVm

/-!
# Instructions of the stack machine

The target of compilation, with the text each instruction is written as.
-/

namespace JackVm

/-- The memory segments that `push` and `pop` address. -/
inductive Segment where
  | constant | argument | local | static | this | that | pointer | temp
  deriving DecidableEq, Repr

def Segment.text : Segment → String
  | .constant => "constant"
  | .argument => "argument"
  | .local => "local"
  | .static => "static"
  | .this => "this"
  | .that => "that"
  | .pointer => "pointer"
  | .temp => "temp"

inductive Command where
  | add | sub | neg | eq | gt | lt | and | or | not
  deriving DecidableEq, Repr

def Command.text : Command → String
  | .add => "add"
  | .sub => "sub"
  | .neg => "neg"
  | .eq => "eq"
  | .gt => "gt"
  | .lt => "lt"
  | .and => "and"
  | .or => "or"
  | .not => "not"

inductive Instruction where
  | push (segment : Segment) (index : Nat)
  | pop (segment : Segment) (index : Nat)
  | arithmetic (command : Command)
  | label (name : String)
  | goto (name : String)
  | ifGoto (name : String)
  | function (name : String) (locals : Nat)
  | call (name : String) (arguments : Nat)
  | return
  deriving DecidableEq, Repr

def Instruction.text : Instruction → String
  | .push segment index => "push " ++ segment.text ++ " " ++ index.repr
  | .pop segment index => "pop " ++ segment.text ++ " " ++ index.repr
  | .arithmetic command => command.text
  | .label name => "label " ++ name
  | .goto name => "goto " ++ name
  | .ifGoto name => "if-goto " ++ name
  | .function name locals => "function " ++ name ++ " " ++ locals.repr
  | .call name arguments => "call " ++ name ++ " " ++ arguments.repr
  | .return => "return"

end JackVm

import JackVm.Vm.Instruction

/-!
# Code

A sequence of instructions, and beside it the sequence of the source lines they were made for. Code
has two written forms: the text that the machine reads, and a listing for people that shows offsets
and lines.
-/

namespace JackVm

/-- An instruction with the source line it was made for. -/
structure Row (Line : Type) where
  instruction : Instruction
  line : Line
  deriving DecidableEq, Repr

structure Code where
  program : Array Instruction := #[]
  /-- The source line of each instruction, at the same offset. -/
  lineTable : Array UInt32 := #[]
  deriving DecidableEq, Repr

namespace Code

def append (code : Code) (instruction : Instruction) (line : UInt32) : Code :=
  { program := code.program.push instruction, lineTable := code.lineTable.push line }

def size (code : Code) : Nat :=
  code.program.size

def isEmpty (code : Code) : Bool :=
  code.program.isEmpty

def instructions (code : Code) : List Instruction :=
  code.program.toList

def lines (code : Code) : List UInt32 :=
  code.lineTable.toList

def instruction? (code : Code) (offset : Nat) : Option Instruction :=
  code.program[offset]?

def line? (code : Code) (offset : Nat) : Option UInt32 :=
  code.lineTable[offset]?

def appendRows (code : Code) (rows : List (Row UInt32)) : Code :=
  rows.foldl (fun code row => code.append row.instruction row.line) code

/-- The code that rows make when they are appended to none. -/
def ofRows (rows : List (Row UInt32)) : Code :=
  appendRows {} rows

section
variable (code : Code) (rows : List (Row UInt32))

@[simp] theorem instructions_empty : ({} : Code).instructions = [] := rfl

@[simp] theorem lines_empty : ({} : Code).lines = [] := rfl

@[simp] theorem instructions_append (instruction : Instruction) (line : UInt32) :
    (code.append instruction line).instructions = code.instructions ++ [instruction] :=
  Array.toList_push

@[simp] theorem lines_append (instruction : Instruction) (line : UInt32) :
    (code.append instruction line).lines = code.lines ++ [line] :=
  Array.toList_push

@[simp] theorem length_instructions : code.instructions.length = code.size := rfl

@[simp] theorem appendRows_nil : code.appendRows [] = code := rfl

theorem appendRows_append (more : List (Row UInt32)) :
    code.appendRows (rows ++ more) = (code.appendRows rows).appendRows more :=
  List.foldl_append

@[simp] theorem instructions_appendRows :
    (code.appendRows rows).instructions = code.instructions ++ rows.map Row.instruction := by
  induction rows generalizing code with
  | nil => exact (List.append_nil _).symm
  | cons row rows ih =>
    rw [appendRows, List.foldl_cons, ← appendRows, ih, instructions_append, List.append_assoc]
    rfl

@[simp] theorem lines_appendRows :
    (code.appendRows rows).lines = code.lines ++ rows.map Row.line := by
  induction rows generalizing code with
  | nil => exact (List.append_nil _).symm
  | cons row rows ih =>
    rw [appendRows, List.foldl_cons, ← appendRows, ih, lines_append, List.append_assoc]
    rfl

@[simp] theorem instructions_ofRows : (ofRows rows).instructions = rows.map Row.instruction :=
  instructions_appendRows {} rows

@[simp] theorem lines_ofRows : (ofRows rows).lines = rows.map Row.line :=
  lines_appendRows {} rows

end

@[ext] theorem ext_lists {code more : Code} (instructions : code.instructions = more.instructions)
    (lines : code.lines = more.lines) : code = more := by
  cases code
  cases more
  rw [mk.injEq]
  exact ⟨Array.toList_inj.mp instructions, Array.toList_inj.mp lines⟩

/-- One instruction on each line, every line ended. -/
def text (code : Code) : String :=
  String.join (code.instructions.map fun i => i.text ++ "\n")

/-- A number set right in four places, or in as many as it needs. -/
def column (n : Nat) : String :=
  String.ofList (n.repr.toList.leftpad 4 ' ')

/-- The column for the source line at an offset, if the offset has a line. A bar repeats the line of
the offset before. -/
def lineColumn? (code : Code) (offset : Nat) : Option String := do
  let line ← code.line? offset
  match offset with
  | 0 => return column line.toNat
  | above + 1 =>
    if (← code.line? above) = line then
      return "   |"
    else
      return column line.toNat

def listingRow? (code : Code) (offset : Nat) (instruction : Instruction) : Option String := do
  let line ← code.lineColumn? offset
  return column offset ++ " " ++ line ++ " " ++ instruction.text

/-- A title, and a row for each instruction. There is no listing if an instruction has no line. -/
def listing? (code : Code) (title : String) : Option String := do
  let rows ← code.instructions.zipIdx.mapM fun (instruction, offset) =>
    code.listingRow? offset instruction
  return String.join ((("== " ++ title ++ " ==") :: rows).map fun row => row ++ "\n")

end Code

end JackVm

import JackVm.Proofs.CommandLine.Path
import JackVm.Proofs.Lines
import JackVm.Vm.Code
import Std.Data.String.ToNat

/-!
# The text of code

The first word of a line tells what instruction the line is. A name may have blanks in it, or be
nothing at all, since the number behind a name is what follows the last blank. The one thing that a
name may not have is the end of a line.
-/

namespace JackVm

open CommandLine (cutLast? cutLast?_append_cons)

def Segment.all : List Segment :=
  [.constant, .argument, .local, .static, .this, .that, .pointer, .temp]

def Segment.ofText? (text : String) : Option Segment :=
  Segment.all.find? fun segment => segment.text == text

@[simp] theorem Segment.ofText?_text (segment : Segment) :
    Segment.ofText? segment.text = some segment := by
  cases segment <;> decide

def Command.all : List Command :=
  [.add, .sub, .neg, .eq, .gt, .lt, .and, .or, .not]

def Command.ofText? (text : String) : Option Command :=
  Command.all.find? fun command => command.text == text

def counted? (cs : List Char) : Option (String × Nat) :=
  match cutLast? ' ' cs with
  | some (name, number) => (String.ofList number).toNat?.map fun n => (String.ofList name, n)
  | none => none

@[simp] theorem counted?_repr (name : String) (n : Nat) :
    counted? (name.toList ++ ' ' :: n.repr.toList) = some (name, n) := by
  rw [counted?, cutLast?_append_cons (not_mem_repr rfl n)]
  simp only [String.ofList_toList, Nat.toNat?_repr, Option.map_some]

def operand? (cs : List Char) : Option (Segment × Nat) :=
  match counted? cs with
  | some (name, index) => (Segment.ofText? name).map fun segment => (segment, index)
  | none => none

@[simp] theorem operand?_repr (segment : Segment) (index : Nat) :
    operand? (segment.text.toList ++ ' ' :: index.repr.toList) = some (segment, index) := by
  rw [operand?, counted?_repr]
  simp

namespace Instruction

def word : Instruction → String
  | push _ _ => "push"
  | pop _ _ => "pop"
  | arithmetic command => command.text
  | label _ => "label"
  | goto _ => "goto"
  | ifGoto _ => "if-goto"
  | function _ _ => "function"
  | call _ _ => "call"
  | «return» => "return"

/-- What follows the first word of an instruction and a blank, if something does. -/
def rest? : Instruction → Option (List Char)
  | push segment index | pop segment index =>
    some (segment.text.toList ++ ' ' :: index.repr.toList)
  | label name | goto name | ifGoto name => some name.toList
  | function name count | call name count => some (name.toList ++ ' ' :: count.repr.toList)
  | arithmetic _ | «return» => none

theorem not_mem_word (i : Instruction) : ' ' ∉ i.word.toList ∧ '\n' ∉ i.word.toList := by
  cases i with
  | arithmetic command => cases command <;> decide
  | _ => simp [word]

theorem toList_text (i : Instruction) :
    i.text.toList = i.word.toList ++ i.rest?.elim [] (' ' :: ·) := by
  cases i <;> simp [text, word, rest?]

theorem firstWord_text (i : Instruction) : firstWord i.text.toList = (i.word, i.rest?) := by
  rw [toList_text]
  cases i.rest? with
  | none => rw [Option.elim_none, List.append_nil, firstWord_alone i.not_mem_word.1]
  | some rest => rw [Option.elim_some, firstWord_followed i.not_mem_word.1]

/-- Reads an instruction from its first word and what follows it. -/
def ofWord? (word : String) : Option (List Char) → Option Instruction
  | none => if word = "return" then some «return» else (Command.ofText? word).map arithmetic
  | some rest =>
    match word with
    | "push" => (operand? rest).map fun (segment, index) => push segment index
    | "pop" => (operand? rest).map fun (segment, index) => pop segment index
    | "label" => some (label (String.ofList rest))
    | "goto" => some (goto (String.ofList rest))
    | "if-goto" => some (ifGoto (String.ofList rest))
    | "function" => (counted? rest).map fun (name, locals) => function name locals
    | "call" => (counted? rest).map fun (name, arguments) => call name arguments
    | _ => none

def ofLine? (line : List Char) : Option Instruction :=
  ofWord? (firstWord line).1 (firstWord line).2

theorem ofWord?_word (i : Instruction) : ofWord? i.word i.rest? = some i := by
  cases i with
  | push | pop => rw [word, rest?, ofWord?, operand?_repr, Option.map_some]
  | function | call => rw [word, rest?, ofWord?, counted?_repr, Option.map_some]
  | label | goto | ifGoto => rw [word, rest?, ofWord?, String.ofList_toList]
  | arithmetic command => cases command <;> rfl
  | «return» => rfl

/-- A line of code is read as the instruction that it was written for. -/
@[simp] theorem ofLine?_text (i : Instruction) : ofLine? i.text.toList = some i := by
  rw [ofLine?, firstWord_text, ofWord?_word]

/-- The name of a label or of a function, in the instructions that have one. -/
def name? : Instruction → Option String
  | label name | goto name | ifGoto name | function name _ | call name _ => some name
  | push _ _ | pop _ _ | arithmetic _ | «return» => none

/-- Whether no line ends inside the name of an instruction. -/
def OnOneLine (i : Instruction) : Prop :=
  ∀ name, i.name? = some name → '\n' ∉ name.toList

theorem OnOneLine.newline_not_mem {i : Instruction} (h : i.OnOneLine) : '\n' ∉ i.text.toList := by
  have digits (n : Nat) : '\n' ∉ n.repr.toList := not_mem_repr rfl n
  have segments (segment : Segment) : '\n' ∉ segment.text.toList := by cases segment <;> decide
  have rests : ∀ rest, i.rest? = some rest → '\n' ∉ rest := by
    intro rest behind
    cases i with
    | push segment index | pop segment index =>
      cases behind
      simp only [List.mem_append, List.mem_cons, not_or]
      exact ⟨segments segment, by decide, digits index⟩
    | function name count | call name count =>
      cases behind
      simp only [List.mem_append, List.mem_cons, not_or]
      exact ⟨h name rfl, by decide, digits count⟩
    | label name | goto name | ifGoto name =>
      cases behind
      exact h name rfl
    | arithmetic | «return» => cases behind
  rw [toList_text]
  cases behind : i.rest? with
  | none => simp [i.not_mem_word.2]
  | some rest => simp [i.not_mem_word.2, rests rest behind]

end Instruction

namespace Code

def instructionsOf? (text : String) : Option (List Instruction) :=
  (linesIn text).mapM Instruction.ofLine?

/-- The text of code shows all its instructions. -/
theorem instructionsOf?_text {code : Code} (h : ∀ i ∈ code.instructions, i.OnOneLine) :
    instructionsOf? code.text = some code.instructions := by
  have lines : linesIn code.text = code.instructions.map fun i => i.text.toList := by
    have split := linesIn_join (code.instructions.map Instruction.text)
      (List.forall_mem_map.mpr fun i hi => (h i hi).newline_not_mem)
    rw [List.map_map, List.map_map] at split
    exact split
  rw [instructionsOf?, lines, List.mapM_map]
  clear lines h
  induction code.instructions with
  | nil => rfl
  | cons i rest ih => simp [List.mapM_cons, ih]

end Code

end JackVm

import JackVm.Vm.Instruction
import Mathlib.Algebra.BigOperators.Group.List.Basic
import Mathlib.Algebra.Ring.Int.Defs

/-!
# The depth of the operand stack

How deep the stack of a function is in front of each of its instructions, counted from the first to
the last without regard to jumps. Code keeps the discipline of the stack if no instruction takes
more than there is, and if there is nothing on the stack wherever a jump starts or ends. In such
code the count is right on every path.
-/

namespace JackVm

def Command.operands : Command → Nat
  | .neg | .not => 1
  | .add | .sub | .eq | .gt | .lt | .and | .or => 2

namespace Instruction

/-- The number of values that an instruction takes from the stack. -/
def needs : Instruction → Nat
  | .push _ _ | .label _ | .goto _ | .function _ _ => 0
  | .pop _ _ | .ifGoto _ | .return => 1
  | .arithmetic command => command.operands
  | .call _ arguments => arguments

/-- The number of values that an instruction leaves on the stack for those it took. -/
def gives : Instruction → Nat
  | .push _ _ | .arithmetic _ | .call _ _ => 1
  | .pop _ _ | .label _ | .goto _ | .ifGoto _ | .function _ _ | .return => 0

def effect (i : Instruction) : Int :=
  i.gives - i.needs

/-- Whether an instruction keeps the discipline at a depth. -/
def fits (depth : Nat) : Instruction → Bool
  | .label _ | .goto _ | .function _ _ => depth = 0
  | .ifGoto _ | .return => depth = 1
  | i => i.needs ≤ depth

theorem needs_le_of_fits {i : Instruction} {depth : Nat} (h : i.fits depth) : i.needs ≤ depth := by
  cases i with
  | push | label | goto | function => exact Nat.zero_le _
  | ifGoto | «return» => exact Nat.le_of_eq (of_decide_eq_true h).symm
  | pop | arithmetic | call => exact of_decide_eq_true h

end Instruction

/-- The depth of the stack in front of a place, as the sum of what the instructions before it do. -/
def depthAt (code : List Instruction) (place : Nat) : Int :=
  ((code.take place).map Instruction.effect).sum

structure StackDiscipline (code : List Instruction) : Prop where
  enough (place : Nat) (i : Instruction) :
    code[place]? = some i → (i.needs : Int) ≤ depthAt code place
  label (place : Nat) (name : String) : code[place]? = some (.label name) → depthAt code place = 0
  goto (place : Nat) (name : String) : code[place]? = some (.goto name) → depthAt code place = 0
  ifGoto (place : Nat) (name : String) :
    code[place]? = some (.ifGoto name) → depthAt code (place + 1) = 0
  returning (place : Nat) : code[place]? = some .return → depthAt code place = 1
  ending : depthAt code code.length = 0

/-! ## Checking the discipline -/

/-- The depth behind some code, unless an instruction on the way does not fit. -/
def checkedDepth : Nat → List Instruction → Option Nat
  | depth, [] => some depth
  | depth, i :: rest => if i.fits depth then checkedDepth (depth - i.needs + i.gives) rest else none

theorem checkedDepth_append (depth : Nat) (a b : List Instruction) :
    checkedDepth depth (a ++ b) = (checkedDepth depth a).bind fun d => checkedDepth d b := by
  induction a generalizing depth with
  | nil => rfl
  | cons i a ih =>
    rw [List.cons_append, checkedDepth, checkedDepth]
    split
    · exact ih _
    · rfl

theorem checkedDepth_eq_sum {depth final : Nat} {code : List Instruction}
    (h : checkedDepth depth code = some final) :
    (final : Int) = depth + (code.map Instruction.effect).sum := by
  induction code generalizing depth with
  | nil =>
    rw [checkedDepth, Option.some.injEq] at h
    simp [h]
  | cons i code ih =>
    rw [checkedDepth] at h
    split at h
    · next fits =>
      have enough := i.needs_le_of_fits fits
      have rest := ih h
      rw [List.map_cons, List.sum_cons, Instruction.effect]
      omega
    · cases h

theorem depthAt_succ {code : List Instruction} {place : Nat} {i : Instruction}
    (h : code[place]? = some i) : depthAt code (place + 1) = depthAt code place + i.effect := by
  rw [depthAt, depthAt, List.take_add_one, h]
  simp

theorem checkedDepth_take {code : List Instruction} {final : Nat}
    (h : checkedDepth 0 code = some final) (place : Nat) :
    ∃ depth : Nat, depthAt code place = depth ∧
      ∀ i, code[place]? = some i → i.fits depth := by
  rw [← List.take_append_drop place code, checkedDepth_append] at h
  obtain ⟨depth, front, back⟩ := Option.bind_eq_some_iff.mp h
  refine ⟨depth, ?_, ?_⟩
  · have sum := checkedDepth_eq_sum front
    rw [depthAt, sum]
    simp
  · intro i hi
    have inside := (List.getElem?_eq_some_iff.mp hi).1
    have first : code.drop place = i :: code.drop (place + 1) := by
      rw [List.drop_eq_getElem_cons inside]
      congr
      exact (List.getElem?_eq_some_iff.mp hi).2
    rw [first, checkedDepth] at back
    split at back
    · next fits => exact fits
    · cases back

theorem stackDiscipline_of_checkedDepth {code : List Instruction}
    (h : checkedDepth 0 code = some 0) : StackDiscipline code where
  enough place i hi := by
    obtain ⟨depth, count, fits⟩ := checkedDepth_take h place
    have enough := i.needs_le_of_fits (fits i hi)
    omega
  label place name hi := by
    obtain ⟨depth, count, fits⟩ := checkedDepth_take h place
    have zero : depth = 0 := of_decide_eq_true (fits _ hi)
    omega
  goto place name hi := by
    obtain ⟨depth, count, fits⟩ := checkedDepth_take h place
    have zero : depth = 0 := of_decide_eq_true (fits _ hi)
    omega
  ifGoto place name hi := by
    obtain ⟨depth, count, fits⟩ := checkedDepth_take h place
    have one : depth = 1 := of_decide_eq_true (fits _ hi)
    rw [depthAt_succ hi, count, one]
    rfl
  returning place hi := by
    obtain ⟨depth, count, fits⟩ := checkedDepth_take h place
    have one : depth = 1 := of_decide_eq_true (fits _ hi)
    omega
  ending := by
    have sum := checkedDepth_eq_sum h
    rw [depthAt, List.take_length]
    simpa using sum.symm

/-! ## Paths -/

/-- The stack behind an instruction. Each value is known by the place that pushed it. -/
def stackBehind (i : Instruction) (place : Nat) (stack : List Nat) : List Nat :=
  List.replicate i.gives place ++ stack.drop i.needs

/-- The places that can be reached in a function, with the stack there. Either way is open at a
conditional jump. -/
inductive Path (code : List Instruction) : Nat → List Nat → Prop
  | start : Path code 0 []
  | next {place : Nat} {stack : List Nat} {i : Instruction} (path : Path code place stack)
    (here : code[place]? = some i) (enough : i.needs ≤ stack.length)
    (on : ∀ name, i ≠ .goto name) (still : i ≠ .return) :
    Path code (place + 1) (stackBehind i place stack)
  | jump {place target : Nat} {stack : List Nat} {i : Instruction} {name : String}
    (path : Path code place stack) (here : code[place]? = some i)
    (jumps : i = .goto name ∨ i = .ifGoto name) (enough : i.needs ≤ stack.length)
    (there : code[target]? = some (.label name)) : Path code target (stackBehind i place stack)

def stackAfter : Nat → List Nat → List Instruction → List Nat
  | _, stack, [] => stack
  | place, stack, i :: rest => stackAfter (place + 1) (stackBehind i place stack) rest

/-- The stack in front of a place if all code before it is run straight through. -/
def stackAt (code : List Instruction) (place : Nat) : List Nat :=
  stackAfter 0 [] (code.take place)

theorem stackAfter_append (place : Nat) (stack : List Nat) (a b : List Instruction) :
    stackAfter place stack (a ++ b) =
      stackAfter (place + a.length) (stackAfter place stack a) b := by
  induction a generalizing place stack with
  | nil => rfl
  | cons i a ih =>
    rw [List.cons_append, stackAfter, ih, stackAfter, List.length_cons]
    congr 1
    omega

theorem stackAt_succ {code : List Instruction} {place : Nat} {i : Instruction}
    (h : code[place]? = some i) :
    stackAt code (place + 1) = stackBehind i place (stackAt code place) := by
  have inside := (List.getElem?_eq_some_iff.mp h).1
  rw [stackAt, List.take_add_one, h, stackAfter_append, List.length_take,
    Nat.min_eq_left (Nat.le_of_lt inside), Nat.zero_add]
  rfl

theorem length_stackBehind {i : Instruction} {stack : List Nat} (place : Nat)
    (enough : i.needs ≤ stack.length) :
    ((stackBehind i place stack).length : Int) = stack.length + i.effect := by
  rw [stackBehind, List.length_append, List.length_replicate, List.length_drop,
    Instruction.effect]
  omega

namespace StackDiscipline

variable {code : List Instruction}

theorem length_stackAt (h : StackDiscipline code) (place : Nat) (inside : place ≤ code.length) :
    ((stackAt code place).length : Int) = depthAt code place := by
  induction place with
  | zero => simp [stackAt, stackAfter, depthAt]
  | succ place ih =>
    have before := ih (Nat.le_of_succ_le inside)
    have here : code[place]? = some code[place] := List.getElem?_eq_getElem inside
    have enough := h.enough place _ here
    rw [stackAt_succ here, depthAt_succ here, length_stackBehind place (by omega), before]

/-- Every path finds the stack as if all code before had been run straight through. -/
theorem stack_eq (h : StackDiscipline code) {place : Nat} {stack : List Nat}
    (path : Path code place stack) : place ≤ code.length ∧ stack = stackAt code place := by
  induction path with
  | start => exact ⟨Nat.zero_le _, rfl⟩
  | @next place stack i path here enough on still ih =>
    refine ⟨(List.getElem?_eq_some_iff.mp here).1, ?_⟩
    rw [stackAt_succ here, ih.2]
  | @jump place target stack i name path here jumps enough there ih =>
    have inside := (List.getElem?_eq_some_iff.mp there).1
    refine ⟨Nat.le_of_lt inside, ?_⟩
    have arrived := h.length_stackAt target (Nat.le_of_lt inside)
    rw [h.label target name there] at arrived
    have left := h.length_stackAt (place + 1) (List.getElem?_eq_some_iff.mp here).1
    rw [stackAt_succ here, ← ih.2] at left
    have empty : depthAt code (place + 1) = 0 := by
      rcases jumps with rfl | rfl
      · rw [depthAt_succ here, h.goto place name here]
        rfl
      · exact h.ifGoto place name here
    rw [List.eq_nil_of_length_eq_zero (l := stackAt code target) (by omega)]
    exact List.eq_nil_of_length_eq_zero (by omega)

end StackDiscipline

end JackVm

import JackVm.Proofs.Compilation.Translation
import JackVm.Proofs.Machine.Balance

/-!
# Stack safety of compiled code

A compiled class is a row of function blocks. Each keeps the discipline of the stack, so that on
every path through it no instruction finds too little, each call takes the values of its own
operands and each return finds just the value that it gives back.
-/

namespace JackVm

def Instruction.isFunction : Instruction → Bool
  | .function _ _ => true
  | _ => false

/-- The blocks of code, each from a function's beginning to the next one. -/
def functionBlocks : List Instruction → List (List Instruction)
  | [] => []
  | i :: rest =>
    if i.isFunction then
      (i :: rest.takeWhile fun j => !j.isFunction) :: functionBlocks rest
    else functionBlocks rest

/-- What holds wherever a path through a block leads. -/
structure SafeAt (block : List Instruction) (sites : List CallSite) (place : Nat)
    (stack : List Nat) : Prop where
  enough (i : Instruction) : block[place]? = some i → i.needs ≤ stack.length
  /-- A call takes the values of its operands, whose code stands in front of it. -/
  called (target : String) (arguments : Nat) : block[place]? = some (.call target arguments) →
    ∃ operands front, ⟨target, operands⟩ ∈ sites ∧ operands.length = arguments ∧
      (∀ p ∈ operands, PushesOne p) ∧ block.take place = front ++ operands.flatten ∧
      stack.take arguments = (pushedBy front.length operands).reverse ∧
      stack.drop arguments = stackAt block front.length
  returned : block[place]? = some .return → stack.length = 1
  ended : place = block.length → stack = []

structure StackSafe (block : List Instruction) (sites : List CallSite) : Prop where
  discipline : StackDiscipline block
  safe (place : Nat) (stack : List Nat) : Path block place stack → SafeAt block sites place stack

/-! ## Function blocks -/

theorem functionBlocks_append_of_inside {body : List Instruction} (rest : List Instruction)
    (inside : ∀ i ∈ body, ∀ name locals, i ≠ .function name locals) :
    functionBlocks (body ++ rest) = functionBlocks rest ∧
      (body ++ rest).takeWhile (fun j => !j.isFunction) =
        body ++ rest.takeWhile fun j => !j.isFunction := by
  induction body with
  | nil => exact ⟨rfl, rfl⟩
  | cons i body ih =>
    rw [List.forall_mem_cons] at inside
    have plain : i.isFunction = false := by
      cases i with
      | function name locals => exact absurd rfl (inside.1 name locals)
      | _ => rfl
    have further := ih inside.2
    rw [List.cons_append, functionBlocks, plain, List.takeWhile_cons, plain]
    exact ⟨further.1, congrArg (i :: ·) further.2⟩

/-- Blocks that each begin one function are found again where one ends and the next begins. -/
theorem functionBlocks_flatMap {α : Type} (blocks : List α) (name : α → String)
    (locals : α → Nat) (body : α → List Instruction)
    (inside : ∀ b ∈ blocks, ∀ i ∈ body b, ∀ name locals, i ≠ .function name locals) :
    functionBlocks (blocks.flatMap fun b => .function (name b) (locals b) :: body b) =
        blocks.map (fun b => .function (name b) (locals b) :: body b) ∧
      (blocks.flatMap fun b => .function (name b) (locals b) :: body b).takeWhile
        (fun j => !j.isFunction) = [] := by
  induction blocks with
  | nil => exact ⟨rfl, rfl⟩
  | cons b blocks ih =>
    rw [List.forall_mem_cons] at inside
    have further := ih inside.2
    have first := functionBlocks_append_of_inside
      (blocks.flatMap fun b => .function (name b) (locals b) :: body b) inside.1
    rw [List.flatMap_cons, List.cons_append, functionBlocks, first.1, first.2, further.1,
      further.2, List.append_nil]
    exact ⟨rfl, rfl⟩

theorem ClassDec.functionBlocks_code {c : ClassDec} (h : c.Valid) :
    functionBlocks c.code = c.subroutines.map fun d => d.code c := by
  simp only [ClassDec.code, SubroutineDec.code_eq_cons]
  apply And.left
  apply functionBlocks_flatMap
  intro d hd
  exact (SubroutineDec.leaves (h.subroutines d hd)).calls.ne_function

/-- Whatever compiles has a valid tree, and its code is a row of the blocks of the tree's
subroutines. -/
theorem compile_blocks {source : ByteArray} {code : Code} (h : compile source = .ok code) :
    ∃ (text : String) (c : ClassDec), String.fromUTF8? source = some text ∧
      c.lexemes = sourceLexemes text ∧ c.Valid ∧
      (functionBlocks code.instructions).flatten = code.instructions ∧
      functionBlocks code.instructions = c.subroutines.map fun d => d.code c := by
  obtain ⟨text, c, decoded, derives, valid, instructions⟩ := compile_yields h
  have blocks : functionBlocks code.instructions = c.subroutines.map fun d => d.code c := by
    rw [instructions, c.functionBlocks_code valid]
  refine ⟨text, c, decoded, derives, valid, ?_, blocks⟩
  rw [blocks, instructions, ← List.flatMap_def]
  rfl

/-! ## Safety -/

theorem called_of_leaves {name target : String} {locals place arguments : Nat}
    {body : List Instruction} {sites : List CallSite} (h : Leaves 0 body sites)
    (here : (.function name locals :: body)[place]? = some (.call target arguments)) :
    ∃ operands front, ⟨target, operands⟩ ∈ sites ∧ operands.length = arguments ∧
      (∀ p ∈ operands, PushesOne p) ∧
      (Instruction.function name locals :: body).take place = front ++ operands.flatten := by
  cases place with
  | zero => cases here
  | succ place =>
    obtain ⟨operands, front, listed, count, single, split⟩ := h.calls.site here
    refine ⟨operands, .function name locals :: front, listed, count, single, ?_⟩
    rw [List.take_succ_cons, split]
    rfl

theorem stackSafe_of_leaves {name : String} {locals : Nat} {body : List Instruction}
    {sites : List CallSite} (h : Leaves 0 body sites) :
    StackSafe (.function name locals :: body) sites := by
  have discipline : StackDiscipline (.function name locals :: body) :=
    stackDiscipline_of_checkedDepth h.depth
  constructor
  · exact discipline
  intro place stack path
  obtain ⟨inside, rfl⟩ := discipline.stack_eq path
  have depth := discipline.length_stackAt place inside
  constructor
  · intro i here
    have enough := discipline.enough place i here
    omega
  · intro target arguments here
    obtain ⟨operands, front, listed, count, single, split⟩ := called_of_leaves h here
    have length : (pushedBy front.length operands).reverse.length = arguments := by
      rw [List.length_reverse, length_pushedBy, count]
    refine ⟨operands, front, listed, count, single, split, ?_, ?_⟩
    · rw [stackAt_operands single split, List.take_left' length]
    · rw [stackAt_operands single split, List.drop_left' length]
  · intro here
    have one := discipline.returning place here
    omega
  · intro ending
    have none := discipline.ending
    rw [← ending] at none
    exact List.eq_nil_of_length_eq_zero (by omega)

/-- The blocks of whatever compiles are those of the subroutines of its tree, and they are all
safe. -/
theorem compile_stackSafe (source : ByteArray) (code : Code) (h : compile source = .ok code) :
    ∃ (text : String) (c : ClassDec), String.fromUTF8? source = some text ∧
      c.lexemes = sourceLexemes text ∧
      (functionBlocks code.instructions).flatten = code.instructions ∧
      functionBlocks code.instructions = c.subroutines.map (fun d => d.code c) ∧
      ∀ d ∈ c.subroutines, StackSafe (d.code c) (d.calls c) := by
  obtain ⟨text, c, decoded, derives, valid, whole, blocks⟩ := compile_blocks h
  refine ⟨text, c, decoded, derives, whole, blocks, fun d hd => ?_⟩
  rw [d.code_eq_cons]
  exact stackSafe_of_leaves (SubroutineDec.leaves (valid.subroutines d hd))

theorem compile_stackSafe_loop :
    ∃ source code, compile source = .ok code ∧
      code.instructions = [.function "P.f" 0, .label "WHILE_EXP0", .push .argument 0,
        .push .constant 1, .call "Q.g" 2, .arithmetic .not, .ifGoto "WHILE_END0",
        .push .constant 2, .push .argument 0, .arithmetic .add, .push .constant 3,
        .pop .temp 0, .pop .pointer 1, .push .temp 0, .pop .that 0, .goto "WHILE_EXP0",
        .label "WHILE_END0", .push .constant 0, .return] ∧
      ∃ (text : String) (c : ClassDec), String.fromUTF8? source = some text ∧
        c.lexemes = sourceLexemes text ∧
        (functionBlocks code.instructions).flatten = code.instructions ∧
        functionBlocks code.instructions = c.subroutines.map (fun d => d.code c) ∧
        ∀ d ∈ c.subroutines, StackSafe (d.code c) (d.calls c) := by
  have run : compile "class P \x7b function void f(Q q) \x7b
      while (q.g(1)) \x7b let q[2] = 3; \x7d return; \x7d \x7d".toUTF8 =
      .ok (.ofRows [⟨.function "P.f" 0, 1⟩, ⟨.label "WHILE_EXP0", 2⟩, ⟨.push .argument 0, 2⟩,
        ⟨.push .constant 1, 2⟩, ⟨.call "Q.g" 2, 2⟩, ⟨.arithmetic .not, 2⟩,
        ⟨.ifGoto "WHILE_END0", 2⟩, ⟨.push .constant 2, 2⟩, ⟨.push .argument 0, 2⟩,
        ⟨.arithmetic .add, 2⟩, ⟨.push .constant 3, 2⟩, ⟨.pop .temp 0, 2⟩, ⟨.pop .pointer 1, 2⟩,
        ⟨.push .temp 0, 2⟩, ⟨.pop .that 0, 2⟩, ⟨.goto "WHILE_EXP0", 2⟩, ⟨.label "WHILE_END0", 2⟩,
        ⟨.push .constant 0, 2⟩, ⟨.return, 2⟩]) := by
    rw [compile_ofList]
    decide +kernel
  exact ⟨_, _, run, rfl, compile_stackSafe _ _ run⟩

end JackVm

import JackVm.Proofs.Compilation.Acceptance
import JackVm.Proofs.Machine.StackSafety
import JackVm.Proofs.Translation.Instructions

/-!
# The operands of compiled code

The slots that a function may address are those that its class and its subroutine have declared.
No instruction of a function addresses any other, although nothing is checked when it is written.
-/

namespace JackVm

/-- Whether a segment has a slot, given how many variables of each kind there are. -/
def Segment.Offers (slots : Tally) : Segment → Nat → Prop
  | .constant, _ => True
  | .argument, i => i < slots.arguments
  | .local, i => i < slots.locals
  | .static, i => i < slots.statics
  | .this, i => i < slots.fields
  | .that, i => i = 0
  | .pointer, i => i = 0 ∨ i = 1
  | .temp, i => i = 0

/-- Whether an instruction addresses a slot that there is, and pops into none that is constant. -/
def Instruction.Legal (slots : Tally) : Instruction → Prop
  | .push segment i => segment.Offers slots i
  | .pop segment i => segment ≠ .constant ∧ segment.Offers slots i
  | .arithmetic _ | .label _ | .goto _ | .ifGoto _ | .function _ _ | .call _ _ | .return => True

def ClassDec.staticCount (c : ClassDec) : Nat :=
  ((c.varDecs.filter (·.storage = .static)).flatMap fun d => d.group.names).length

theorem ClassDec.countP_statics (c : ClassDec) :
    c.declarations.countP (·.kind = .static) = c.staticCount :=
  countP_storage c.varDecs .static

/-- The variables that the function of a subroutine may address. The object of a method is one
argument more than is declared. -/
def SubroutineDec.slots (d : SubroutineDec) (c : ClassDec) : Tally where
  statics := c.staticCount
  fields := c.fieldCount
  arguments := d.parameters.length + if d.form = .method then 1 else 0
  locals := d.localCount

/-! ## Variables have their slots -/

theorem index_lt_of_mem_numbered {earlier l : List Declaration} {v : Variable}
    (h : v ∈ numbered earlier l) : v.index < (earlier ++ l).countP (·.kind = v.kind) := by
  induction l generalizing earlier with
  | nil => cases h
  | cons d l ih =>
    rw [numbered, List.mem_cons] at h
    rcases h with rfl | h
    · rw [List.countP_append, List.countP_cons]
      simp only [decide_true, if_true]
      omega
    · have further := ih h
      rwa [List.append_assoc] at further

theorem index_lt_of_variableNamed? {declarations : List Declaration} {name : String}
    {v : Variable} (h : variableNamed? declarations name = some v) :
    v.index < declarations.countP (·.kind = v.kind) :=
  index_lt_of_mem_numbered (List.mem_of_find?_eq_some h)

theorem SubroutineDec.index_lt_slots {d : SubroutineDec} {c : ClassDec} {name : String}
    {v : Variable} (h : (d.environment c).find? name = some v) :
    v.index < (d.slots c).count v.kind := by
  have either : variableNamed? (d.declarations c.name) name = some v ∨
      variableNamed? c.declarations name = some v := by
    rcases Option.or_eq_some_iff.mp h with inner | ⟨-, outer⟩
    · exact .inl inner
    · exact .inr outer
  rcases either with inner | outer
  · have below := index_lt_of_variableNamed? inner
    cases kind : v.kind with
    | argument =>
      rw [kind, d.countP_argument] at below
      exact below
    | «local» =>
      rw [kind, d.countP_declarations] at below
      exact below
    | static | field =>
      rw [kind, d.countP_outside c.name rfl] at below
      exact absurd below (Nat.not_lt_zero _)
  · have below := index_lt_of_variableNamed? outer
    cases kind : v.kind with
    | static =>
      rw [kind, c.countP_statics] at below
      exact below
    | field =>
      rw [kind, c.countP_declarations] at below
      exact below
    | argument | «local» =>
      rw [kind, c.countP_class_kind rfl] at below
      exact absurd below (Nat.not_lt_zero _)

/-! ## Instructions are legal -/

section
variable {env : Environment} {uses : List Use} {slots : Tally} {i : Instruction}

theorem Variable.offers {v : Variable} (h : v.index < slots.count v.kind) :
    v.kind.segment.Offers slots v.index := by
  cases kind : v.kind <;> rw [kind] at h <;> exact h

theorem Variable.legal_pop {v : Variable} (h : v.index < slots.count v.kind) :
    v.pop.Legal slots := by
  refine ⟨?_, v.offers h⟩
  cases v.kind <;> simp [VariableKind.segment]

theorem ExpressionInstruction.legal (h : ExpressionInstruction env uses i)
    (declared : ∀ name v, env.find? name = some v → v.index < slots.count v.kind) :
    i.Legal slots := by
  cases h with
  | integer | length | character | zero | operate | call => trivial
  | load found => exact Variable.offers (declared _ _ found)
  | object => exact .inl rfl
  | select => exact ⟨by decide, .inr rfl⟩
  | element => rfl
  | library listed =>
    simp only [libraryCalls, List.mem_cons, List.not_mem_nil, or_false] at listed
    obtain rfl | rfl | rfl | rfl := listed <;> trivial

theorem StatementInstruction.legal (h : StatementInstruction env uses i)
    (declared : ∀ name v, env.find? name = some v → v.index < slots.count v.kind) :
    i.Legal slots := by
  cases h with
  | expression h => exact h.legal declared
  | store found => exact Variable.legal_pop (declared _ _ found)
  | keep => exact ⟨by decide, rfl⟩
  | kept => rfl
  | assign => exact ⟨by decide, rfl⟩
  | label | goto | ifGoto | «return» => trivial

end

theorem SubroutineDec.legal_prologue (d : SubroutineDec) (c : ClassDec) :
    ∀ i ∈ Compilation.SubroutineForm.prologue c.fieldCount d.form, i.Legal (d.slots c) := by
  intro i hi
  cases form : d.form with
  | function =>
    rw [form] at hi
    cases hi
  | constructor =>
    rw [form] at hi
    simp only [Compilation.SubroutineForm.prologue, List.mem_cons, List.not_mem_nil, or_false] at hi
    obtain rfl | rfl | rfl := hi
    · trivial
    · trivial
    · exact ⟨by decide, .inl rfl⟩
  | method =>
    rw [form] at hi
    simp only [Compilation.SubroutineForm.prologue, List.mem_cons, List.not_mem_nil, or_false] at hi
    obtain rfl | rfl := hi
    · show 0 < d.parameters.length + if d.form = .method then 1 else 0
      rw [form]
      exact Nat.succ_pos _
    · exact ⟨by decide, .inl rfl⟩

theorem SubroutineDec.legal_bodyCode (d : SubroutineDec) (c : ClassDec) :
    ∀ i ∈ d.bodyCode c, i.Legal (d.slots c) := by
  rw [bodyCode, List.forall_mem_append]
  refine ⟨d.legal_prologue c, ?_⟩
  intro i hi
  have made := statementCode_is (d.environment c) 0 0 d.body i hi
  exact made.legal fun _ _ found => SubroutineDec.index_lt_slots found

/-- Compiled code is empty or begins with a function. Each of its instructions lies in the block of
a subroutine and addresses a slot which that subroutine has, and each constructor makes an object
of as many words as its class has fields. -/
theorem compile_operands_legal (source : ByteArray) (code : Code) (h : compile source = .ok code) :
    (code.instructions = [] ∨
      ∃ name locals rest, code.instructions = .function name locals :: rest) ∧
    ∃ (text : String) (c : ClassDec), String.fromUTF8? source = some text ∧
      c.lexemes = sourceLexemes text ∧
      (functionBlocks code.instructions).flatten = code.instructions ∧
      functionBlocks code.instructions = c.subroutines.map (fun d => d.code c) ∧
      ∀ d ∈ c.subroutines, ∃ body,
        d.code c = .function (c.name ++ "." ++ d.name) (d.slots c).locals :: body ∧
        (∀ i ∈ body, i.Legal (d.slots c)) ∧
        (d.form = .constructor → [.push .constant (d.slots c).fields, .call "Memory.alloc" 1,
          .pop .pointer 0] <+: body) := by
  obtain ⟨text, c, decoded, derives, -, flat, blocks⟩ := compile_blocks h
  refine ⟨?_, text, c, decoded, derives, flat, blocks, ?_⟩
  · rw [← flat, blocks]
    cases c.subroutines with
    | nil => exact .inl rfl
    | cons d rest =>
      right
      rw [List.map_cons, List.flatten_cons, d.code_eq_cons]
      exact ⟨_, _, _, rfl⟩
  · intro d hd
    refine ⟨d.bodyCode c, d.code_eq_cons c, d.legal_bodyCode c, ?_⟩
    intro form
    rw [SubroutineDec.bodyCode, form]
    exact List.prefix_append _ _

theorem compile_operands_legal_shadowing :
    ∃ source code, compile source = .ok code ∧
      code.instructions = [.function "P.new" 0, .push .constant 2, .call "Memory.alloc" 1,
        .pop .pointer 0, .push .argument 0, .pop .this 0, .push .static 0, .push .constant 1,
        .arithmetic .add, .pop .static 0, .push .pointer 0, .return, .function "P.get" 1,
        .push .argument 0, .pop .pointer 0, .push .this 1, .pop .local 0, .push .local 0,
        .push .argument 1, .arithmetic .add, .return] ∧
      (code.instructions = [] ∨
        ∃ name locals rest, code.instructions = .function name locals :: rest) ∧
      ∃ (text : String) (c : ClassDec), String.fromUTF8? source = some text ∧
        c.lexemes = sourceLexemes text ∧
        (functionBlocks code.instructions).flatten = code.instructions ∧
        functionBlocks code.instructions = c.subroutines.map (fun d => d.code c) ∧
        ∀ d ∈ c.subroutines, ∃ body,
          d.code c = .function (c.name ++ "." ++ d.name) (d.slots c).locals :: body ∧
          (∀ i ∈ body, i.Legal (d.slots c)) ∧
          (d.form = .constructor → [.push .constant (d.slots c).fields, .call "Memory.alloc" 1,
            .pop .pointer 0] <+: body) := by
  have run : compile "class P \x7b static int s; field int x, y;
      constructor P new(int a) \x7b let x = a; let s = s + 1; return this; \x7d
      method int get(int i) \x7b var int x; let x = y; return x + i; \x7d \x7d".toUTF8 =
      .ok (.ofRows [⟨.function "P.new" 0, 2⟩, ⟨.push .constant 2, 2⟩, ⟨.call "Memory.alloc" 1, 2⟩,
        ⟨.pop .pointer 0, 2⟩, ⟨.push .argument 0, 2⟩, ⟨.pop .this 0, 2⟩, ⟨.push .static 0, 2⟩,
        ⟨.push .constant 1, 2⟩, ⟨.arithmetic .add, 2⟩, ⟨.pop .static 0, 2⟩, ⟨.push .pointer 0, 2⟩,
        ⟨.return, 2⟩, ⟨.function "P.get" 1, 3⟩, ⟨.push .argument 0, 3⟩, ⟨.pop .pointer 0, 3⟩,
        ⟨.push .this 1, 3⟩, ⟨.pop .local 0, 3⟩, ⟨.push .local 0, 3⟩, ⟨.push .argument 1, 3⟩,
        ⟨.arithmetic .add, 3⟩, ⟨.return, 3⟩]) := by
    rw [compile_ofList]
    decide +kernel
  exact ⟨_, _, run, rfl, compile_operands_legal _ _ run⟩

end JackVm

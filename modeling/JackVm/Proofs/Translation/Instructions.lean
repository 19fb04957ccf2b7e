import JackVm.Proofs.Translation.Code

/-!
# The instructions of a tree

Which instructions the code of a tree is made of, and what each owes its operands to: a variable of
the environment, a use of the tree, or the translation alone.
-/

namespace JackVm

def labelsNumbered (number : Nat) : List String :=
  [Compilation.ifTrueLabel number, Compilation.ifFalseLabel number,
    Compilation.ifEndLabel number, Compilation.whileStartLabel number,
    Compilation.whileEndLabel number]

/-- The functions that constants and operators call. -/
def libraryCalls : List Instruction :=
  [.call "Math.multiply" 2, .call "Math.divide" 2, .call "String.new" 1,
    .call "String.appendChar" 2]

inductive ExpressionInstruction (env : Environment) (uses : List Use) : Instruction → Prop
  | integer {digits : String} (used : .integer digits ∈ uses) :
    ExpressionInstruction env uses (.push .constant (numeralValue digits))
  | length {content : String} (used : .string content ∈ uses) :
    ExpressionInstruction env uses (.push .constant content.length)
  | character {content : String} {c : Char} (used : .string content ∈ uses)
    (inside : c ∈ content.toList) : ExpressionInstruction env uses (.push .constant c.toNat)
  | zero : ExpressionInstruction env uses (.push .constant 0)
  | load {name : String} {v : Variable} (found : env.find? name = some v) :
    ExpressionInstruction env uses v.push
  | object : ExpressionInstruction env uses (.push .pointer 0)
  | select : ExpressionInstruction env uses (.pop .pointer 1)
  | element : ExpressionInstruction env uses (.push .that 0)
  | operate (command : Command) : ExpressionInstruction env uses (.arithmetic command)
  | library {i : Instruction} (listed : i ∈ libraryCalls) : ExpressionInstruction env uses i
  | call {callee : Callee} {count : Nat} (used : .call callee count ∈ uses) :
    ExpressionInstruction env uses (.call (env.target callee) (count + env.receivers callee))

inductive StatementInstruction (env : Environment) (uses : List Use) : Instruction → Prop
  | expression {i : Instruction} (h : ExpressionInstruction env uses i) :
    StatementInstruction env uses i
  | store {name : String} {v : Variable} (found : env.find? name = some v) :
    StatementInstruction env uses v.pop
  | keep : StatementInstruction env uses (.pop .temp 0)
  | kept : StatementInstruction env uses (.push .temp 0)
  | assign : StatementInstruction env uses (.pop .that 0)
  | label (number : Nat) {name : String} (numbered : name ∈ labelsNumbered number) :
    StatementInstruction env uses (.label name)
  | goto (number : Nat) {name : String} (numbered : name ∈ labelsNumbered number) :
    StatementInstruction env uses (.goto name)
  | ifGoto (number : Nat) {name : String} (numbered : name ∈ labelsNumbered number) :
    StatementInstruction env uses (.ifGoto name)
  | return : StatementInstruction env uses .return

theorem ExpressionInstruction.mono {env : Environment} {uses more : List Use} {i : Instruction}
    (h : ExpressionInstruction env uses i) (sub : uses ⊆ more) :
    ExpressionInstruction env more i := by
  cases h with
  | integer used => exact .integer (sub used)
  | length used => exact .length (sub used)
  | character used inside => exact .character (sub used) inside
  | zero => exact .zero
  | load found => exact .load found
  | object => exact .object
  | select => exact .select
  | element => exact .element
  | operate command => exact .operate command
  | library listed => exact .library listed
  | call used => exact .call (sub used)

theorem StatementInstruction.mono {env : Environment} {uses more : List Use} {i : Instruction}
    (h : StatementInstruction env uses i) (sub : uses ⊆ more) :
    StatementInstruction env more i := by
  cases h with
  | expression h => exact .expression (h.mono sub)
  | store found => exact .store found
  | keep => exact .keep
  | kept => exact .kept
  | assign => exact .assign
  | label number numbered => exact .label number numbered
  | goto number numbered => exact .goto number numbered
  | ifGoto number numbered => exact .ifGoto number numbered
  | «return» => exact .return

/-- Whether code is made of instructions that evaluate expressions. -/
def OfExpressions (env : Environment) (uses : List Use) (code : List Instruction) : Prop :=
  ∀ i ∈ code, ExpressionInstruction env uses i

/-- Whether code is made of instructions that execute statements. -/
def OfStatements (env : Environment) (uses : List Use) (code : List Instruction) : Prop :=
  ∀ i ∈ code, StatementInstruction env uses i

section
variable {env : Environment} {uses more : List Use} {i : Instruction} {a b : List Instruction}

@[simp] theorem ofExpressions_nil : OfExpressions env uses [] := by simp [OfExpressions]

@[simp] theorem ofExpressions_cons :
    OfExpressions env uses (i :: a) ↔ ExpressionInstruction env uses i ∧
      OfExpressions env uses a :=
  List.forall_mem_cons

@[simp] theorem ofExpressions_append :
    OfExpressions env uses (a ++ b) ↔ OfExpressions env uses a ∧ OfExpressions env uses b :=
  List.forall_mem_append

theorem OfExpressions.mono (h : OfExpressions env uses a) (sub : uses ⊆ more) :
    OfExpressions env more a :=
  fun i hi => (h i hi).mono sub

@[simp] theorem ofStatements_nil : OfStatements env uses [] := by simp [OfStatements]

@[simp] theorem ofStatements_cons :
    OfStatements env uses (i :: a) ↔ StatementInstruction env uses i ∧
      OfStatements env uses a :=
  List.forall_mem_cons

@[simp] theorem ofStatements_append :
    OfStatements env uses (a ++ b) ↔ OfStatements env uses a ∧ OfStatements env uses b :=
  List.forall_mem_append

theorem OfStatements.mono (h : OfStatements env uses a) (sub : uses ⊆ more) :
    OfStatements env more a :=
  fun i hi => (h i hi).mono sub

theorem OfExpressions.statement (h : OfExpressions env uses a) (sub : uses ⊆ more) :
    OfStatements env more a :=
  fun i hi => .expression ((h i hi).mono sub)

end

/-! ## Expressions -/

section
variable (env : Environment) (uses : List Use)

theorem Environment.code_load (name : String) : OfExpressions env uses (env.load name) := by
  intro i hi
  rw [load, List.mem_map] at hi
  obtain ⟨v, found, rfl⟩ := hi
  exact .load (Option.mem_toList.mp found)

theorem Environment.code_store (name : String) : OfStatements env uses (env.store name) := by
  intro i hi
  rw [store, List.mem_map] at hi
  obtain ⟨v, found, rfl⟩ := hi
  exact .store (Option.mem_toList.mp found)

theorem Environment.code_receiver (callee : Callee) :
    OfExpressions env uses (env.receiver callee) := by
  cases callee with
  | own name => exact ofExpressions_cons.mpr ⟨.object, ofExpressions_nil⟩
  | qualified qualifier name => exact env.code_load uses qualifier

theorem Constant.code_is (k : Constant) : OfExpressions env uses k.code := by
  cases k with
  | true =>
    simp only [code, ofExpressions_cons, ofExpressions_nil, and_true]
    exact ⟨.zero, .operate .not⟩
  | false | null => exact ofExpressions_cons.mpr ⟨.zero, ofExpressions_nil⟩
  | this => exact ofExpressions_cons.mpr ⟨.object, ofExpressions_nil⟩

theorem BinaryOperator.instruction_is (op : BinaryOperator) :
    ExpressionInstruction env uses op.instruction := by
  cases op with
  | multiply | divide => exact .library (by simp [libraryCalls, instruction])
  | add | subtract | and | or | less | greater | equal => exact .operate _

theorem UnaryOperator.instruction_is (op : UnaryOperator) :
    ExpressionInstruction env uses op.instruction := by
  cases op with
  | negate | complement => exact .operate _

variable {uses}

theorem code_string {content : String} (used : .string content ∈ uses) :
    OfExpressions env uses (stringCode content) := by
  rw [stringCode, ofExpressions_append]
  constructor
  · simp only [ofExpressions_cons, ofExpressions_nil, and_true]
    exact ⟨.length used, .library (by simp [libraryCalls])⟩
  · intro i hi
    obtain ⟨c, inside, hi⟩ := List.mem_flatMap.mp hi
    simp only [characterCode, List.mem_cons, List.not_mem_nil, or_false] at hi
    obtain rfl | rfl := hi
    · exact .character used inside
    · exact .library (by simp [libraryCalls])

theorem Environment.code_call {callee : Callee} {count : Nat} {arguments : List Instruction}
    (used : .call callee count ∈ uses) (inside : OfExpressions env uses arguments) :
    OfExpressions env uses (env.callCode callee count arguments) := by
  simp only [callCode, ofExpressions_append, ofExpressions_cons, ofExpressions_nil, and_true]
  exact ⟨⟨env.code_receiver uses callee, inside⟩, .call used⟩

end

mutual

theorem Expression.code_is (env : Environment) (e : Expression) :
    OfExpressions env e.uses (e.code env) := by
  cases e with
  | mk first rest =>
    rw [Expression.code, ofExpressions_append]
    constructor
    · exact (first.code_is env).mono (List.subset_append_left _ _)
    · exact (operationCode_is env rest).mono (List.subset_append_right _ _)

theorem operationCode_is (env : Environment) (rest : List (BinaryOperator × Term)) :
    OfExpressions env (operationUses rest) (operationCode env rest) := by
  cases rest with
  | nil => exact ofExpressions_nil
  | cons first rest =>
    obtain ⟨op, operand⟩ := first
    simp only [operationCode, ofExpressions_append, ofExpressions_cons, ofExpressions_nil,
      and_true]
    refine ⟨⟨?_, op.instruction_is env _⟩, ?_⟩
    · exact (operand.code_is env).mono (List.subset_append_left _ _)
    · exact (operationCode_is env rest).mono (List.subset_append_right _ _)

theorem Term.code_is (env : Environment) (t : Term) :
    OfExpressions env t.uses (t.code env) := by
  cases t with
  | integer digits =>
    exact ofExpressions_cons.mpr ⟨.integer (List.mem_singleton_self _), ofExpressions_nil⟩
  | string content => exact code_string env (List.mem_singleton_self _)
  | constant k => exact k.code_is env _
  | «variable» name => exact env.code_load _ name
  | element name index =>
    simp only [Term.code, ofExpressions_append, ofExpressions_cons, ofExpressions_nil, and_true]
    refine ⟨⟨?_, env.code_load _ name⟩, .operate .add, .select, .element⟩
    exact (index.code_is env).mono (List.subset_cons_self _ _)
  | call callee arguments =>
    apply env.code_call (List.mem_cons_self ..)
    exact (argumentCode_is env arguments).mono (List.subset_cons_self _ _)
  | group inner => exact inner.code_is env
  | unary op operand =>
    simp only [Term.code, ofExpressions_append, ofExpressions_cons, ofExpressions_nil, and_true]
    exact ⟨operand.code_is env, op.instruction_is env _⟩

theorem argumentCode_is (env : Environment) (arguments : List Expression) :
    OfExpressions env (argumentUses arguments) (argumentCode env arguments) := by
  cases arguments with
  | nil => exact ofExpressions_nil
  | cons e rest =>
    rw [argumentCode, ofExpressions_append]
    constructor
    · exact (e.code_is env).mono (List.subset_append_left _ _)
    · exact (argumentCode_is env rest).mono (List.subset_append_right _ _)

end

/-! ## Statements -/

theorem instructions_branch (env : Environment) (uses : List Use) (number : Nat) :
    OfStatements env uses [.ifGoto (Compilation.ifTrueLabel number),
      .goto (Compilation.ifFalseLabel number), .label (Compilation.ifTrueLabel number)] := by
  simp only [ofStatements_cons, ofStatements_nil, and_true]
  exact ⟨.ifGoto number (by simp [labelsNumbered]),
    .goto number (by simp [labelsNumbered]),
    .label number (by simp [labelsNumbered])⟩

mutual

theorem Statement.code_is (env : Environment) (ifs whiles : Nat) (s : Statement) :
    OfStatements env s.uses (s.code env ifs whiles) := by
  cases s with
  | «let» name value =>
    rw [Statement.code, ofStatements_append]
    exact ⟨(value.code_is env).statement (List.subset_cons_self _ _), env.code_store _ name⟩
  | letElement name index value =>
    simp only [Statement.code, ofStatements_append, ofStatements_cons,
      ofStatements_nil, and_true]
    refine ⟨⟨⟨⟨?_, ?_⟩, .expression (.operate .add)⟩, ?_⟩, .keep, .expression .select, .kept,
      .assign⟩
    · exact (index.code_is env).statement
        (List.subset_cons_of_subset _ (List.subset_append_left _ _))
    · exact (env.code_load [] name).statement (List.nil_subset _)
    · exact (value.code_is env).statement
        (List.subset_cons_of_subset _ (List.subset_append_right _ _))
  | «if» condition body =>
    simp only [Statement.code, ofStatements_append]
    refine ⟨⟨⟨?_, instructions_branch env _ ifs⟩, ?_⟩, ?_⟩
    · exact (condition.code_is env).statement (List.subset_append_left _ _)
    · exact (statementCode_is env (ifs + 1) whiles body).mono (List.subset_append_right _ _)
    · simp only [ofStatements_cons, ofStatements_nil, and_true]
      exact .label ifs (by simp [labelsNumbered])
  | ifElse condition body otherwise =>
    simp only [Statement.code, ofStatements_append]
    refine ⟨⟨⟨⟨⟨?_, instructions_branch env _ ifs⟩, ?_⟩, ?_⟩, ?_⟩, ?_⟩
    · exact (condition.code_is env).statement (List.subset_append_left _ _)
    · exact (statementCode_is env (ifs + 1) whiles body).mono
        (List.subset_append_of_subset_right _ (List.subset_append_left _ _))
    · simp only [ofStatements_cons, ofStatements_nil, and_true]
      exact ⟨.goto ifs (by simp [labelsNumbered]),
        .label ifs (by simp [labelsNumbered])⟩
    · exact (statementCode_is env _ _ otherwise).mono
        (List.subset_append_of_subset_right _ (List.subset_append_right _ _))
    · simp only [ofStatements_cons, ofStatements_nil, and_true]
      exact .label ifs (by simp [labelsNumbered])
  | «while» condition body =>
    simp only [Statement.code, ofStatements_append, ofStatements_cons,
      ofStatements_nil, and_true]
    refine ⟨⟨⟨⟨?_, ?_⟩, .expression (.operate .not), ?_⟩, ?_⟩, ?_, ?_⟩
    · exact .label whiles (by simp [labelsNumbered])
    · exact (condition.code_is env).statement (List.subset_append_left _ _)
    · exact .ifGoto whiles (by simp [labelsNumbered])
    · exact (statementCode_is env ifs (whiles + 1) body).mono (List.subset_append_right _ _)
    · exact .goto whiles (by simp [labelsNumbered])
    · exact .label whiles (by simp [labelsNumbered])
  | «do» callee arguments =>
    simp only [Statement.code, ofStatements_append, ofStatements_cons,
      ofStatements_nil, and_true]
    refine ⟨(env.code_call (List.mem_cons_self ..) ?_).statement (List.Subset.refl _), .keep⟩
    exact (argumentCode_is env arguments).mono (List.subset_cons_self _ _)
  | «return» value =>
    cases value with
    | none =>
      simp only [Statement.code, ofStatements_cons, ofStatements_nil, and_true]
      exact ⟨.expression .zero, .return⟩
    | some value =>
      simp only [Statement.code, ofStatements_append, ofStatements_cons,
        ofStatements_nil, and_true]
      exact ⟨(value.code_is env).statement (List.Subset.refl _), .return⟩

theorem statementCode_is (env : Environment) (ifs whiles : Nat) (body : List Statement) :
    OfStatements env (statementUses body) (statementCode env ifs whiles body) := by
  cases body with
  | nil => exact ofStatements_nil
  | cons first rest =>
    rw [statementCode, ofStatements_append]
    constructor
    · exact (first.code_is env ifs whiles).mono (List.subset_append_left _ _)
    · exact (statementCode_is env _ _ rest).mono (List.subset_append_right _ _)

end

end JackVm

import JackVm.Proofs.Machine.CallSites
import JackVm.Proofs.Translation.Code

/-!
# The balance of translated code

Every expression of a tree is an operand, and every statement leaves the stack empty if it finds
it so. The calls that a tree makes are listed in the order of the code, each with the code of what
it is given.
-/

namespace JackVm

theorem Environment.computes_load {env : Environment} {name : String}
    (declared : (env.find? name).isSome) : Computes (env.load name) [] := by
  obtain ⟨v, found⟩ := Option.isSome_iff_exists.mp declared
  rw [load_of_find? found]
  exact .push _ _

/-! ## The calls of a tree -/

/-- The operators that the machine has no instruction for are calls. -/
def BinaryOperator.calls (left right : List Instruction) (op : BinaryOperator) : List CallSite :=
  match op with
  | .multiply => [⟨"Math.multiply", [left, right]⟩]
  | .divide => [⟨"Math.divide", [left, right]⟩]
  | _ => []

/-- The calls that append characters to the string that some code makes. -/
def characterCalls (made : List Instruction) : List Char → List CallSite
  | [] => []
  | c :: rest =>
    ⟨"String.appendChar", [made, [.push .constant c.toNat]]⟩ ::
      characterCalls (made ++ characterCode c) rest

def newString (length : Nat) : List Instruction :=
  [.push .constant length, .call "String.new" 1]

def stringCalls (content : String) : List CallSite :=
  ⟨"String.new", [[.push .constant content.length]]⟩ ::
    characterCalls (newString content.length) content.toList

/-- The code of what a call is given, its object included. -/
def Environment.operands (env : Environment) (callee : Callee) (arguments : List Expression) :
    List (List Instruction) :=
  (env.receiver callee).map (fun i => [i]) ++ arguments.map (Expression.code env)

mutual

def Expression.calls (env : Environment) : Expression → List CallSite
  | .mk first rest => first.calls env ++ operationCalls env (first.code env) rest

/-- The calls of operations on a left operand. -/
def operationCalls (env : Environment) (left : List Instruction) :
    List (BinaryOperator × Term) → List CallSite
  | [] => []
  | (op, operand) :: rest =>
    operand.calls env ++ op.calls left (operand.code env) ++
      operationCalls env (left ++ operand.code env ++ [op.instruction]) rest

def Term.calls (env : Environment) : Term → List CallSite
  | .integer _ | .constant _ | .variable _ => []
  | .string content => stringCalls content
  | .element _ index => index.calls env
  | .call callee arguments =>
    argumentCalls env arguments ++ [⟨env.target callee, env.operands callee arguments⟩]
  | .group inner => inner.calls env
  | .unary _ operand => operand.calls env

def argumentCalls (env : Environment) : List Expression → List CallSite
  | [] => []
  | e :: rest => e.calls env ++ argumentCalls env rest

end

mutual

def Statement.calls (env : Environment) : Statement → List CallSite
  | .let _ value => value.calls env
  | .letElement _ index value => index.calls env ++ value.calls env
  | .if condition body => condition.calls env ++ statementCalls env body
  | .ifElse condition body otherwise =>
    condition.calls env ++ statementCalls env body ++ statementCalls env otherwise
  | .while condition body => condition.calls env ++ statementCalls env body
  | .do callee arguments =>
    argumentCalls env arguments ++ [⟨env.target callee, env.operands callee arguments⟩]
  | .return none => []
  | .return (some value) => value.calls env

def statementCalls (env : Environment) : List Statement → List CallSite
  | [] => []
  | first :: rest => first.calls env ++ statementCalls env rest

end

/-- A constructor calls for the memory of its object. -/
def SubroutineForm.calls (fields : Nat) : SubroutineForm → List CallSite
  | .constructor => [⟨"Memory.alloc", [[.push .constant fields]]⟩]
  | .method | .function => []

def SubroutineDec.calls (d : SubroutineDec) (c : ClassDec) : List CallSite :=
  d.form.calls c.fieldCount ++ statementCalls (d.environment c) d.body

/-! ## Expressions are operands -/

theorem BinaryOperator.computes {a b : List Instruction} {s t : List CallSite}
    (ha : Computes a s) (hb : Computes b t) (op : BinaryOperator) :
    Computes (a ++ b ++ [op.instruction]) (s ++ t ++ op.calls a b) := by
  have called (target : String) :
      Computes (a ++ b ++ [.call target 2]) (s ++ t ++ [⟨target, [a, b]⟩]) := by
    have call := Computes.call (.cons ha (.cons hb .nil)) target
    rwa [List.flatten_cons, List.flatten_singleton, List.append_nil] at call
  cases op with
  | multiply => exact called "Math.multiply"
  | divide => exact called "Math.divide"
  | add | subtract | and | or | less | greater | equal =>
    simp only [calls, List.append_nil]
    exact ha.binary hb _ rfl

theorem computes_characters {made : List Instruction} {s : List CallSite} (content : List Char)
    (h : Computes made s) :
    Computes (made ++ content.flatMap characterCode) (s ++ characterCalls made content) := by
  induction content generalizing made s with
  | nil => simpa [characterCalls] using h
  | cons c content ih =>
    have call := Computes.call (.cons h (.cons (.push .constant c.toNat) .nil))
      "String.appendChar"
    rw [List.flatten_cons, List.flatten_singleton, List.append_assoc, List.append_nil,
      List.append_nil] at call
    have rest := ih call
    rw [List.append_assoc, List.append_assoc, List.append_assoc] at rest
    exact rest

theorem computes_string (content : String) :
    Computes (stringCode content) (stringCalls content) := by
  have empty := Computes.call (.cons (.push .constant content.length) .nil) "String.new"
  exact computes_characters content.toList empty

theorem Constant.computes (k : Constant) : Computes k.code [] := by
  cases k with
  | true => exact (Computes.push .constant 0).unary .not rfl
  | false | null => exact .push .constant 0
  | this => exact .push .pointer 0

namespace Environment

variable (env : Environment) (callee : Callee)

theorem length_receiver : (env.receiver callee).length = env.receivers callee := by
  cases callee with
  | own name => rfl
  | qualified qualifier name =>
    rw [receiver, receivers, load]
    cases env.find? qualifier <;> rfl

theorem operands_receiver : Operands ((env.receiver callee).map fun i => [i]) [] := by
  cases callee with
  | own name => exact .cons (.push .pointer 0) .nil
  | qualified qualifier name =>
    rw [receiver, load]
    cases env.find? qualifier with
    | none => exact .nil
    | some v => exact .cons (.push _ _) .nil

theorem computes_call {arguments : List Expression} {s : List CallSite}
    (h : Operands (arguments.map (Expression.code env)) s) :
    Computes (env.callCode callee arguments.length (arguments.map (Expression.code env)).flatten)
      (s ++ [⟨env.target callee, env.operands callee arguments⟩]) := by
  have call := Computes.call ((env.operands_receiver callee).append h) (env.target callee)
  have object : ((env.receiver callee).map fun i => [i]).flatten = env.receiver callee := by
    rw [← List.flatMap_def, List.flatMap_singleton']
  rw [List.flatten_append, object, List.length_append, List.length_map, List.length_map,
    env.length_receiver, Nat.add_comm] at call
  exact call

end Environment

theorem argumentCode_eq_flatten (env : Environment) (arguments : List Expression) :
    argumentCode env arguments = (arguments.map (Expression.code env)).flatten := by
  induction arguments with
  | nil => rfl
  | cons e arguments ih => rw [argumentCode, ih, List.map_cons, List.flatten_cons]

mutual

theorem Expression.computes {env : Environment} (e : Expression)
    (permitted : ∀ u ∈ e.uses, u.Permitted env) : Computes (e.code env) (e.calls env) := by
  cases e with
  | mk first rest =>
    rw [Expression.uses, List.forall_mem_append] at permitted
    exact computes_operations rest (first.computes permitted.1) permitted.2

theorem computes_operations {env : Environment} (rest : List (BinaryOperator × Term))
    {left : List Instruction} {s : List CallSite} (h : Computes left s)
    (permitted : ∀ u ∈ operationUses rest, u.Permitted env) :
    Computes (left ++ operationCode env rest) (s ++ operationCalls env left rest) := by
  cases rest with
  | nil => simpa [operationCode, operationCalls] using h
  | cons first rest =>
    obtain ⟨op, operand⟩ := first
    rw [operationUses, List.forall_mem_append] at permitted
    have applied := op.computes h (operand.computes permitted.1)
    have all := computes_operations rest applied permitted.2
    rw [operationCode, operationCalls]
    simpa only [List.append_assoc] using all

theorem Term.computes {env : Environment} (t : Term)
    (permitted : ∀ u ∈ t.uses, u.Permitted env) : Computes (t.code env) (t.calls env) := by
  cases t with
  | integer digits => exact .push _ _
  | string content => exact computes_string content
  | constant k => exact k.computes
  | «variable» name =>
    rw [Term.uses, List.forall_mem_singleton] at permitted
    exact Environment.computes_load permitted
  | element name index =>
    rw [Term.uses, List.forall_mem_cons] at permitted
    have address := (index.computes permitted.2).binary
      (Environment.computes_load permitted.1) .add rfl
    have read := address.exchange .pointer .that 1 0
    rwa [List.append_assoc, List.append_nil] at read
  | call callee arguments =>
    rw [Term.uses, List.forall_mem_cons] at permitted
    rw [Term.code, argumentCode_eq_flatten]
    exact env.computes_call callee (operands_arguments arguments permitted.2)
  | group inner => exact inner.computes permitted
  | unary op operand =>
    have computes := operand.computes permitted
    cases op with
    | negate => exact computes.unary .neg rfl
    | complement => exact computes.unary .not rfl

theorem operands_arguments {env : Environment} (arguments : List Expression)
    (permitted : ∀ u ∈ argumentUses arguments, u.Permitted env) :
    Operands (arguments.map (Expression.code env)) (argumentCalls env arguments) := by
  cases arguments with
  | nil => exact .nil
  | cons e rest =>
    rw [argumentUses, List.forall_mem_append] at permitted
    exact .cons (e.computes permitted.1) (operands_arguments rest permitted.2)

end

/-! ## Statements leave nothing -/

/-- Code that leaves a number of values on an empty stack, with the calls in it. -/
structure Leaves (n : Nat) (code : List Instruction) (sites : List CallSite) : Prop where
  depth : checkedDepth 0 code = some n
  calls : Calls code sites

namespace Leaves

variable {n m : Nat} {a b : List Instruction} {s t : List CallSite}

theorem nil : Leaves 0 [] [] := ⟨rfl, .nil⟩

theorem mark (name : String) : Leaves 0 [.label name] [] := ⟨rfl, .of_all rfl⟩

theorem operand (ha : Leaves n a s) (hb : Computes b t) : Leaves (n + 1) (a ++ b) (s ++ t) where
  depth := by rw [checkedDepth_append, ha.depth, Option.bind_some, hb.single.depth]
  calls := ha.calls.append hb.calls

theorem plain (ha : Leaves n a s) (after : checkedDepth n b = some m)
    (inside : b.all Instruction.staysInside) : Leaves m (a ++ b) s where
  depth := by rw [checkedDepth_append, ha.depth, Option.bind_some, after]
  calls := by
    have calls := ha.calls.append (.of_all inside)
    rwa [List.append_nil] at calls

theorem append (ha : Leaves 0 a s) (hb : Leaves n b t) : Leaves n (a ++ b) (s ++ t) where
  depth := by rw [checkedDepth_append, ha.depth, Option.bind_some, hb.depth]
  calls := ha.calls.append hb.calls

end Leaves

theorem Computes.leaves {code : List Instruction} {sites : List CallSite}
    (h : Computes code sites) : Leaves 1 code sites := Leaves.nil.operand h

theorem Computes.branch {a b : List Instruction} {s t : List CallSite} (condition : Computes a s)
    (number : Nat) (body : Leaves 0 b t) :
    Leaves 0 (a ++ [.ifGoto (Compilation.ifTrueLabel number),
      .goto (Compilation.ifFalseLabel number), .label (Compilation.ifTrueLabel number)] ++ b)
      (s ++ t) := by
  apply Leaves.append
  · exact condition.leaves.plain rfl rfl
  · exact body

mutual

theorem Statement.leaves {env : Environment} (s : Statement) (ifs whiles : Nat)
    (permitted : ∀ u ∈ s.uses, u.Permitted env) :
    Leaves 0 (s.code env ifs whiles) (s.calls env) := by
  cases s with
  | «let» name value =>
    rw [Statement.uses, List.forall_mem_cons] at permitted
    obtain ⟨v, found⟩ := Option.isSome_iff_exists.mp permitted.1
    rw [Statement.code, Environment.store_of_find? found]
    exact (value.computes permitted.2).leaves.plain rfl rfl
  | letElement name index value =>
    rw [Statement.uses, List.forall_mem_cons, List.forall_mem_append] at permitted
    have address := (index.computes permitted.2.1).binary
      (Environment.computes_load permitted.1) .add rfl
    have both := address.leaves.operand (value.computes permitted.2.2)
    rw [List.append_nil] at both
    exact both.plain rfl rfl
  | «if» condition body =>
    rw [Statement.uses, List.forall_mem_append] at permitted
    have done := (condition.computes permitted.1).branch ifs
      (statements_leave body (ifs + 1) whiles permitted.2)
    exact done.plain rfl rfl
  | ifElse condition body otherwise =>
    rw [Statement.uses, List.forall_mem_append, List.forall_mem_append] at permitted
    have first := (condition.computes permitted.1).branch ifs
      (statements_leave body (ifs + 1) whiles permitted.2.1)
    have between := first.plain (b := [.goto (Compilation.ifEndLabel ifs),
      .label (Compilation.ifFalseLabel ifs)]) rfl rfl
    have second := between.append (statements_leave otherwise (ifs + 1 + ifCount body)
      (whiles + whileCount body) permitted.2.2)
    exact second.plain rfl rfl
  | «while» condition body =>
    rw [Statement.uses, List.forall_mem_append] at permitted
    have tested := (Leaves.mark (Compilation.whileStartLabel whiles)).operand
      (condition.computes permitted.1)
    have entered := tested.plain (b := [.arithmetic .not,
      .ifGoto (Compilation.whileEndLabel whiles)]) rfl rfl
    have done := entered.append (statements_leave body ifs (whiles + 1) permitted.2)
    exact done.plain rfl rfl
  | «do» callee arguments =>
    rw [Statement.uses, List.forall_mem_cons] at permitted
    rw [Statement.code, argumentCode_eq_flatten]
    have call := env.computes_call callee (operands_arguments arguments permitted.2)
    exact call.leaves.plain rfl rfl
  | «return» value =>
    cases value with
    | none => exact (Computes.push .constant 0).leaves.plain (b := [.return]) rfl rfl
    | some value => exact (value.computes permitted).leaves.plain rfl rfl

theorem statements_leave {env : Environment} (body : List Statement) (ifs whiles : Nat)
    (permitted : ∀ u ∈ statementUses body, u.Permitted env) :
    Leaves 0 (statementCode env ifs whiles body) (statementCalls env body) := by
  cases body with
  | nil => exact .nil
  | cons first rest =>
    rw [statementUses, List.forall_mem_append] at permitted
    exact (first.leaves ifs whiles permitted.1).append
      (statements_leave rest (ifs + first.ifCount) (whiles + first.whileCount) permitted.2)

end

theorem SubroutineForm.leaves (form : SubroutineForm) (fields : Nat) :
    Leaves 0 (Compilation.SubroutineForm.prologue fields form) (form.calls fields) := by
  cases form with
  | constructor =>
    have call := Computes.call (.cons (.push .constant fields) .nil) "Memory.alloc"
    exact call.leaves.plain rfl rfl
  | function => exact .nil
  | method =>
    exact (Computes.push .argument 0).leaves.plain (b := [.pop .pointer 0]) rfl rfl

/-- The code of a subroutine behind the instruction that begins its function. -/
def SubroutineDec.bodyCode (d : SubroutineDec) (c : ClassDec) : List Instruction :=
  Compilation.SubroutineForm.prologue c.fieldCount d.form ++
    statementCode (d.environment c) 0 0 d.body

theorem SubroutineDec.code_eq_cons (d : SubroutineDec) (c : ClassDec) :
    d.code c = .function (c.name ++ "." ++ d.name) d.localCount :: d.bodyCode c := by
  rw [code, List.append_assoc]
  rfl

theorem SubroutineDec.leaves {d : SubroutineDec} {c : ClassDec} (h : d.Valid c) :
    Leaves 0 (d.bodyCode c) (d.calls c) :=
  (d.form.leaves c.fieldCount).append (statements_leave d.body 0 0 h.permitted)

end JackVm

import JackVm.Proofs.Compilation.Translation

/-!
# The constants of compiled code

A number that a source writes out may be no more than the largest integer constant. The other
constants are the length of a string, the code of a character and the number of fields of an object.
They are held to sixteen bits where they arise, so code has a constant above the largest integer
exactly if one of these is.
-/

namespace JackVm

/-- The number that an instruction pushes as a constant. -/
def Instruction.constant? : Instruction → Option Nat
  | .push .constant n => some n
  | _ => none

def constantsOf (code : List Instruction) : List Nat :=
  code.filterMap Instruction.constant?

def Use.constants : Use → List Nat
  | .integer digits => [numeralValue digits]
  | .string content => content.length :: content.toList.map Char.toNat
  | .variable _ | .call _ _ => []

/-- Whether no number of a list is above a limit. -/
def Within (limit : Nat) (ns : List Nat) : Prop :=
  ∀ n ∈ ns, n ≤ limit

section
variable {limit n : Nat} {ns ms : List Nat} {i : Instruction} {a b : List Instruction}

@[simp] theorem constantsOf_nil : constantsOf [] = [] := rfl

@[simp] theorem constantsOf_cons : constantsOf (i :: a) = i.constant?.toList ++ constantsOf a := by
  rw [constantsOf, List.filterMap_cons]
  cases i.constant? <;> rfl

@[simp] theorem constantsOf_append : constantsOf (a ++ b) = constantsOf a ++ constantsOf b :=
  List.filterMap_append

theorem mem_constantsOf : n ∈ constantsOf a ↔ .push .constant n ∈ a := by
  rw [constantsOf, List.mem_filterMap]
  constructor
  · rintro ⟨i, mem, pushed⟩
    unfold Instruction.constant? at pushed
    split at pushed
    · cases pushed
      exact mem
    · cases pushed
  · exact fun mem => ⟨_, mem, rfl⟩

@[simp] theorem within_nil : Within limit [] := by simp [Within]

@[simp] theorem within_cons : Within limit (n :: ns) ↔ n ≤ limit ∧ Within limit ns :=
  List.forall_mem_cons

@[simp] theorem within_append : Within limit (ns ++ ms) ↔ Within limit ns ∧ Within limit ms :=
  List.forall_mem_append

theorem within_flatMap {α : Type} {xs : List α} {f : α → List Nat} :
    Within limit (xs.flatMap f) ↔ ∀ x ∈ xs, Within limit (f x) :=
  List.forall_mem_flatMap

end

/-! ## The constants of a tree -/

@[simp] theorem Variable.constant?_push (v : Variable) : v.push.constant? = none := by
  unfold push
  cases v.kind <;> rfl

@[simp] theorem Variable.constant?_pop (v : Variable) : v.pop.constant? = none := rfl

@[simp] theorem Environment.constants_load (env : Environment) (name : String) :
    constantsOf (env.load name) = [] := by
  rw [load]
  cases env.find? name <;> simp

@[simp] theorem Environment.constants_store (env : Environment) (name : String) :
    constantsOf (env.store name) = [] := by
  rw [store]
  cases env.find? name <;> simp

@[simp] theorem Environment.constants_receiver (env : Environment) (callee : Callee) :
    constantsOf (env.receiver callee) = [] := by
  cases callee with
  | own => rfl
  | qualified qualifier => exact env.constants_load qualifier

@[simp] theorem BinaryOperator.constant?_instruction (op : BinaryOperator) :
    op.instruction.constant? = none := by
  cases op <;> rfl

@[simp] theorem UnaryOperator.constant?_instruction (op : UnaryOperator) :
    op.instruction.constant? = none := by
  cases op <;> rfl

@[simp] theorem constantsOf_stringCode (content : String) :
    constantsOf (stringCode content) = (Use.string content).constants := by
  have characters (cs : List Char) :
      constantsOf (cs.flatMap characterCode) = cs.map Char.toNat := by
    induction cs with
    | nil => rfl
    | cons c cs ih => simp [characterCode, Instruction.constant?, ih]
  simp [stringCode, characters, Instruction.constant?, Use.constants]

theorem Constant.code_within (k : Constant) (limit : Nat) : Within limit (constantsOf k.code) := by
  cases k <;> simp [code, Instruction.constant?]

mutual

theorem Expression.constants_within (env : Environment) (limit : Nat) :
    (e : Expression) → (Within limit (constantsOf (e.code env)) ↔
      Within limit (e.uses.flatMap Use.constants))
  | .mk first rest => by
    simp [Expression.code, Expression.uses, first.constants_within env limit,
      operation_constants_within env limit rest]

theorem operation_constants_within (env : Environment) (limit : Nat) :
    (rest : List (BinaryOperator × Term)) → (Within limit (constantsOf (operationCode env rest)) ↔
      Within limit ((operationUses rest).flatMap Use.constants))
  | [] => Iff.rfl
  | (op, operand) :: rest => by
    simp [operationCode, operationUses, operand.constants_within env limit,
      operation_constants_within env limit rest]

theorem Term.constants_within (env : Environment) (limit : Nat) :
    (t : Term) → (Within limit (constantsOf (t.code env)) ↔
      Within limit (t.uses.flatMap Use.constants))
  | .integer digits => by simp [Term.code, Term.uses, Use.constants, Instruction.constant?]
  | .string content => by simp [Term.code, Term.uses]
  | .constant k => by simp [Term.code, Term.uses, k.code_within limit]
  | .variable name => by simp [Term.code, Term.uses, Use.constants]
  | .element name index => by
    simp [Term.code, Term.uses, Use.constants, Instruction.constant?,
      index.constants_within env limit]
  | .call callee arguments => by
    simp [Term.code, Term.uses, Use.constants, Environment.callCode, Instruction.constant?,
      argument_constants_within env limit arguments]
  | .group inner => inner.constants_within env limit
  | .unary op operand => by
    simp [Term.code, Term.uses, operand.constants_within env limit]

theorem argument_constants_within (env : Environment) (limit : Nat) :
    (arguments : List Expression) → (Within limit (constantsOf (argumentCode env arguments)) ↔
      Within limit ((argumentUses arguments).flatMap Use.constants))
  | [] => Iff.rfl
  | e :: rest => by
    simp [argumentCode, argumentUses, e.constants_within env limit,
      argument_constants_within env limit rest]

end

mutual

theorem Statement.constants_within (env : Environment) (limit : Nat) (ifs whiles : Nat) :
    (st : Statement) → (Within limit (constantsOf (st.code env ifs whiles)) ↔
      Within limit (st.uses.flatMap Use.constants))
  | .let name value => by
    simp [Statement.code, Statement.uses, Use.constants, value.constants_within env limit]
  | .letElement name index value => by
    simp [Statement.code, Statement.uses, Use.constants, Instruction.constant?,
      index.constants_within env limit, value.constants_within env limit]
  | .if condition body => by
    simp [Statement.code, Statement.uses, Instruction.constant?,
      condition.constants_within env limit, statement_constants_within env limit _ _ body]
  | .ifElse condition body otherwise => by
    simp [Statement.code, Statement.uses, Instruction.constant?,
      condition.constants_within env limit, statement_constants_within env limit _ _ body,
      statement_constants_within env limit _ _ otherwise]
  | .while condition body => by
    simp [Statement.code, Statement.uses, Instruction.constant?,
      condition.constants_within env limit, statement_constants_within env limit _ _ body]
  | .do callee arguments => by
    simp [Statement.code, Statement.uses, Use.constants, Environment.callCode,
      Instruction.constant?, argument_constants_within env limit arguments]
  | .return none => by simp [Statement.code, Statement.uses, Instruction.constant?]
  | .return (some value) => by
    simp [Statement.code, Statement.uses, Instruction.constant?, value.constants_within env limit]

theorem statement_constants_within (env : Environment) (limit : Nat) (ifs whiles : Nat) :
    (body : List Statement) → (Within limit (constantsOf (statementCode env ifs whiles body)) ↔
      Within limit ((statementUses body).flatMap Use.constants))
  | [] => Iff.rfl
  | first :: rest => by
    simp [statementCode, statementUses, first.constants_within env limit _ _,
      statement_constants_within env limit _ _ rest]

end

/-! ## Compiled code -/

/-- The constants that a subroutine pushes: a constructor's number of fields, and what its
statements use. -/
def SubroutineDec.constants (d : SubroutineDec) (c : ClassDec) : List Nat :=
  (if d.form = .constructor then [c.fieldCount] else []) ++
    (statementUses d.body).flatMap Use.constants

theorem SubroutineDec.constants_within (d : SubroutineDec) (c : ClassDec) (limit : Nat) :
    Within limit (constantsOf (d.code c)) ↔ Within limit (d.constants c) := by
  rw [code, constants, constantsOf_append, constantsOf_append, within_append, within_append,
    within_append, statement_constants_within]
  refine and_congr_left' ?_
  cases form : d.form <;>
    simp [Compilation.SubroutineForm.prologue, Instruction.constant?]

theorem ClassDec.constants_within (c : ClassDec) (limit : Nat) :
    Within limit (constantsOf c.code) ↔ ∀ d ∈ c.subroutines, Within limit (d.constants c) := by
  have parts : constantsOf c.code = c.subroutines.flatMap fun d => constantsOf (d.code c) :=
    List.filterMap_flatMap
  rw [parts, within_flatMap]
  exact forall₂_congr fun d _ => d.constants_within c limit

/-- Whether the length and the characters of a string are no larger than integers may be. -/
def ModestString (content : String) : Prop :=
  content.length ≤ maxInteger ∧ ∀ char ∈ content.toList, char.toNat ≤ maxInteger

/-- Whether the strings of a class are modest, and its objects if it makes any. -/
structure ClassDec.Modest (c : ClassDec) : Prop where
  strings : ∀ d ∈ c.subroutines, ∀ content, .string content ∈ statementUses d.body →
    ModestString content
  objects : ∀ d ∈ c.subroutines, d.form = .constructor → c.fieldCount ≤ maxInteger

theorem Use.within_of_permitted {env : Environment} {u : Use} (h : u.Permitted env) :
    Within 65535 u.constants := by
  cases u with
  | integer digits =>
    have small : numeralValue digits ≤ 32767 := h
    simp only [constants, within_cons, within_nil, and_true]
    omega
  | string content =>
    rw [constants, within_cons]
    exact ⟨h.1, List.forall_mem_map.mpr h.2⟩
  | «variable» | call => exact within_nil

/-- Of what is permitted, only a string may have constants above the largest integer. -/
theorem Use.within_maxInteger_iff {env : Environment} {u : Use} (h : u.Permitted env) :
    Within maxInteger u.constants ↔ ∀ content, u = .string content →
      ModestString content := by
  cases u with
  | integer digits =>
    have small : numeralValue digits ≤ maxInteger := h
    simp [constants, small]
  | string content =>
    rw [constants, within_cons, Within, List.forall_mem_map]
    simp [ModestString]
  | «variable» | call => simp [constants]

theorem SubroutineDec.within_of_valid {d : SubroutineDec} {c : ClassDec} (valid : c.Valid)
    (hd : d ∈ c.subroutines) : Within 65535 (d.constants c) := by
  have fields : c.fieldCount ≤ 65535 := c.countP_declarations ▸ valid.admissible.count_le .field
  rw [constants, within_append]
  constructor
  · split <;> simp [fields]
  · rw [within_flatMap]
    exact fun u hu => Use.within_of_permitted ((valid.subroutines d hd).permitted u hu)

theorem SubroutineDec.within_maxInteger_iff {d : SubroutineDec} {c : ClassDec} (valid : d.Valid c) :
    Within maxInteger (d.constants c) ↔
      (d.form = .constructor → c.fieldCount ≤ maxInteger) ∧
        ∀ content, .string content ∈ statementUses d.body → ModestString content := by
  rw [constants, within_append, within_flatMap]
  refine and_congr ?_ ?_
  · split <;> simp [*]
  · constructor
    · intro h content mem
      exact (Use.within_maxInteger_iff (valid.permitted _ mem)).mp (h _ mem) content rfl
    · intro h u hu
      refine (Use.within_maxInteger_iff (valid.permitted u hu)).mpr ?_
      rintro content rfl
      exact h content hu

theorem ClassDec.within_maxInteger_iff {c : ClassDec} (valid : c.Valid) :
    Within maxInteger (constantsOf c.code) ↔ c.Modest := by
  rw [c.constants_within]
  have each (d : SubroutineDec) (hd : d ∈ c.subroutines) :=
    SubroutineDec.within_maxInteger_iff (valid.subroutines d hd)
  constructor
  · intro h
    exact ⟨fun d hd => ((each d hd).mp (h d hd)).2, fun d hd => ((each d hd).mp (h d hd)).1⟩
  · rintro ⟨strings, objects⟩ d hd
    exact (each d hd).mpr ⟨objects d hd, strings d hd⟩

/-- All constants of compiled code have sixteen bits. They are no larger than the largest integer
constant exactly if the class is modest, since nothing holds strings, characters and objects to
it. -/
theorem compile_constants_fit (source : ByteArray) (code : Code) (h : compile source = .ok code) :
    ∃ (text : String) (c : ClassDec), String.fromUTF8? source = some text ∧
      c.lexemes = sourceLexemes text ∧
      (∀ n, .push .constant n ∈ code.instructions → n ≤ 65535) ∧
      ((∀ n, .push .constant n ∈ code.instructions → n ≤ maxInteger) ↔ c.Modest) := by
  obtain ⟨text, c, decoded, derives, valid, instructions⟩ := compile_yields h
  have pushed (limit : Nat) : (∀ n, .push .constant n ∈ code.instructions → n ≤ limit) ↔
      Within limit (constantsOf c.code) := by
    rw [instructions]
    exact forall_congr' fun n => imp_congr_left mem_constantsOf.symm
  refine ⟨text, c, decoded, derives, ?_, ?_⟩
  · rw [pushed, c.constants_within]
    exact fun d hd => SubroutineDec.within_of_valid valid hd
  · rw [pushed, ClassDec.within_maxInteger_iff valid]

theorem compile_constants_fit_object :
    ∃ source code, compile source = .ok code ∧
      code.instructions = [.function "P.new" 0, .push .constant 2, .call "Memory.alloc" 1,
        .pop .pointer 0, .push .constant 1, .call "String.new" 1, .push .constant 32767,
        .call "String.appendChar" 2, .pop .this 1, .push .pointer 0, .return] ∧
      ∃ (text : String) (c : ClassDec), String.fromUTF8? source = some text ∧
        c.lexemes = sourceLexemes text ∧
        (∀ n, .push .constant n ∈ code.instructions → n ≤ 65535) ∧
        ((∀ n, .push .constant n ∈ code.instructions → n ≤ maxInteger) ↔ c.Modest) := by
  have run : compile "class P \x7b field int x, y;
      constructor P new() \x7b let y = \"\u7fff\"; return this; \x7d \x7d".toUTF8 =
      .ok (.ofRows [⟨.function "P.new" 0, 2⟩, ⟨.push .constant 2, 2⟩, ⟨.call "Memory.alloc" 1, 2⟩,
        ⟨.pop .pointer 0, 2⟩, ⟨.push .constant 1, 2⟩, ⟨.call "String.new" 1, 2⟩,
        ⟨.push .constant 32767, 2⟩, ⟨.call "String.appendChar" 2, 2⟩, ⟨.pop .this 1, 2⟩,
        ⟨.push .pointer 0, 2⟩, ⟨.return, 2⟩]) := by
    rw [compile_ofList]
    decide +kernel
  exact ⟨_, _, run, rfl, compile_constants_fit _ _ run⟩

/-- A character is pushed as a constant that an integer may not be. -/
theorem compile_pushes_large_character :
    ∃ source code, compile source = .ok code ∧
      .push .constant 32768 ∈ code.instructions ∧ ¬ 32768 ≤ maxInteger := by
  have run : compile "class A \x7b function void f() \x7b
      do B.g(\"\u8000\"); return; \x7d \x7d".toUTF8 =
      .ok (.ofRows [⟨.function "A.f" 0, 1⟩, ⟨.push .constant 1, 2⟩, ⟨.call "String.new" 1, 2⟩,
        ⟨.push .constant 32768, 2⟩, ⟨.call "String.appendChar" 2, 2⟩, ⟨.call "B.g" 1, 2⟩,
        ⟨.pop .temp 0, 2⟩, ⟨.push .constant 0, 2⟩, ⟨.return, 2⟩]) := by
    rw [compile_ofList]
    decide +kernel
  refine ⟨_, _, run, ?_, by decide⟩
  decide

end JackVm

import JackVm.Proofs.Compilation.Translation
import JackVm.Proofs.Machine.Evaluation
import JackVm.Proofs.Translation.Occurrence

/-!
# Compiled expressions push their values

Running the code of an expression straight through is evaluating it. Nothing is left behind but the
value, what calls have done to the world, and the address of the last element in pointer 1.
-/

namespace JackVm

/-- What a computation may answer. -/
def Evaluation.Yields {W α : Type} (x : Evaluation W α) (a : α) : Prop :=
  ∃ world world', x world = some (a, world')

/-- Whether code does what a computation does, given what is on top of the stack in front of it
and what is there behind it. -/
def Machine.Runs {W α : Type} [DecidableEq W] (m : Machine W) (frame : Frame W) (before : List W)
    (code : List Instruction) (x : Evaluation W α) (after : α → List W) : Prop :=
  ∀ stack element world, ∃ a world' element', x world = some (a, world') ∧
    m.exec code ⟨frame, before ++ stack, element, world⟩ =
      some ⟨frame, after a ++ stack, element', world'⟩

theorem Evaluation.Yields.bind {W α β : Type} {x : Evaluation W α} {f : α → Evaluation W β}
    {b : β} (h : Evaluation.Yields (x >>= f) b) : ∃ a, x.Yields a ∧ (f a).Yields b := by
  obtain ⟨world, world₂, evaluates⟩ := h
  have parts : (x world).bind (fun p => f p.1 p.2) = some (b, world₂) := evaluates
  obtain ⟨⟨a, world₁⟩, first, second⟩ := Option.bind_eq_some_iff.mp parts
  exact ⟨a, ⟨world, world₁, first⟩, ⟨world₁, world₂, second⟩⟩

namespace Machine.Runs

variable {W α β : Type} [DecidableEq W] {m : Machine W} {frame : Frame W} {before : List W}
  {a b : List Instruction} {x : Evaluation W α}

theorem bind {f : α → Evaluation W β} {between : α → List W} {after : β → List W}
    (ha : m.Runs frame before a x between)
    (hb : ∀ v, x.Yields v → m.Runs frame (between v) b (f v) after) :
    m.Runs frame before (a ++ b) (x >>= f) after := by
  intro stack element world
  obtain ⟨v, world₁, element₁, first, ran⟩ := ha stack element world
  obtain ⟨w, world₂, element₂, second, done⟩ := hb v ⟨world, world₁, first⟩ stack element₁ world₁
  refine ⟨w, world₂, element₂, ?_, ?_⟩
  · calc (x >>= f) world = (x world).bind fun p => f p.1 p.2 := rfl
      _ = some (w, world₂) := by rw [first, Option.bind_some, second]
  · rw [exec_append, ran, Option.bind_some, done]

theorem under {after : α → List W} (h : m.Runs frame before a x after) (deeper : List W) :
    m.Runs frame (before ++ deeper) a x fun v => after v ++ deeper := by
  intro stack element world
  simp only [List.append_assoc]
  exact h (deeper ++ stack) element world

theorem pure (v : α) (after : α → List W) : m.Runs frame (after v) [] (Pure.pure v) after := by
  intro stack element world
  exact ⟨v, world, element, rfl, rfl⟩

theorem value {i : Instruction} {v : W}
    (h : ∀ stack element world, m.step ⟨frame, before ++ stack, element, world⟩ i =
      some ⟨frame, v :: stack, element, world⟩) :
    m.Runs frame before [i] (Pure.pure v) fun w => [w] := by
  intro stack element world
  refine ⟨v, world, element, rfl, ?_⟩
  rw [exec_cons, h]
  rfl

theorem push_constant (n : Nat) :
    m.Runs frame [] [.push .constant n] (Pure.pure (m.constant n)) fun v => [v] :=
  value fun _ _ _ => rfl

theorem map {after : α → List W} {after' : β → List W} (h : m.Runs frame before a x after)
    (f : α → β) (same : ∀ v, after v = after' (f v)) :
    m.Runs frame before a (x >>= fun v => Pure.pure (f v)) after' := by
  intro stack element world
  obtain ⟨v, world', element', evaluates, ran⟩ := h stack element world
  refine ⟨f v, world', element', ?_, ?_⟩
  · calc (x >>= fun v => Pure.pure (f v)) world
        = (x world).bind fun p => some (f p.1, p.2) := rfl
      _ = some (f v, world') := by rw [evaluates, Option.bind_some]
  · rw [ran, same]

theorem call (target : String) (values : List W) :
    m.Runs frame values.reverse [.call target values.length] (m.invoke target values)
      fun v => [v] := by
  intro stack element world
  refine ⟨(m.answer target values world).1, (m.answer target values world).2, element, rfl, ?_⟩
  have count : values.reverse.length = values.length := List.length_reverse
  have enough : values.length ≤ (values.reverse ++ stack).length := by
    rw [List.length_append]
    omega
  rw [exec_cons, step, if_pos enough, List.take_left' count, List.drop_left' count,
    List.reverse_reverse]
  rfl

theorem operation (op : BinaryOperator) (left right : W) :
    m.Runs frame [right, left] [op.instruction] (m.binary op left right) fun v => [v] := by
  cases op with
  | multiply => exact call "Math.multiply" [left, right]
  | divide => exact call "Math.divide" [left, right]
  | add | subtract | and | or | less | greater | equal => exact value fun _ _ _ => rfl

theorem negation (op : UnaryOperator) (v : W) :
    m.Runs frame [v] [op.instruction] (Pure.pure (m.unary op v)) fun v => [v] := by
  cases op with
  | negate | complement => exact value fun _ _ _ => rfl

theorem element (index base : W) :
    m.Runs frame [base, index] [.arithmetic .add, .pop .pointer 1, .push .that 0]
      (m.elementValue index base) fun v => [v] := by
  intro stack element world
  exact ⟨world.heap (m.add index base), world, m.add index base, rfl, rfl⟩

end Machine.Runs

namespace Machine

variable {W : Type} [DecidableEq W] (m : Machine W) (frame : Frame W)

omit [DecidableEq W] in
theorem read_variable (v : Variable) (stack : List W) (element : W) (world : World W) :
    m.read ⟨frame, stack, element, world⟩ v.kind.segment v.index =
      some (v.value m frame world) := by
  rw [Variable.value]
  cases v.kind <;> rfl

theorem exec_variable (v : Variable) (stack : List W) (element : W) (world : World W) :
    m.exec [v.push] ⟨frame, stack, element, world⟩ =
      some ⟨frame, v.value m frame world :: stack, element, world⟩ := by
  rw [exec_cons, Variable.push, step, read_variable]
  rfl

theorem runs_load {env : Environment} {name : String} (declared : (env.find? name).isSome) :
    m.Runs frame [] (env.load name) (m.variableValue env frame name) fun v => [v] := by
  intro stack element world
  obtain ⟨v, found⟩ := Option.isSome_iff_exists.mp declared
  refine ⟨v.value m frame world, world, element, ?_, ?_⟩
  · rw [variableValue, found]
    rfl
  · rw [Environment.load_of_find? found]
    exact m.exec_variable frame v _ element world

theorem runs_receiver (env : Environment) (callee : Callee) :
    m.Runs frame [] (env.receiver callee) (m.receiverValue env frame callee) List.reverse := by
  intro stack element world
  cases callee with
  | own name => exact ⟨[frame.object], world, element, rfl, rfl⟩
  | qualified qualifier name =>
    rw [Environment.receiver, Environment.load, receiverValue]
    cases env.find? qualifier with
    | none => exact ⟨[], world, element, rfl, rfl⟩
    | some v =>
      exact ⟨[v.value m frame world], world, element, rfl, m.exec_variable frame v _ element world⟩

omit [DecidableEq W] in
theorem length_receiverValue {env : Environment} {callee : Callee} {values : List W}
    (h : (m.receiverValue env frame callee).Yields values) :
    values.length = env.receivers callee := by
  obtain ⟨world, world', evaluates⟩ := h
  cases callee with
  | own name =>
    cases evaluates
    rfl
  | qualified qualifier name =>
    rw [Environment.receivers]
    cases found : env.find? qualifier with
    | none =>
      rw [receiverValue, found] at evaluates
      cases evaluates
      rfl
    | some v =>
      rw [receiverValue, found] at evaluates
      cases evaluates
      rfl

end Machine

variable {W : Type} (m : Machine W) {env : Environment} (frame : Frame W)

theorem length_evalArguments {arguments : List Expression} {values : List W}
    (h : (evalArguments m env frame arguments).Yields values) :
    values.length = arguments.length := by
  induction arguments generalizing values with
  | nil =>
    obtain ⟨world, world', evaluates⟩ := h
    rw [evalArguments] at evaluates
    cases evaluates
    rfl
  | cons e rest ih =>
    rw [evalArguments] at h
    obtain ⟨v, first, h⟩ := h.bind
    obtain ⟨vs, further, h⟩ := h.bind
    obtain ⟨world, world', evaluates⟩ := h
    cases evaluates
    rw [List.length_cons, ih further, List.length_cons]

variable [DecidableEq W]

theorem runs_characters (made : W) (content : List Char) :
    m.Runs frame [made] (content.flatMap characterCode) (m.appendCharacters made content)
      fun v => [v] := by
  induction content generalizing made with
  | nil => exact Machine.Runs.pure made fun v => [v]
  | cons c content ih =>
    have pushed : m.Runs frame [] [.push .constant c.toNat] (pure (m.constant c.toNat))
        fun v => [v] := .push_constant c.toNat
    have longer (v : W) : m.Runs frame [v, made] [.call "String.appendChar" 2]
        (m.invoke "String.appendChar" [made, v]) fun v => [v] := .call "String.appendChar" [made, v]
    have called := (pushed.under [made]).bind fun v _ => longer v
    apply called.bind
    intro v _
    exact ih v

theorem runs_string (content : String) :
    m.Runs frame [] (stringCode content) (m.makeString content) fun v => [v] := by
  have length : m.Runs frame [] [.push .constant content.length]
      (pure (m.constant content.length)) fun v => [v] := .push_constant content.length
  have made (v : W) : m.Runs frame [v] [.call "String.new" 1] (m.invoke "String.new" [v])
      fun v => [v] := .call "String.new" [v]
  have empty := length.bind fun v _ => made v
  apply empty.bind
  intro v _
  exact runs_characters m frame v content.toList

theorem runs_constant (k : Constant) :
    m.Runs frame [] k.code (pure (m.constantValue frame.object k)) fun v => [v] := by
  intro stack element world
  cases k with
  | true | false | null | this => exact ⟨_, world, element, rfl, rfl⟩

mutual

theorem Expression.runs (e : Expression) (permitted : ∀ u ∈ e.uses, u.Permitted env) :
    m.Runs frame [] (e.code env) (e.eval m env frame) fun v => [v] := by
  cases e with
  | mk first rest =>
    rw [Expression.uses, List.forall_mem_append] at permitted
    rw [Expression.code, Expression.eval]
    apply (first.runs permitted.1).bind
    intro v _
    exact operations_run v rest permitted.2

theorem operations_run (left : W) (rest : List (BinaryOperator × Term))
    (permitted : ∀ u ∈ operationUses rest, u.Permitted env) :
    m.Runs frame [left] (operationCode env rest) (evalOperations m env frame left rest)
      fun v => [v] := by
  cases rest with
  | nil => exact Machine.Runs.pure left fun v => [v]
  | cons first rest =>
    obtain ⟨op, operand⟩ := first
    rw [operationUses, List.forall_mem_append] at permitted
    rw [operationCode, evalOperations, List.append_assoc]
    apply ((operand.runs permitted.1).under [left]).bind
    intro right _
    apply (Machine.Runs.operation op left right).bind
    intro v _
    exact operations_run v rest permitted.2

theorem Term.runs (t : Term) (permitted : ∀ u ∈ t.uses, u.Permitted env) :
    m.Runs frame [] (t.code env) (t.eval m env frame) fun v => [v] := by
  cases t with
  | integer digits => exact .push_constant _
  | string content => exact runs_string m frame content
  | constant k => exact runs_constant m frame k
  | «variable» name =>
    rw [Term.uses, List.forall_mem_singleton] at permitted
    exact m.runs_load frame permitted
  | element name index =>
    rw [Term.uses, List.forall_mem_cons] at permitted
    rw [Term.code, Term.eval, List.append_assoc]
    apply (index.runs permitted.2).bind
    intro i _
    apply ((m.runs_load frame permitted.1).under [i]).bind
    intro base _
    exact .element i base
  | call callee arguments =>
    rw [Term.uses, List.forall_mem_cons] at permitted
    rw [Term.code, Term.eval, Environment.callCode, List.append_assoc]
    apply (m.runs_receiver frame env callee).bind
    intro object ofReceiver
    apply ((arguments_run arguments permitted.2).under object.reverse).bind
    intro values ofArguments
    have called : m.Runs frame (object ++ values).reverse
        [.call (env.target callee) (object ++ values).length]
        (m.invoke (env.target callee) (object ++ values)) fun v => [v] := .call _ _
    rw [List.reverse_append, List.length_append, m.length_receiverValue frame ofReceiver,
      length_evalArguments m frame ofArguments, Nat.add_comm] at called
    exact called
  | group inner => exact inner.runs permitted
  | unary op operand =>
    rw [Term.code, Term.eval]
    apply (operand.runs permitted).bind
    intro v _
    exact .negation op v

theorem arguments_run (arguments : List Expression)
    (permitted : ∀ u ∈ argumentUses arguments, u.Permitted env) :
    m.Runs frame [] (argumentCode env arguments) (evalArguments m env frame arguments)
      List.reverse := by
  cases arguments with
  | nil => exact Machine.Runs.pure [] List.reverse
  | cons e rest =>
    rw [argumentUses, List.forall_mem_append] at permitted
    rw [argumentCode, evalArguments]
    apply (e.runs permitted.1).bind
    intro v _
    have further := (arguments_run rest permitted.2).under [v]
    exact further.map (v :: ·) fun vs => (List.reverse_cons).symm

end

/-- In whatever compiles, the code of each expression is part of what is written, and on any machine
and in any state it does nothing but push the value of the expression, with what the calls in it do
to the world. -/
theorem compile_expression_computes (source : ByteArray) (code : Code)
    (h : compile source = .ok code) :
    ∃ (text : String) (c : ClassDec), String.fromUTF8? source = some text ∧
      c.lexemes = sourceLexemes text ∧ ∀ d ∈ c.subroutines, ∀ e ∈ d.expressions,
        e.code (d.environment c) <:+: code.instructions ∧
        ∀ (W : Type) [DecidableEq W] (m : Machine W) (σ : MachineState W),
          ∃ v world element, e.eval m (d.environment c) σ.frame σ.world = some (v, world) ∧
            m.exec (e.code (d.environment c)) σ =
              some { σ with stack := v :: σ.stack, element, world } := by
  obtain ⟨text, c, decoded, derives, valid, instructions⟩ := compile_yields h
  refine ⟨text, c, decoded, derives, ?_⟩
  intro d hd e he
  have occurs := SubroutineDec.occurs hd e he
  have permitted : ∀ u ∈ e.uses, u.Permitted (d.environment c) := by
    intro u hu
    exact (valid.subroutines d hd).permitted u (occurs.used hu)
  refine ⟨instructions ▸ occurs.emitted, ?_⟩
  intro W _ m σ
  exact e.runs m σ.frame permitted σ.stack σ.element σ.world

theorem compile_expression_computes_index :
    ∃ source code, compile source = .ok code ∧
      code.instructions = [.function "P.f" 0, .call "P.g" 0, .push .static 0, .arithmetic .add,
        .pop .pointer 1, .push .that 0, .push .constant 1, .arithmetic .not,
        .call "Math.multiply" 2, .return] ∧
      ∃ (text : String) (c : ClassDec), String.fromUTF8? source = some text ∧
        c.lexemes = sourceLexemes text ∧ ∀ d ∈ c.subroutines, ∀ e ∈ d.expressions,
          e.code (d.environment c) <:+: code.instructions ∧
          ∀ (W : Type) [DecidableEq W] (m : Machine W) (σ : MachineState W),
            ∃ v world element, e.eval m (d.environment c) σ.frame σ.world = some (v, world) ∧
              m.exec (e.code (d.environment c)) σ =
                some { σ with stack := v :: σ.stack, element, world } := by
  have run : compile "class P \x7b static Array a; function int f() \x7b
      return a[P.g()] * ~1; \x7d \x7d".toUTF8 =
      .ok (.ofRows [⟨.function "P.f" 0, 1⟩, ⟨.call "P.g" 0, 2⟩, ⟨.push .static 0, 2⟩,
        ⟨.arithmetic .add, 2⟩, ⟨.pop .pointer 1, 2⟩, ⟨.push .that 0, 2⟩, ⟨.push .constant 1, 2⟩,
        ⟨.arithmetic .not, 2⟩, ⟨.call "Math.multiply" 2, 2⟩, ⟨.return, 2⟩]) := by
    rw [compile_ofList]
    decide +kernel
  exact ⟨_, _, run, rfl, compile_expression_computes _ _ run⟩

end JackVm

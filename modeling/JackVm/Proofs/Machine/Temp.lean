import JackVm.Proofs.Machine.Evaluation

/-!
# The word between statements

The segment `temp` carries a word from one instruction to another and means nothing to the source.
If no function looks at what its caller left there, the value of an expression does not depend on it
either, nor does anything else that evaluation leaves in the world.
-/

namespace JackVm

/-- Whether worlds differ at most in the temporary word. -/
structure World.Agrees {W : Type} (w w' : World W) : Prop where
  heap : w.heap = w'.heap
  statics : w.statics = w'.statics

/-- Whether functions do not look at the temporary word. -/
def Machine.IgnoresTemp {W : Type} (m : Machine W) : Prop :=
  ∀ target values w w', World.Agrees w w' →
    (m.answer target values w).1 = (m.answer target values w').1 ∧
      (m.answer target values w).2.Agrees (m.answer target values w').2

/-- Whether a computation does not look at the temporary word. -/
def Evaluation.IgnoresTemp {W α : Type} (x : Evaluation W α) : Prop :=
  ∀ w w' v u, World.Agrees w w' → x w = some (v, u) → ∃ u', x w' = some (v, u') ∧ u.Agrees u'

variable {W α β : Type} {m : Machine W} (env : Environment) (frame : Frame W)

namespace World.Agrees

variable {w w' : World W}

theorem symm (h : w.Agrees w') : w'.Agrees w := ⟨h.heap.symm, h.statics.symm⟩

theorem value_eq (h : w.Agrees w') (v : Variable) : v.value m frame w = v.value m frame w' := by
  unfold Variable.value
  rw [h.heap, h.statics]

end World.Agrees

namespace Evaluation.IgnoresTemp

theorem pure (v : α) : IgnoresTemp (Pure.pure v : Evaluation W α) := by
  intro w w' _ _ agree evaluates
  cases evaluates
  exact ⟨w', rfl, agree⟩

theorem bind {x : Evaluation W α} {f : α → Evaluation W β} (hx : x.IgnoresTemp)
    (hf : ∀ v, (f v).IgnoresTemp) : (x >>= f).IgnoresTemp := by
  intro w w' v u agree evaluates
  have parts : (x w).bind (fun p => f p.1 p.2) = some (v, u) := evaluates
  obtain ⟨⟨a, w₁⟩, first, second⟩ := Option.bind_eq_some_iff.mp parts
  obtain ⟨w₁', first', agree₁⟩ := hx w w' a w₁ agree first
  obtain ⟨u', second', agree₂⟩ := hf a w₁ w₁' v u agree₁ second
  refine ⟨u', ?_, agree₂⟩
  calc (x >>= f) w' = (x w').bind fun p => f p.1 p.2 := rfl
    _ = some (v, u') := by rw [first', Option.bind_some, second']

theorem invoke (hm : m.IgnoresTemp) (target : String) (values : List W) :
    (m.invoke target values).IgnoresTemp := by
  intro w w' v u agree evaluates
  obtain ⟨same, agree'⟩ := hm target values w w' agree
  have answered : m.answer target values w = (v, u) := Option.some.inj evaluates
  rw [answered] at same agree'
  exact ⟨(m.answer target values w').2, congrArg some (Prod.ext same.symm rfl), agree'⟩

theorem variableValue (name : String) : (m.variableValue env frame name).IgnoresTemp := by
  intro w w' v u agree evaluates
  obtain ⟨x, found, given⟩ := Option.map_eq_some_iff.mp evaluates
  cases given
  refine ⟨w', ?_, agree⟩
  rw [Machine.variableValue, found, agree.value_eq]
  rfl

theorem receiverValue (callee : Callee) : (m.receiverValue env frame callee).IgnoresTemp := by
  cases callee with
  | own name => exact pure _
  | qualified qualifier name =>
    intro w w' v u agree evaluates
    cases evaluates
    refine ⟨w', ?_, agree⟩
    simp only [Machine.receiverValue, agree.value_eq]

theorem elementValue (index base : W) : (m.elementValue index base).IgnoresTemp := by
  intro w w' v u agree evaluates
  cases evaluates
  refine ⟨w', ?_, agree⟩
  rw [Machine.elementValue, agree.heap]

theorem binary (hm : m.IgnoresTemp) (op : BinaryOperator) (x y : W) :
    (m.binary op x y).IgnoresTemp := by
  cases op with
  | multiply | divide => exact invoke hm _ _
  | add | subtract | and | or | less | greater | equal => exact pure _

theorem appendCharacters (hm : m.IgnoresTemp) (made : W) (content : List Char) :
    (m.appendCharacters made content).IgnoresTemp := by
  induction content generalizing made with
  | nil => exact pure _
  | cons c rest ih => exact (invoke hm _ _).bind fun longer => ih longer

end Evaluation.IgnoresTemp

mutual

theorem Expression.ignoresTemp (hm : m.IgnoresTemp) (e : Expression) :
    (e.eval m env frame).IgnoresTemp := by
  cases e with
  | mk first rest =>
    rw [Expression.eval]
    exact (first.ignoresTemp hm).bind fun left => operations_ignoreTemp hm left rest

theorem operations_ignoreTemp (hm : m.IgnoresTemp) (left : W)
    (rest : List (BinaryOperator × Term)) :
    (evalOperations m env frame left rest).IgnoresTemp := by
  cases rest with
  | nil => exact .pure _
  | cons first rest =>
    obtain ⟨op, operand⟩ := first
    rw [evalOperations]
    apply (operand.ignoresTemp hm).bind
    intro right
    apply (Evaluation.IgnoresTemp.binary hm op left right).bind
    intro v
    exact operations_ignoreTemp hm v rest

theorem Term.ignoresTemp (hm : m.IgnoresTemp) (t : Term) : (t.eval m env frame).IgnoresTemp := by
  cases t with
  | integer | constant => exact .pure _
  | string content =>
    exact (Evaluation.IgnoresTemp.invoke hm _ _).bind fun empty => .appendCharacters hm empty _
  | «variable» name => exact .variableValue env frame name
  | element name index =>
    rw [Term.eval]
    apply (index.ignoresTemp hm).bind
    intro i
    apply (Evaluation.IgnoresTemp.variableValue env frame name).bind
    intro base
    exact .elementValue i base
  | call callee arguments =>
    rw [Term.eval]
    apply (Evaluation.IgnoresTemp.receiverValue env frame callee).bind
    intro object
    apply (arguments_ignoreTemp hm arguments).bind
    intro values
    exact .invoke hm _ _
  | group inner => exact inner.ignoresTemp hm
  | unary op operand =>
    rw [Term.eval]
    exact (operand.ignoresTemp hm).bind fun v => .pure _

theorem arguments_ignoreTemp (hm : m.IgnoresTemp) (arguments : List Expression) :
    (evalArguments m env frame arguments).IgnoresTemp := by
  cases arguments with
  | nil => exact .pure _
  | cons e rest =>
    rw [evalArguments]
    exact (e.ignoresTemp hm).bind fun v => (arguments_ignoreTemp hm rest).bind fun vs => .pure _

end

end JackVm

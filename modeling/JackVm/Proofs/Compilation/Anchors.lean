import JackVm.Proofs.Compilation.ClassOutput

/-!
# Where the lines of instructions come from

An instruction records the line of a token. Most of the instructions of a construct have the line
of one of its own tokens, but a call is written on the line of the name in front of it, and some
instructions are written before the token that closes the construct has been taken.
-/

namespace JackVm

namespace Output

/-- Every line is that of one of the last `before` tokens in front of an output, of a token of the
output itself, or of one of the first `after` tokens behind it. -/
def Anchored (o : Output) (before after : Nat) : Prop :=
  ∀ place ∈ o.anchors, 1 ≤ before + place ∧ place ≤ o.lexemes.length + after

variable {a b o : Output} {before after : Nat}

theorem Anchored.mono {before' after' : Nat} (h : o.Anchored before after)
    (front : before ≤ before') (back : after ≤ after') : o.Anchored before' after' := by
  intro place mem
  have := h place mem
  omega

theorem Anchored.between (h : o.Anchored 0 0) (before after : Nat) : o.Anchored before after :=
  h.mono (Nat.zero_le _) (Nat.zero_le _)

@[simp] theorem anchored_empty : Anchored {} before after := by
  intro place mem
  cases mem

@[simp] theorem anchored_append : (a ++ b).Anchored before after ↔
    a.Anchored before (b.lexemes.length + after) ∧
      b.Anchored (before + a.lexemes.length) after := by
  have anchors : (a ++ b).anchors = a.anchors ++ b.anchors.map (a.lexemes.length + ·) := rfl
  have length : (a ++ b).lexemes.length = a.lexemes.length + b.lexemes.length := by simp
  unfold Anchored
  rw [anchors, length, List.forall_mem_append, List.forall_mem_map]
  -- Places of `b` count from the start of `a` in the whole, so what they may reach moves along.
  apply and_congr
  · exact forall₂_congr fun place _ => by omega
  · exact forall₂_congr fun place _ => by omega

@[simp] theorem anchored_took (l : Lexeme) : (took l).Anchored before after := by
  intro place mem
  cases mem

@[simp] theorem anchored_oneIf : oneIf.Anchored before after := by
  intro place mem
  cases mem

@[simp] theorem anchored_oneWhile : oneWhile.Anchored before after := by
  intro place mem
  cases mem

@[simp] theorem anchored_within (p : Production) :
    (within p o).Anchored before after ↔ o.Anchored before after := Iff.rfl

theorem anchored_wrote {code : List Instruction} {place : Nat} (first : 1 ≤ before + place)
    (last : place ≤ after) : (wrote code place).Anchored before after := by
  intro other mem
  obtain ⟨_, _, rfl⟩ := List.mem_map.mp mem
  exact ⟨first, by simpa using last⟩

theorem anchored_thenWrote {code : List Instruction} {place : Nat}
    (h : o.Anchored before after) (first : 1 ≤ before + place)
    (last : place ≤ o.lexemes.length + after) :
    (o.thenWrote code place).Anchored before after := by
  intro other mem
  rw [thenWrote_anchors _ _ place, List.mem_append] at mem
  cases mem with
  | inl mem => exact h other mem
  | inr mem =>
    obtain ⟨_, _, rfl⟩ := List.mem_map.mp mem
    exact ⟨first, last⟩

theorem anchored_join {os : List Output} (h : ∀ o ∈ os, o.Anchored 0 0) :
    (join os).Anchored 0 0 := by
  induction os with
  | nil => exact anchored_empty
  | cons o os ih =>
    obtain ⟨first, rest⟩ := List.forall_mem_cons.mp h
    exact anchored_append.mpr ⟨first.between _ _, (ih rest).between _ _⟩

end Output

open Output

private theorem indexOutput_anchored (env : Environment) (name : String) {index : Output}
    (h : index.Anchored 0 0) : (indexOutput env name index).Anchored 0 0 := by
  simp only [indexOutput, anchored_append, anchored_took, h.between, true_and, and_true]
  exact anchored_wrote (by simp) (Nat.zero_le _)

private theorem listOutput_anchored {arguments : Output} (h : arguments.Anchored 0 0) :
    (listOutput arguments).Anchored 0 0 := by
  simp only [listOutput, anchored_append, anchored_within, h.between, anchored_took, and_self]

/-- A call is written on the line of the name in front. -/
private theorem callOutput_anchored (env : Environment) (callee : Callee) (count : Nat)
    {arguments : Output} (h : arguments.Anchored 0 0) :
    (callOutput env callee count arguments).Anchored 1 0 := by
  have list := listOutput_anchored h
  refine anchored_thenWrote ?_ (by omega) (Nat.zero_le _)
  cases callee with
  | own name =>
    simp only [preparedOutput, anchored_append, list.between, and_true]
    exact anchored_thenWrote (anchored_took _) (by omega) (Nat.zero_le _)
  | qualified qualifier name =>
    simp only [preparedOutput, anchored_append, anchored_took, list.between, and_true]
    exact anchored_thenWrote (by simp) (by omega) (Nat.zero_le _)

mutual

theorem Expression.output_anchored (env : Environment) :
    (e : Expression) → (e.output env).Anchored 0 0
  | .mk first rest => by
    have head := first.output_anchored env
    have tail := operationOutput_anchored env rest
    simp only [Expression.output, anchored_within, anchored_append, head.between, tail.between,
      and_self]

theorem operationOutput_anchored (env : Environment) :
    (rest : List (BinaryOperator × Term)) → (operationOutput env rest).Anchored 0 0
  | [] => anchored_empty
  | (op, operand) :: rest => by
    have head := operand.output_anchored env
    have tail := operationOutput_anchored env rest
    simp only [operationOutput, anchored_append, anchored_took, tail.between, true_and, and_true]
    exact anchored_thenWrote (head.between _ _) (by simp) (Nat.zero_le _)

theorem Term.output_anchored (env : Environment) : (t : Term) → (t.output env).Anchored 0 0
  | .integer _ | .string _ | .constant _ | .variable _ => by
    simp only [Term.output, anchored_within, anchored_append, anchored_took, true_and]
    exact anchored_wrote (by simp) (Nat.zero_le _)
  | .element name index => by
    have inner := indexOutput_anchored env name (index.output_anchored env)
    simp only [Term.output, anchored_within, anchored_append, anchored_took, true_and]
    exact anchored_thenWrote (inner.between _ _) (by simp) (by simp [indexOutput]; omega)
  | .call callee arguments => by
    have inner := callOutput_anchored env callee arguments.length
      (argumentOutput_anchored env arguments)
    simp only [Term.output, anchored_within, anchored_append, anchored_took, true_and]
    exact inner
  | .group inner => by
    have h := inner.output_anchored env
    simp only [Term.output, anchored_within, anchored_append, anchored_took, h.between, and_self]
  | .unary op operand => by
    have h := operand.output_anchored env
    simp only [Term.output, anchored_within, anchored_append, anchored_took, true_and]
    exact anchored_thenWrote (h.between _ _) (by simp) (Nat.zero_le _)

theorem argumentOutput_anchored (env : Environment) :
    (arguments : List Expression) → (argumentOutput env arguments).Anchored 0 0
  | [] => anchored_empty
  | e :: rest => by
    have head := e.output_anchored env
    have tail := furtherOutput_anchored env rest
    simp only [argumentOutput, anchored_append, head.between, tail.between, and_self]

theorem furtherOutput_anchored (env : Environment) :
    (arguments : List Expression) → (furtherOutput env arguments).Anchored 0 0
  | [] => anchored_empty
  | e :: rest => by
    have head := e.output_anchored env
    have tail := furtherOutput_anchored env rest
    simp only [furtherOutput, anchored_append, anchored_took, head.between, tail.between, and_self]

end

private theorem blockOutput_anchored {o : Output} (h : o.Anchored 0 0) :
    (blockOutput o).Anchored 0 0 := by
  simp only [blockOutput, anchored_append, anchored_took, h.between, and_self]

private theorem ifOutput_anchored (number : Nat) {condition body : Output}
    (first : condition.Anchored 0 0) (second : body.Anchored 0 0) :
    (ifOutput number condition body).Anchored 0 0 := by
  have block := blockOutput_anchored second
  simp only [ifOutput, anchored_append, anchored_oneIf, anchored_took, first.between,
    block.between, true_and, and_true]
  exact anchored_wrote (by simp) (Nat.zero_le _)

mutual

theorem Statement.output_anchored (env : Environment) (ifs whiles : Nat) :
    (st : Statement) → (st.output env ifs whiles).Anchored 0 0
  | .let name value => by
    have h := value.output_anchored env
    simp only [Statement.output, anchored_within, anchored_append, anchored_took, h.between,
      true_and, and_true]
    exact anchored_wrote (by simp) (Nat.zero_le _)
  | .letElement name index value => by
    have inner := indexOutput_anchored env name (index.output_anchored env)
    have h := value.output_anchored env
    simp only [Statement.output, anchored_within, anchored_append, anchored_took, inner.between,
      h.between, true_and, and_true]
    exact anchored_wrote (by simp) (Nat.zero_le _)
  | .if condition body => by
    have front := ifOutput_anchored ifs (condition.output_anchored env)
      ((anchored_within .statements).mpr (statementOutput_anchored env (ifs + 1) whiles body))
    simp only [Statement.output, anchored_within, anchored_append, front.between, true_and]
    exact anchored_wrote (by simp [ifOutput]) (Nat.zero_le _)
  | .ifElse condition body otherwise => by
    have front := ifOutput_anchored ifs (condition.output_anchored env)
      ((anchored_within .statements).mpr (statementOutput_anchored env (ifs + 1) whiles body))
    have block := blockOutput_anchored ((anchored_within .statements).mpr
      (statementOutput_anchored env (ifs + 1 + ifCount body) (whiles + whileCount body) otherwise))
    simp only [Statement.output, anchored_within, anchored_append, anchored_took, front.between,
      block.between, true_and, and_true]
    exact ⟨anchored_wrote (by simp [ifOutput]) (Nat.zero_le _),
      anchored_wrote (by simp; omega) (Nat.zero_le _)⟩
  | .while condition body => by
    have test := condition.output_anchored env
    have inner := statementOutput_anchored env ifs (whiles + 1) body
    simp only [Statement.output, anchored_within, anchored_append, anchored_oneWhile,
      anchored_took, test.between, inner.between, true_and, and_true]
    exact ⟨⟨anchored_wrote (by simp) (by simp), anchored_wrote (by simp) (Nat.zero_le _)⟩,
      anchored_wrote (by simp) (by simp)⟩
  | .do callee arguments => by
    have inner := callOutput_anchored env callee arguments.length
      (argumentOutput_anchored env arguments)
    simp only [Statement.output, anchored_within, anchored_append, anchored_took, true_and,
      and_true]
    exact ⟨inner.mono (by simp) (Nat.zero_le _), anchored_wrote (by simp) (Nat.zero_le _)⟩
  | .return none => by
    simp only [Statement.output, anchored_within, anchored_append, anchored_took, true_and,
      and_true]
    exact ⟨anchored_wrote (by simp) (Nat.zero_le _), anchored_wrote (by simp) (Nat.zero_le _)⟩
  | .return (some value) => by
    have h := value.output_anchored env
    simp only [Statement.output, anchored_within, anchored_append, anchored_took, h.between,
      true_and, and_true]
    exact anchored_wrote (by simp) (Nat.zero_le _)

theorem statementOutput_anchored (env : Environment) (ifs whiles : Nat) :
    (body : List Statement) → (statementOutput env ifs whiles body).Anchored 0 0
  | [] => anchored_empty
  | first :: rest => by
    have head := first.output_anchored env ifs whiles
    have tail := statementOutput_anchored env (ifs + first.ifCount) (whiles + first.whileCount) rest
    simp only [statementOutput, anchored_append, head.between, tail.between, and_self]

end

/-! ## Declarations, subroutines and classes -/

private theorem VariableGroup.output_anchored (g : VariableGroup) : g.output.Anchored 0 0 := by
  have rest : (join (g.rest.map furtherNameOutput)).Anchored 0 0 := by
    refine anchored_join (List.forall_mem_map.mpr fun name _ => ?_)
    simp only [furtherNameOutput, anchored_append, anchored_took, and_self]
  simp only [output, anchored_append, anchored_took, rest.between, and_self]

private theorem ClassVarDec.output_anchored (d : ClassVarDec) : d.output.Anchored 0 0 := by
  have group := d.group.output_anchored
  simp only [output, anchored_within, anchored_append, anchored_took, group.between, and_self]

private theorem VariableGroup.localOutput_anchored (g : VariableGroup) :
    g.localOutput.Anchored 0 0 := by
  have group := g.output_anchored
  simp only [localOutput, anchored_within, anchored_append, anchored_took, group.between, and_self]

private theorem Parameter.output_anchored (p : Parameter) : p.output.Anchored 0 0 := by
  simp only [output, anchored_append, anchored_took, and_self]

private theorem parameterOutput_anchored (ps : List Parameter) :
    (parameterOutput ps).Anchored 0 0 := by
  cases ps with
  | nil => exact anchored_empty
  | cons p ps =>
    have first := p.output_anchored
    have rest : (join (ps.map furtherParameterOutput)).Anchored 0 0 := by
      refine anchored_join (List.forall_mem_map.mpr fun p _ => ?_)
      have further := p.output_anchored
      simp only [furtherParameterOutput, anchored_append, anchored_took, further.between, and_self]
    simp only [parameterOutput, anchored_append, first.between, rest.between, and_self]

theorem SubroutineDec.output_anchored (d : SubroutineDec) (c : ClassDec) :
    (d.output c).Anchored 0 0 := by
  have parameters := parameterOutput_anchored d.parameters
  have locals : (join (d.varDecs.map VariableGroup.localOutput)).Anchored 0 0 :=
    anchored_join (List.forall_mem_map.mpr fun g _ => g.localOutput_anchored)
  have body := statementOutput_anchored (d.environment c) 0 0 d.body
  simp only [output, bodyOutput, anchored_within, anchored_append, anchored_took,
    parameters.between, locals.between, body.between, true_and, and_true]
  exact ⟨anchored_wrote (by simp; omega) (Nat.zero_le _),
    anchored_wrote (by simp; omega) (Nat.zero_le _)⟩

/-- Every instruction of a class has the line of one of the tokens of the class. -/
theorem ClassDec.output_anchored (c : ClassDec) : c.output.Anchored 0 0 := by
  have decs : (join (c.varDecs.map ClassVarDec.output)).Anchored 0 0 :=
    anchored_join (List.forall_mem_map.mpr fun d _ => d.output_anchored)
  have subroutines : (join (c.subroutines.map fun d => d.output c)).Anchored 0 0 :=
    anchored_join (List.forall_mem_map.mpr fun d _ => d.output_anchored c)
  simp only [output, anchored_within, anchored_append, anchored_took, decs.between,
    subroutines.between, and_self]

end JackVm

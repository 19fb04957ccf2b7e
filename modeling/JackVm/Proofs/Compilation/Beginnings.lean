import JackVm.Proofs.Compilation.Anchors

/-!
# Parts of an output

An output has a line for each instruction, so the rows of the output begin with those of any output
that it begins with.
-/

namespace JackVm

namespace Output

variable {a b c o : Output} {code : List Instruction} {place : Nat}

theorem anchors_append (a b : Output) :
    (a ++ b).anchors = a.anchors ++ b.anchors.map (a.lexemes.length + ·) := rfl

/-- Whether an output has a line for each instruction. -/
def Aligned (o : Output) : Prop :=
  o.anchors.length = o.code.length

@[simp] theorem aligned_empty : Aligned {} := rfl

@[simp] theorem aligned_took (l : Lexeme) : (took l).Aligned := rfl

@[simp] theorem aligned_oneIf : oneIf.Aligned := rfl

@[simp] theorem aligned_oneWhile : oneWhile.Aligned := rfl

@[simp] theorem aligned_wrote : (wrote code place).Aligned :=
  List.length_map _

@[simp] theorem aligned_within (p : Production) : (within p o).Aligned ↔ o.Aligned := Iff.rfl

@[simp] theorem aligned_thenWrote : (o.thenWrote code place).Aligned ↔ o.Aligned := by
  rw [Aligned, thenWrote_anchors _ _ place, thenWrote_code _ _ place, List.length_append,
    List.length_append, List.length_map, Nat.add_right_cancel_iff, Aligned]

@[simp] theorem aligned_append (h : b.Aligned) : (a ++ b).Aligned ↔ a.Aligned := by
  rw [Aligned, anchors_append, code_append, List.length_append, List.length_append,
    List.length_map, h, Nat.add_right_cancel_iff, Aligned]

theorem Aligned.append (h : a.Aligned) (h' : b.Aligned) : (a ++ b).Aligned :=
  (aligned_append h').mpr h

theorem aligned_join {os : List Output} (h : ∀ o ∈ os, o.Aligned) : (join os).Aligned := by
  induction os with
  | nil => rfl
  | cons o os ih =>
    obtain ⟨first, rest⟩ := List.forall_mem_cons.mp h
    exact first.append (ih rest)

/-- Whether an output is the beginning of another. -/
structure Begins (a o : Output) : Prop where
  lexemes : a.lexemes <+: o.lexemes
  code : a.code <+: o.code
  anchors : a.anchors <+: o.anchors

namespace Begins

theorem refl (o : Output) : o.Begins o :=
  ⟨List.prefix_rfl, List.prefix_rfl, List.prefix_rfl⟩

theorem trans (h : a.Begins b) (h' : b.Begins c) : a.Begins c :=
  ⟨h.lexemes.trans h'.lexemes, h.code.trans h'.code, h.anchors.trans h'.anchors⟩

theorem append (h : a.Begins o) (b : Output) : a.Begins (o ++ b) :=
  h.trans ⟨List.prefix_append _ _, List.prefix_append _ _, List.prefix_append _ _⟩

theorem thenWrote (h : a.Begins o) (code : List Instruction) (place : Nat) :
    a.Begins (o.thenWrote code place) :=
  h.trans ⟨List.prefix_rfl, List.prefix_append _ _, List.prefix_append _ _⟩

theorem within (h : a.Begins o) (p : Production) : a.Begins (within p o) :=
  ⟨h.lexemes, h.code, h.anchors⟩

theorem behind (h : a.Begins b) (front : Output) : (front ++ a).Begins (front ++ b) where
  lexemes := (List.prefix_append_right_inj _).mpr h.lexemes
  code := (List.prefix_append_right_inj _).mpr h.code
  anchors := (List.prefix_append_right_inj _).mpr (h.anchors.map _)

end Begins

/-! ## Rows -/

section
variable {Line : Type} (lineAt : Nat → Line)

/-- The rows of an output, given the lines of the places in its window. -/
def rows (o : Output) : List (Row Line) :=
  List.zipWith Row.mk o.code (o.anchors.map lineAt)

variable {lineAt}

theorem rows_congr {other : Nat → Line} (h : ∀ place ∈ o.anchors, lineAt place = other place) :
    o.rows lineAt = o.rows other := by
  rw [rows, rows, List.map_congr_left h]

theorem exists_anchor {row : Row Line} (h : row ∈ o.rows lineAt) :
    ∃ place ∈ o.anchors, row.line = lineAt place := by
  obtain ⟨i, inside, rfl⟩ := List.mem_iff_getElem.mp h
  have small : i < o.anchors.length := by
    simp only [rows, List.length_zipWith, List.length_map] at inside
    omega
  exact ⟨o.anchors[i], List.getElem_mem small, by simp [rows]⟩

variable (lineAt)

theorem Aligned.length_lines (h : a.Aligned) :
    a.code.length = (a.anchors.map lineAt).length := by
  rw [List.length_map, h]

theorem rows_append (h : a.Aligned) :
    (a ++ b).rows lineAt =
      a.rows lineAt ++ b.rows fun place => lineAt (a.lexemes.length + place) := by
  rw [rows, anchors_append, code_append, List.map_append, List.zipWith_append (h.length_lines _),
    List.map_map]
  rfl

theorem Begins.rows (h : a.Begins o) (aligned : a.Aligned) :
    a.rows lineAt <+: o.rows lineAt := by
  obtain ⟨code, hc⟩ := h.code
  obtain ⟨anchors, ha⟩ := h.anchors
  rw [Output.rows, Output.rows, ← hc, ← ha, List.map_append,
    List.zipWith_append (aligned.length_lines _)]
  exact List.prefix_append _ _

theorem instruction_rows (h : o.Aligned) : (o.rows lineAt).map Row.instruction = o.code := by
  apply List.ext_getElem
  · rw [List.length_map, rows, List.length_zipWith, ← h.length_lines, Nat.min_self]
  · simp [rows]

theorem line_rows (h : o.Aligned) : (o.rows lineAt).map Row.line = o.anchors.map lineAt := by
  apply List.ext_getElem
  · rw [List.length_map, rows, List.length_zipWith, h.length_lines, Nat.min_self]
  · simp [rows]

end

end Output

open Output

/-! ## Every output of a tree is aligned -/

theorem listOutput_aligned {arguments : Output} (h : arguments.Aligned) :
    (listOutput arguments).Aligned := by
  simp [listOutput, h]

theorem callOutput_aligned (env : Environment) (callee : Callee) (count : Nat)
    {arguments : Output} (h : arguments.Aligned) :
    (callOutput env callee count arguments).Aligned := by
  cases callee <;> simp [callOutput, preparedOutput, listOutput_aligned h]

theorem indexOutput_aligned (env : Environment) (name : String) {index : Output}
    (h : index.Aligned) : (indexOutput env name index).Aligned := by
  simp [indexOutput, h]

theorem blockOutput_aligned {o : Output} (h : o.Aligned) : (blockOutput o).Aligned := by
  simp [blockOutput, h]

theorem ifOutput_aligned (number : Nat) {condition body : Output} (first : condition.Aligned)
    (second : body.Aligned) : (ifOutput number condition body).Aligned := by
  simp [ifOutput, first, blockOutput_aligned second]

mutual

theorem Expression.output_aligned (env : Environment) : (e : Expression) → (e.output env).Aligned
  | .mk first rest => by
    simp [Expression.output, first.output_aligned env, operation_output_aligned env rest]

theorem operation_output_aligned (env : Environment) :
    (rest : List (BinaryOperator × Term)) → (operationOutput env rest).Aligned
  | [] => rfl
  | (op, operand) :: rest => by
    simp [operationOutput, operand.output_aligned env, operation_output_aligned env rest]

theorem Term.output_aligned (env : Environment) : (t : Term) → (t.output env).Aligned
  | .integer _ | .string _ | .constant _ | .variable _ => by simp [Term.output]
  | .element name index => by
    simp [Term.output, indexOutput_aligned env name (index.output_aligned env)]
  | .call callee arguments => by
    simp [Term.output, callOutput_aligned env callee _ (argument_output_aligned env arguments)]
  | .group inner => by simp [Term.output, inner.output_aligned env]
  | .unary op operand => by simp [Term.output, operand.output_aligned env]

theorem argument_output_aligned (env : Environment) :
    (arguments : List Expression) → (argumentOutput env arguments).Aligned
  | [] => rfl
  | e :: rest => (e.output_aligned env).append (further_output_aligned env rest)

theorem further_output_aligned (env : Environment) :
    (arguments : List Expression) → (furtherOutput env arguments).Aligned
  | [] => rfl
  | e :: rest =>
    ((aligned_took _).append (e.output_aligned env)).append (further_output_aligned env rest)

end

mutual

theorem Statement.output_aligned (env : Environment) (ifs whiles : Nat) :
    (st : Statement) → (st.output env ifs whiles).Aligned
  | .let name value => by simp [Statement.output, value.output_aligned env]
  | .letElement name index value => by
    simp [Statement.output, indexOutput_aligned env name (index.output_aligned env),
      value.output_aligned env]
  | .if condition body => by
    have block := statement_output_aligned env (ifs + 1) whiles body
    simp [Statement.output, ifOutput_aligned, condition.output_aligned env, block]
  | .ifElse condition body otherwise => by
    have block := statement_output_aligned env (ifs + 1) whiles body
    have other := statement_output_aligned env (ifs + 1 + ifCount body)
      (whiles + whileCount body) otherwise
    simp [Statement.output, ifOutput_aligned, blockOutput_aligned, condition.output_aligned env,
      block, other]
  | .while condition body => by
    have block := statement_output_aligned env ifs (whiles + 1) body
    simp [Statement.output, condition.output_aligned env, block]
  | .do callee arguments => by
    simp [Statement.output, callOutput_aligned env callee _ (argument_output_aligned env arguments)]
  | .return none => rfl
  | .return (some value) => by simp [Statement.output, value.output_aligned env]

theorem statement_output_aligned (env : Environment) (ifs whiles : Nat) :
    (body : List Statement) → (statementOutput env ifs whiles body).Aligned
  | [] => rfl
  | first :: rest =>
    (first.output_aligned env ifs whiles).append (statement_output_aligned env _ _ rest)

end

theorem VariableGroup.output_aligned (g : VariableGroup) : g.output.Aligned := by
  have names : (join (g.rest.map furtherNameOutput)).Aligned :=
    aligned_join (List.forall_mem_map.mpr fun _ _ => rfl)
  simp [output, names]

theorem ClassVarDec.output_aligned (d : ClassVarDec) : d.output.Aligned := by
  simp [output, d.group.output_aligned]

theorem parameterOutput_aligned (ps : List Parameter) : (parameterOutput ps).Aligned := by
  cases ps with
  | nil => rfl
  | cons p ps =>
    have further : (join (ps.map furtherParameterOutput)).Aligned :=
      aligned_join (List.forall_mem_map.mpr fun _ _ => rfl)
    simp [parameterOutput, Parameter.output, further]

theorem locals_aligned (gs : List VariableGroup) :
    (join (gs.map VariableGroup.localOutput)).Aligned := by
  refine aligned_join (List.forall_mem_map.mpr fun g _ => ?_)
  simp [VariableGroup.localOutput, g.output_aligned]

theorem SubroutineDec.output_aligned (d : SubroutineDec) (c : ClassDec) :
    (d.output c).Aligned := by
  simp [output, bodyOutput, locals_aligned, parameterOutput_aligned, statement_output_aligned]

theorem ClassDec.output_aligned (c : ClassDec) : c.output.Aligned := by
  have declarations : (join (c.varDecs.map ClassVarDec.output)).Aligned :=
    aligned_join (List.forall_mem_map.mpr fun d _ => d.output_aligned)
  have subroutines : (join (c.subroutines.map fun d => d.output c)).Aligned :=
    aligned_join (List.forall_mem_map.mpr fun d _ => d.output_aligned c)
  simp [output, declarations, subroutines]

/-- What a stretch of a compilation appends to the code. -/
theorem Progress.code_eq {s t : CompilerState} {o : Output} (p : Progress s o t)
    (aligned : o.Aligned) : t.code = s.code.appendRows (o.rows s.lineAt) := by
  apply Code.ext_lists
  · rw [p.instructions, Code.instructions_appendRows, instruction_rows _ aligned]
  · rw [p.lines, Code.lines_appendRows, line_rows _ aligned]

end JackVm

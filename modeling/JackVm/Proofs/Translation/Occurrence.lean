import JackVm.Proofs.Translation.Code

/-!
# Expressions inside trees

All the expressions in a tree, however deep. The code of each is a contiguous part of the code of
the tree, and the tree demands of its surroundings whatever they demand.
-/

namespace JackVm

mutual

def Expression.expressions : Expression → List Expression
  | .mk first rest => .mk first rest :: (first.expressions ++ operationExpressions rest)

def operationExpressions : List (BinaryOperator × Term) → List Expression
  | [] => []
  | (_, operand) :: rest => operand.expressions ++ operationExpressions rest

def Term.expressions : Term → List Expression
  | .integer _ | .string _ | .constant _ | .variable _ => []
  | .element _ index => index.expressions
  | .call _ arguments => argumentExpressions arguments
  | .group inner => inner.expressions
  | .unary _ operand => operand.expressions

def argumentExpressions : List Expression → List Expression
  | [] => []
  | e :: rest => e.expressions ++ argumentExpressions rest

end

mutual

def Statement.expressions : Statement → List Expression
  | .let _ value => value.expressions
  | .letElement _ index value => index.expressions ++ value.expressions
  | .if condition body => condition.expressions ++ statementExpressions body
  | .ifElse condition body otherwise =>
    condition.expressions ++ (statementExpressions body ++ statementExpressions otherwise)
  | .while condition body => condition.expressions ++ statementExpressions body
  | .do _ arguments => argumentExpressions arguments
  | .return none => []
  | .return (some value) => value.expressions

def statementExpressions : List Statement → List Expression
  | [] => []
  | first :: rest => first.expressions ++ statementExpressions rest

end

def SubroutineDec.expressions (d : SubroutineDec) : List Expression :=
  statementExpressions d.body

/-- An expression that stands within a larger construct, given the construct's code and uses. -/
structure Occurs (env : Environment) (code : List Instruction) (uses : List Use)
    (e : Expression) : Prop where
  emitted : e.code env <:+: code
  used : e.uses ⊆ uses

theorem Occurs.within {env : Environment} {a b : List Instruction} {u v : List Use}
    {e : Expression} (h : Occurs env a u e) (code : a <:+: b) (uses : u ⊆ v) :
    Occurs env b v e where
  emitted := h.emitted.trans code
  used := fun _ hu => uses (h.used hu)

mutual

theorem Expression.occurs (env : Environment) (x : Expression) :
    ∀ e ∈ x.expressions, Occurs env (x.code env) x.uses e := by
  cases x with
  | mk first rest =>
    rw [Expression.expressions, List.forall_mem_cons, List.forall_mem_append]
    refine ⟨⟨List.infix_rfl, fun _ h => h⟩, ?_, ?_⟩
    · intro e he
      exact (first.occurs env e he).within List.infix_append_left (List.subset_append_left _ _)
    · intro e he
      exact (operations_occur env rest e he).within List.infix_append_right
        (List.subset_append_right _ _)

theorem operations_occur (env : Environment) (rest : List (BinaryOperator × Term)) :
    ∀ e ∈ operationExpressions rest,
      Occurs env (operationCode env rest) (operationUses rest) e := by
  cases rest with
  | nil => exact List.forall_mem_nil _
  | cons first rest =>
    obtain ⟨op, operand⟩ := first
    rw [operationExpressions, List.forall_mem_append]
    constructor
    · intro e he
      exact (operand.occurs env e he).within
        (List.infix_append_of_infix_left List.infix_append_left) (List.subset_append_left _ _)
    · intro e he
      exact (operations_occur env rest e he).within List.infix_append_right
        (List.subset_append_right _ _)

theorem Term.occurs (env : Environment) (t : Term) :
    ∀ e ∈ t.expressions, Occurs env (t.code env) t.uses e := by
  cases t with
  | integer | string | constant | «variable» => exact List.forall_mem_nil _
  | element name index =>
    intro e he
    exact (index.occurs env e he).within
      (List.infix_append_of_infix_left List.infix_append_left) (List.subset_cons_self _ _)
  | call callee arguments =>
    intro e he
    exact (arguments_occur env arguments e he).within (List.infix_append _ _ _)
      (List.subset_cons_self _ _)
  | group inner => exact inner.occurs env
  | unary op operand =>
    intro e he
    exact (operand.occurs env e he).within List.infix_append_left (List.Subset.refl _)

theorem arguments_occur (env : Environment) (arguments : List Expression) :
    ∀ e ∈ argumentExpressions arguments,
      Occurs env (argumentCode env arguments) (argumentUses arguments) e := by
  cases arguments with
  | nil => exact List.forall_mem_nil _
  | cons first rest =>
    rw [argumentExpressions, List.forall_mem_append]
    constructor
    · intro e he
      exact (first.occurs env e he).within List.infix_append_left (List.subset_append_left _ _)
    · intro e he
      exact (arguments_occur env rest e he).within List.infix_append_right
        (List.subset_append_right _ _)

end

mutual

theorem Statement.occurs (env : Environment) (ifs whiles : Nat) (s : Statement) :
    ∀ e ∈ s.expressions, Occurs env (s.code env ifs whiles) s.uses e := by
  cases s with
  | «let» name value =>
    intro e he
    exact (value.occurs env e he).within List.infix_append_left (List.subset_cons_self _ _)
  | letElement name index value =>
    rw [Statement.expressions, List.forall_mem_append]
    constructor
    · intro e he
      apply (index.occurs env e he).within
      · rw [Statement.code]
        simp only [List.append_assoc]
        exact List.infix_append_left
      · exact List.subset_cons_of_subset _ (List.subset_append_left _ _)
    · intro e he
      exact (value.occurs env e he).within (List.infix_append _ _ _)
        (List.subset_cons_of_subset _ (List.subset_append_right _ _))
  | «if» condition body =>
    rw [Statement.expressions, List.forall_mem_append]
    constructor
    · intro e he
      apply (condition.occurs env e he).within
      · rw [Statement.code]
        simp only [List.append_assoc]
        exact List.infix_append_left
      · exact List.subset_append_left _ _
    · intro e he
      exact (statements_occur env (ifs + 1) whiles body e he).within (List.infix_append _ _ _)
        (List.subset_append_right _ _)
  | ifElse condition body otherwise =>
    rw [Statement.expressions, List.forall_mem_append, List.forall_mem_append]
    refine ⟨?_, ?_, ?_⟩
    · intro e he
      apply (condition.occurs env e he).within
      · rw [Statement.code]
        simp only [List.append_assoc]
        exact List.infix_append_left
      · exact List.subset_append_left _ _
    · intro e he
      apply (statements_occur env (ifs + 1) whiles body e he).within
      · rw [Statement.code, List.append_assoc, List.append_assoc]
        exact List.infix_append _ _ _
      · exact List.subset_append_of_subset_right _ (List.subset_append_left _ _)
    · intro e he
      apply (statements_occur env _ _ otherwise e he).within
      · exact List.infix_append _ _ _
      · exact List.subset_append_of_subset_right _ (List.subset_append_right _ _)
  | «while» condition body =>
    rw [Statement.expressions, List.forall_mem_append]
    constructor
    · intro e he
      apply (condition.occurs env e he).within
      · rw [Statement.code]
        simp only [List.append_assoc]
        exact List.infix_append' _ _ _
      · exact List.subset_append_left _ _
    · intro e he
      exact (statements_occur env ifs (whiles + 1) body e he).within (List.infix_append _ _ _)
        (List.subset_append_right _ _)
  | «do» callee arguments =>
    intro e he
    exact (arguments_occur env arguments e he).within
      (List.infix_append_of_infix_left (List.infix_append _ _ _)) (List.subset_cons_self _ _)
  | «return» value =>
    cases value with
    | none => exact List.forall_mem_nil _
    | some value =>
      intro e he
      exact (value.occurs env e he).within List.infix_append_left (List.Subset.refl _)

theorem statements_occur (env : Environment) (ifs whiles : Nat) (body : List Statement) :
    ∀ e ∈ statementExpressions body,
      Occurs env (statementCode env ifs whiles body) (statementUses body) e := by
  cases body with
  | nil => exact List.forall_mem_nil _
  | cons first rest =>
    rw [statementExpressions, List.forall_mem_append]
    constructor
    · intro e he
      exact (first.occurs env ifs whiles e he).within List.infix_append_left
        (List.subset_append_left _ _)
    · intro e he
      exact (statements_occur env _ _ rest e he).within List.infix_append_right
        (List.subset_append_right _ _)

end

theorem SubroutineDec.occurs {c : ClassDec} {d : SubroutineDec} (inside : d ∈ c.subroutines) :
    ∀ e ∈ d.expressions, Occurs (d.environment c) c.code (statementUses d.body) e := by
  intro e he
  apply (statements_occur (d.environment c) 0 0 d.body e he).within
  · have last : statementCode (d.environment c) 0 0 d.body <:+: d.code c :=
      List.infix_append_right
    apply last.trans
    rw [ClassDec.code, List.flatMap_def]
    exact List.infix_of_mem_flatten (List.mem_map_of_mem inside)
  · exact List.Subset.refl _

end JackVm

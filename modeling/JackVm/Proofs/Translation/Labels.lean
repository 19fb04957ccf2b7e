import JackVm.Proofs.Syntax.Placement
import JackVm.Proofs.Translation.Instructions
import Mathlib.Data.List.Nodup
import Std.Data.String.ToNat

/-!
# Labels and jumps

The labels of translated code are those of its conditionals and loops, each of which has its own.
Since a label's text tells what it is for and for which number, no two of a subroutine's labels are
the same, and to each of them there is one jump.
-/

namespace JackVm

def Instruction.label? : Instruction → Option String
  | .label name => some name
  | _ => none

/-- The label that an instruction jumps to. -/
def Instruction.target? : Instruction → Option String
  | .goto name | .ifGoto name => some name
  | _ => none

/-- The labels of some code, in order. -/
def labels (code : List Instruction) : List String :=
  code.filterMap Instruction.label?

/-- The labels that some code jumps to, one for each jump, in order. -/
def jumps (code : List Instruction) : List String :=
  code.filterMap Instruction.target?

/-- The labels of a statement itself, without those of the statements inside. -/
def Placement.labels (p : Placement) : List String :=
  match p.statement with
  | .if _ _ => [Compilation.ifTrueLabel p.ifNumber, Compilation.ifFalseLabel p.ifNumber]
  | .ifElse _ _ _ => [Compilation.ifTrueLabel p.ifNumber, Compilation.ifFalseLabel p.ifNumber,
      Compilation.ifEndLabel p.ifNumber]
  | .while _ _ => [Compilation.whileStartLabel p.whileNumber,
      Compilation.whileEndLabel p.whileNumber]
  | _ => []

section
variable {i : Instruction} {a b : List Instruction}

@[simp] theorem labels_nil : labels [] = [] := rfl

@[simp] theorem labels_cons : labels (i :: a) = i.label?.toList ++ labels a := by
  rw [labels, List.filterMap_cons]
  cases i.label? <;> rfl

@[simp] theorem labels_append : labels (a ++ b) = labels a ++ labels b :=
  List.filterMap_append

@[simp] theorem jumps_nil : jumps [] = [] := rfl

@[simp] theorem jumps_cons : jumps (i :: a) = i.target?.toList ++ jumps a := by
  rw [jumps, List.filterMap_cons]
  cases i.target? <;> rfl

@[simp] theorem jumps_append : jumps (a ++ b) = jumps a ++ jumps b :=
  List.filterMap_append

end

/-! ## Code without labels -/

section
variable {env : Environment} {uses : List Use} {i : Instruction} {code : List Instruction}

theorem ExpressionInstruction.runs_on (h : ExpressionInstruction env uses i) :
    i.label? = none ∧ i.target? = none := by
  cases h with
  | library listed =>
    simp only [libraryCalls, List.mem_cons, List.not_mem_nil, or_false] at listed
    obtain rfl | rfl | rfl | rfl := listed <;> exact ⟨rfl, rfl⟩
  | _ => exact ⟨rfl, rfl⟩

theorem OfExpressions.labels_eq (h : OfExpressions env uses code) : labels code = [] :=
  List.filterMap_eq_nil_iff.mpr fun i hi => (h i hi).runs_on.1

theorem OfExpressions.jumps_eq (h : OfExpressions env uses code) : jumps code = [] :=
  List.filterMap_eq_nil_iff.mpr fun i hi => (h i hi).runs_on.2

end

section
variable (env : Environment)

@[simp] theorem Expression.labels_code (e : Expression) : labels (e.code env) = [] :=
  (e.code_is env).labels_eq

@[simp] theorem Expression.jumps_code (e : Expression) : jumps (e.code env) = [] :=
  (e.code_is env).jumps_eq

@[simp] theorem Environment.labels_load (name : String) : labels (env.load name) = [] :=
  (env.code_load [] name).labels_eq

@[simp] theorem Environment.jumps_load (name : String) : jumps (env.load name) = [] :=
  (env.code_load [] name).jumps_eq

@[simp] theorem Environment.labels_store (name : String) : labels (env.store name) = [] := by
  rw [store]
  cases env.find? name <;> rfl

@[simp] theorem Environment.jumps_store (name : String) : jumps (env.store name) = [] := by
  rw [store]
  cases env.find? name <;> rfl

@[simp] theorem Environment.labels_call (callee : Callee) (arguments : List Expression) :
    labels (env.callCode callee arguments.length (argumentCode env arguments)) = [] :=
  ((Term.call callee arguments).code_is env).labels_eq

@[simp] theorem Environment.jumps_call (callee : Callee) (arguments : List Expression) :
    jumps (env.callCode callee arguments.length (argumentCode env arguments)) = [] :=
  ((Term.call callee arguments).code_is env).jumps_eq

end

/-! ## The labels of statements -/

section
variable (front : List Lexeme) (condition : Expression)

@[simp] theorem count_if_bodyFront (k : Keyword) :
    (bodyFront k condition).count (.keyword .if) = if k = .if then 1 else 0 := by
  simp [bodyFront, inParens, List.count_cons]

@[simp] theorem count_while_bodyFront (k : Keyword) :
    (bodyFront k condition).count (.keyword .while) = if k = .while then 1 else 0 := by
  simp [bodyFront, inParens, List.count_cons]

@[simp] theorem count_if_elseFront : elseFront.count (.keyword .if) = 0 := rfl

@[simp] theorem count_while_elseFront : elseFront.count (.keyword .while) = 0 := rfl

end

/-- Whether the labels of some code are those of some statements and there is a jump to each. -/
def Labelled (ps : List Placement) (code : List Instruction) : Prop :=
  ∀ name, (labels code).count name = (ps.flatMap Placement.labels).count name ∧
    (jumps code).count name = (labels code).count name

mutual

theorem Statement.count_words (s : Statement) :
    s.lexemes.count (.keyword .if) = s.ifCount ∧
      s.lexemes.count (.keyword .while) = s.whileCount := by
  cases s with
  | «let» | letElement => simp [Statement.lexemes, Statement.ifCount, Statement.whileCount]
  | «do» callee arguments =>
    cases callee <;> simp [Statement.lexemes, Statement.ifCount, Statement.whileCount,
      Callee.lexemes, Callee.tail, inParens]
  | «return» value =>
    cases value <;> simp [Statement.lexemes, Statement.ifCount, Statement.whileCount]
  | «if» condition body =>
    have inside := statements_count_words body
    simp [Statement.lexemes, Statement.ifCount, Statement.whileCount, inParens, inBraces,
      inside, Nat.add_comm]
  | ifElse condition body otherwise =>
    have inside := statements_count_words body
    have other := statements_count_words otherwise
    simp [Statement.lexemes, Statement.ifCount, Statement.whileCount, inParens, inBraces,
      inside, other]
    omega
  | «while» condition body =>
    have inside := statements_count_words body
    simp [Statement.lexemes, Statement.ifCount, Statement.whileCount, inParens, inBraces,
      inside, Nat.add_comm]

theorem statements_count_words (body : List Statement) :
    (statementLexemes body).count (.keyword .if) = ifCount body ∧
      (statementLexemes body).count (.keyword .while) = whileCount body := by
  cases body with
  | nil => exact ⟨rfl, rfl⟩
  | cons first rest =>
    have here := first.count_words
    have further := statements_count_words rest
    simp [statementLexemes, ifCount, whileCount, here, further]

end

mutual

theorem Statement.labelled (env : Environment) (front : List Lexeme) (s : Statement) :
    Labelled (s.placements front)
      (s.code env (front.count (.keyword .if)) (front.count (.keyword .while))) := by
  intro name
  cases s with
  | «let» | letElement | «do» =>
    simp [Statement.code, Statement.placements, Placement.labels, Instruction.label?,
      Instruction.target?]
  | «return» value =>
    cases value <;>
      simp [Statement.code, Statement.placements, Placement.labels, Instruction.label?,
        Instruction.target?]
  | «if» condition body =>
    have inside := statements_labelled env (front ++ bodyFront .if condition) body name
    simp [Statement.code, Statement.placements, Placement.labels, Instruction.label?,
      Instruction.target?, Placement.ifNumber, List.count_cons] at inside ⊢
    omega
  | ifElse condition body otherwise =>
    have inside := statements_labelled env (front ++ bodyFront .if condition) body name
    have other := statements_labelled env
      (front ++ bodyFront .if condition ++ statementLexemes body ++ elseFront) otherwise name
    simp [Statement.code, Statement.placements, Placement.labels, Instruction.label?,
      Instruction.target?, Placement.ifNumber, List.count_cons, statements_count_words,
      Nat.add_assoc] at inside other ⊢
    omega
  | «while» condition body =>
    have inside := statements_labelled env (front ++ bodyFront .while condition) body name
    simp [Statement.code, Statement.placements, Placement.labels, Instruction.label?,
      Instruction.target?, Placement.whileNumber, List.count_cons] at inside ⊢
    omega

theorem statements_labelled (env : Environment) (front : List Lexeme) (body : List Statement) :
    Labelled (statementPlacements front body) (statementCode env (front.count (.keyword .if))
      (front.count (.keyword .while)) body) := by
  intro name
  cases body with
  | nil => exact ⟨rfl, rfl⟩
  | cons first rest =>
    have here := first.labelled env front name
    have further := statements_labelled env (front ++ first.lexemes) rest name
    simp only [List.count_append, first.count_words] at further
    simp [statementCode, statementPlacements, here, further]

end

/-! ## The code of each statement -/

/-- Whether the code of each of some statements is part of some code. -/
def Contains (env : Environment) (code : List Instruction) (ps : List Placement) : Prop :=
  ∀ p ∈ ps, p.statement.code env p.ifNumber p.whileNumber <:+: code

theorem Contains.mono {env : Environment} {a b : List Instruction} {ps : List Placement}
    (h : Contains env a ps) (sub : a <:+: b) : Contains env b ps :=
  fun p hp => (h p hp).trans sub

theorem Contains.append {env : Environment} {code : List Instruction} {ps qs : List Placement}
    (hp : Contains env code ps) (hq : Contains env code qs) : Contains env code (ps ++ qs) :=
  List.forall_mem_append.mpr ⟨hp, hq⟩

mutual

theorem Statement.contains (env : Environment) (front : List Lexeme) (s : Statement) :
    Contains env (s.code env (front.count (.keyword .if)) (front.count (.keyword .while)))
      (s.placements front) := by
  cases s with
  | «let» | letElement | «do» | «return» =>
    exact List.forall_mem_singleton.mpr List.infix_rfl
  | «if» condition body =>
    refine List.forall_mem_cons.mpr ⟨List.infix_rfl, ?_⟩
    have inside := statements_contain env (front ++ bodyFront .if condition) body
    simp only [List.count_append, count_if_bodyFront, count_while_bodyFront] at inside
    exact inside.mono (List.infix_append _ _ _)
  | ifElse condition body otherwise =>
    refine List.forall_mem_cons.mpr ⟨List.infix_rfl, ?_⟩
    have inside := statements_contain env (front ++ bodyFront .if condition) body
    have other := statements_contain env
      (front ++ bodyFront .if condition ++ statementLexemes body ++ elseFront) otherwise
    simp only [List.count_append, count_if_bodyFront, count_while_bodyFront, count_if_elseFront,
      count_while_elseFront, statements_count_words, Nat.add_zero] at inside other
    apply Contains.append
    · apply inside.mono
      rw [Statement.code, List.append_assoc, List.append_assoc]
      exact List.infix_append _ _ _
    · exact other.mono (List.infix_append _ _ _)
  | «while» condition body =>
    refine List.forall_mem_cons.mpr ⟨List.infix_rfl, ?_⟩
    have inside := statements_contain env (front ++ bodyFront .while condition) body
    simp only [List.count_append, count_if_bodyFront, count_while_bodyFront] at inside
    exact inside.mono (List.infix_append _ _ _)

theorem statements_contain (env : Environment) (front : List Lexeme) (body : List Statement) :
    Contains env (statementCode env (front.count (.keyword .if)) (front.count (.keyword .while))
      body) (statementPlacements front body) := by
  cases body with
  | nil => exact List.forall_mem_nil _
  | cons first rest =>
    have further := statements_contain env (front ++ first.lexemes) rest
    simp only [List.count_append, first.count_words] at further
    rw [statementCode, statementPlacements]
    apply Contains.append
    · exact (first.contains env front).mono List.infix_append_left
    · exact further.mono List.infix_append_right

end

/-! ## No label is defined twice -/

/-- What a label is for. -/
inductive LabelForm where
  | ifTrue | ifFalse | ifEnd | whileStart | whileEnd
  deriving DecidableEq, Repr

def LabelForm.label : LabelForm → Nat → String
  | .ifTrue => Compilation.ifTrueLabel
  | .ifFalse => Compilation.ifFalseLabel
  | .ifEnd => Compilation.ifEndLabel
  | .whileStart => Compilation.whileStartLabel
  | .whileEnd => Compilation.whileEndLabel

theorem LabelForm.number_of_label {f : LabelForm} {m n : Nat} (h : f.label m = f.label n) :
    m = n := by
  cases f <;> exact Nat.repr_injective ((String.append_right_inj _).mp h)

theorem LabelForm.label_injective {f g : LabelForm} {m n : Nat} (h : f.label m = g.label n) :
    f = g ∧ m = n := by
  have same : f = g := by
    have texts := congrArg String.toList h
    cases f <;> cases g <;>
      simp [label, Compilation.ifTrueLabel, Compilation.ifFalseLabel, Compilation.ifEndLabel,
        Compilation.whileStartLabel, Compilation.whileEndLabel] at texts ⊢
  subst same
  exact ⟨rfl, number_of_label h⟩

theorem Placement.form_of_mem_labels {p : Placement} {name : String} (h : name ∈ p.labels) :
    (p.statement.isIf ∧ ∃ f ∈ [LabelForm.ifTrue, .ifFalse, .ifEnd], f.label p.ifNumber = name) ∨
      (p.statement.isWhile ∧
        ∃ f ∈ [LabelForm.whileStart, .whileEnd], f.label p.whileNumber = name) := by
  obtain ⟨front, statement⟩ := p
  cases statement with
  | «if» | ifElse =>
    refine .inl ⟨rfl, ?_⟩
    simp only [labels, List.mem_cons, List.not_mem_nil, or_false] at h
    simp only [List.mem_cons, List.not_mem_nil, or_false, exists_eq_or_imp, exists_eq_left]
    tauto
  | «while» =>
    refine .inr ⟨rfl, ?_⟩
    simp only [labels, List.mem_cons, List.not_mem_nil, or_false] at h
    simp only [List.mem_cons, List.not_mem_nil, or_false, exists_eq_or_imp, exists_eq_left]
    tauto
  | _ => cases h

theorem Placement.nodup_labels (p : Placement) : p.labels.Nodup := by
  have distinct (number : Nat) (forms : List LabelForm) (h : forms.Nodup) :
      (forms.map fun f => f.label number).Nodup :=
    h.map fun _ _ same => (LabelForm.label_injective same).1
  obtain ⟨front, statement⟩ := p
  cases statement with
  | «if» => exact distinct _ [.ifTrue, .ifFalse] (by decide)
  | ifElse => exact distinct _ [.ifTrue, .ifFalse, .ifEnd] (by decide)
  | «while» => exact distinct _ [.whileStart, .whileEnd] (by decide)
  | _ => exact List.nodup_nil

/-- Statements that are numbered in order have no label in common. -/
theorem InOrder.nodup_labels {front text : List Lexeme} {ps : List Placement}
    (h : InOrder front text ps) : (ps.flatMap Placement.labels).Nodup := by
  have ifs : ps.Pairwise fun p q =>
      p.statement.isIf → q.statement.isIf → p.ifNumber < q.ifNumber := by
    have sorted : (List.range' (front.count (.keyword .if))
        (text.count (.keyword .if))).Pairwise (· < ·) := List.pairwise_lt_range'
    rwa [← h.ifs, List.pairwise_map, List.pairwise_filter] at sorted
  have whiles : ps.Pairwise fun p q =>
      p.statement.isWhile → q.statement.isWhile → p.whileNumber < q.whileNumber := by
    have sorted : (List.range' (front.count (.keyword .while))
        (text.count (.keyword .while))).Pairwise (· < ·) := List.pairwise_lt_range'
    rwa [← h.whiles, List.pairwise_map, List.pairwise_filter] at sorted
  rw [List.nodup_flatMap]
  refine ⟨fun p _ => p.nodup_labels, (ifs.and whiles).imp ?_⟩
  rintro p q ⟨ifs, whiles⟩ name hp hq
  obtain ⟨isP, f, listed, rfl⟩ | ⟨isP, f, listed, rfl⟩ := p.form_of_mem_labels hp <;>
    obtain ⟨isQ, g, listed', same⟩ | ⟨isQ, g, listed', same⟩ := q.form_of_mem_labels hq <;>
    obtain ⟨rfl, same⟩ := LabelForm.label_injective same
  · exact absurd (ifs isP isQ) (by omega)
  · exact absurd listed (by revert listed'; cases g <;> decide)
  · exact absurd listed (by revert listed'; cases g <;> decide)
  · exact absurd (whiles isP isQ) (by omega)

/-! ## The labels of a subroutine -/

namespace SubroutineDec

variable (d : SubroutineDec) (c : ClassDec)

theorem labels_prologue : labels (Compilation.SubroutineForm.prologue c.fieldCount d.form) = [] ∧
    jumps (Compilation.SubroutineForm.prologue c.fieldCount d.form) = [] := by
  cases d.form <;> exact ⟨rfl, rfl⟩

theorem code_eq_of_front :
    d.code c = [.function (c.name ++ "." ++ d.name) d.localCount] ++
      Compilation.SubroutineForm.prologue c.fieldCount d.form ++
      statementCode (d.environment c) (d.front.count (.keyword .if))
        (d.front.count (.keyword .while)) d.body := by
  rw [d.count_if_front, d.count_while_front]
  rfl

theorem labelled : Labelled d.placements (d.code c) := by
  intro name
  have inside := statements_labelled (d.environment c) d.front d.body name
  rw [d.code_eq_of_front]
  simpa [placements, d.labels_prologue c, Instruction.label?, Instruction.target?] using inside

theorem contains : Contains (d.environment c) (d.code c) d.placements := by
  rw [d.code_eq_of_front]
  exact (statements_contain (d.environment c) d.front d.body).mono List.infix_append_right

/-- The labels are those of the conditionals and the loops. -/
theorem perm_labels : (labels (d.code c)).Perm (d.placements.flatMap Placement.labels) :=
  List.perm_iff_count.mpr fun name => (d.labelled c name).1

theorem perm_jumps : (jumps (d.code c)).Perm (labels (d.code c)) :=
  List.perm_iff_count.mpr fun name => (d.labelled c name).2

theorem nodup_labels : (labels (d.code c)).Nodup :=
  (d.perm_labels c).nodup_iff.mpr d.inOrder.nodup_labels

end SubroutineDec

end JackVm

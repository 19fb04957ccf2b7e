import JackVm.Proofs.Syntax.Class

/-!
# Unambiguity

The text of a tree determines the tree. For the trees inside a class this holds in front of any
rest that cannot go on with them: no lexeme that selects from a name may follow a term, and no
operator an expression.
-/

namespace JackVm

/-- Whether a lexeme makes more of a name that is in front of it. -/
def Lexeme.selects : Lexeme → Bool
  | .mark .leftParen | .mark .leftBracket | .mark .dot => true
  | _ => false

/-- Whether a lexeme goes on with an expression that is in front of it. -/
def Lexeme.operates (l : Lexeme) : Bool :=
  l.selects || (BinaryOperator.ofKind? l.kind).isSome

/-- Whether there is a lexeme in front that does not go on with `p`. -/
def Stops (p : Lexeme → Bool) (rest : List Lexeme) : Prop :=
  ∃ l ∈ rest.head?, p l = false

section
variable {p : Lexeme → Bool} {l : Lexeme} {rest : List Lexeme}

@[simp] theorem stops_cons : Stops p (l :: rest) ↔ p l = false := by
  simp [Stops]

theorem Stops.selects (h : Stops Lexeme.operates rest) : Stops Lexeme.selects rest := by
  obtain ⟨l, first, none⟩ := h
  rw [Lexeme.operates, Bool.or_eq_false_iff] at none
  exact ⟨l, first, none.1⟩

theorem BinaryOperator.stops_mark (op : BinaryOperator) :
    Stops Lexeme.selects (.mark op.mark :: rest) := by
  cases op <;> simp [BinaryOperator.mark, Lexeme.selects]

theorem BinaryOperator.operates_mark (op : BinaryOperator) :
    (Lexeme.mark op.mark).operates = true := by
  cases op <;> rfl

theorem BinaryOperator.mark_injective {op op' : BinaryOperator} (h : op.mark = op'.mark) :
    op = op' := by
  revert h
  cases op <;> cases op' <;> decide

theorem operationLexemes_stop (operations : List (BinaryOperator × Term))
    (h : Stops Lexeme.operates rest) :
    Stops Lexeme.selects (operationLexemes operations ++ rest) := by
  cases operations with
  | nil => exact h.selects
  | cons operation operations => exact operation.1.stops_mark

end

/-- Whether the text of a tree determines it in front of rests that do not go on with `p`. -/
def Unambiguous {τ : Type} (lexemes : τ → List Lexeme) (p : Lexeme → Bool) (x : τ) : Prop :=
  ∀ (x' : τ) (r r' : List Lexeme), Stops p r → Stops p r' →
    lexemes x ++ r = lexemes x' ++ r' → x = x' ∧ r = r'

theorem UnaryOperator.mark_injective {op op' : UnaryOperator} (h : op.mark = op'.mark) :
    op = op' := by
  revert h
  cases op <;> cases op' <;> decide

theorem Constant.keyword_injective {k k' : Constant} (h : k.keyword = k'.keyword) : k = k' := by
  revert h
  cases k <;> cases k' <;> decide

theorem Term.lexemes_ne_mark (t : Term) {m : Mark} (ends : m = .rightParen ∨ m = .semicolon)
    (r r' : List Lexeme) : t.lexemes ++ r ≠ .mark m :: r' := by
  rcases ends with rfl | rfl <;> cases t with
  | unary op operand => cases op <;> simp [Term.lexemes, UnaryOperator.mark]
  | _ => simp [Term.lexemes, Callee.lexemes, inParens]

theorem Expression.lexemes_ne_mark (e : Expression) {m : Mark}
    (ends : m = .rightParen ∨ m = .semicolon) (r r' : List Lexeme) :
    e.lexemes ++ r ≠ .mark m :: r' := by
  obtain ⟨first, rest⟩ := e
  rw [Expression.lexemes, List.append_assoc]
  exact first.lexemes_ne_mark ends _ r'

theorem furtherLexemes_stop (arguments : List Expression) (rest : List Lexeme) :
    Stops Lexeme.operates (furtherLexemes arguments ++ .mark .rightParen :: rest) := by
  cases arguments <;> exact stops_cons.mpr rfl

mutual

theorem Expression.unambiguous : (e : Expression) →
    Unambiguous Expression.lexemes Lexeme.operates e
  | .mk first rest => by
    rintro ⟨first', rest'⟩ r r' hr hr' h
    simp only [Expression.lexemes, List.append_assoc] at h
    obtain ⟨rfl, behind⟩ := first.unambiguous first' _ _ (operationLexemes_stop rest hr)
      (operationLexemes_stop rest' hr') h
    obtain ⟨rfl, rfl⟩ := operationLexemes_unambiguous rest rest' _ _ hr hr' behind
    exact ⟨rfl, rfl⟩

theorem operationLexemes_unambiguous : (rest : List (BinaryOperator × Term)) →
    Unambiguous operationLexemes Lexeme.operates rest
  | [] => by
    intro rest' r r' hr hr' h
    cases rest' with
    | nil => exact ⟨rfl, h⟩
    | cons operation rest' =>
      subst h
      simp [operationLexemes, BinaryOperator.operates_mark] at hr
  | (op, operand) :: rest => by
    intro rest' r r' hr hr' h
    cases rest' with
    | nil =>
      subst h
      simp [operationLexemes, BinaryOperator.operates_mark] at hr'
    | cons operation rest' =>
      obtain ⟨op', operand'⟩ := operation
      simp only [operationLexemes, List.cons_append, List.append_assoc, List.cons.injEq,
        Lexeme.mark.injEq] at h
      obtain ⟨same, h⟩ := h
      obtain rfl := BinaryOperator.mark_injective same
      obtain ⟨rfl, behind⟩ := operand.unambiguous operand' _ _ (operationLexemes_stop rest hr)
        (operationLexemes_stop rest' hr') h
      obtain ⟨rfl, rfl⟩ := operationLexemes_unambiguous rest rest' _ _ hr hr' behind
      exact ⟨rfl, rfl⟩

theorem Term.unambiguous : (t : Term) → Unambiguous Term.lexemes Lexeme.selects t
  | .integer digits => by
    intro t' r r' hr hr' h
    cases t' <;> simp [Term.lexemes, Callee.lexemes, inParens] at h
    simpa using h
  | .string content => by
    intro t' r r' hr hr' h
    cases t' <;> simp [Term.lexemes, Callee.lexemes, inParens] at h
    simpa using h
  | .constant k => by
    intro t' r r' hr hr' h
    cases t' <;> simp [Term.lexemes, Callee.lexemes, inParens] at h
    exact ⟨congrArg _ (Constant.keyword_injective h.1), h.2⟩
  | .variable name => by
    intro t' r r' hr hr' h
    rcases t' with _ | _ | _ | _ | _ | ⟨⟨⟩ | ⟨⟩, _⟩ | _ | _ <;>
      simp [Term.lexemes, Callee.lexemes, Callee.head, Callee.tail, inParens] at h
    case «variable» => simpa using h
    all_goals
      obtain ⟨-, rfl⟩ := h
      simp [Lexeme.selects] at hr
  | .element name index => by
    intro t' r r' hr hr' h
    rcases t' with _ | _ | _ | _ | ⟨_, index'⟩ | ⟨⟨⟩ | ⟨⟩, _⟩ | _ | _ <;>
      simp [Term.lexemes, Callee.lexemes, Callee.head, Callee.tail, inParens] at h
    case «variable» =>
      obtain ⟨-, rfl⟩ := h
      simp [Lexeme.selects] at hr'
    case element =>
      obtain ⟨rfl, h⟩ := h
      obtain ⟨rfl, behind⟩ := index.unambiguous index' _ _ (stops_cons.mpr rfl)
        (stops_cons.mpr rfl) h
      exact ⟨rfl, List.tail_eq_of_cons_eq behind⟩
  | .call callee arguments => by
    intro t' r r' hr hr' h
    rcases callee with _ | _ <;>
      rcases t' with _ | _ | _ | _ | _ | ⟨⟨⟩ | ⟨⟩, arguments'⟩ | _ | _ <;>
      simp [Term.lexemes, Callee.lexemes, Callee.head, Callee.tail, inParens] at h
    case own.call.own =>
      obtain ⟨rfl, h⟩ := h
      obtain ⟨rfl, rfl⟩ := argumentLexemes_unambiguous arguments arguments' _ _ h
      exact ⟨rfl, rfl⟩
    case qualified.call.qualified =>
      obtain ⟨rfl, rfl, h⟩ := h
      obtain ⟨rfl, rfl⟩ := argumentLexemes_unambiguous arguments arguments' _ _ h
      exact ⟨rfl, rfl⟩
    all_goals
      obtain ⟨-, rfl⟩ := h
      simp [Lexeme.selects] at hr'
  | .group inner => by
    intro t' r r' hr hr' h
    rcases t' with _ | _ | _ | _ | _ | _ | inner' | ⟨⟨⟩, _⟩ <;>
      simp [Term.lexemes, Callee.lexemes, inParens, UnaryOperator.mark] at h
    obtain ⟨rfl, behind⟩ := inner.unambiguous inner' _ _ (stops_cons.mpr rfl)
      (stops_cons.mpr rfl) h
    exact ⟨rfl, List.tail_eq_of_cons_eq behind⟩
  | .unary op operand => by
    intro t' r r' hr hr' h
    rcases t' with _ | _ | _ | _ | _ | _ | _ | ⟨op', operand'⟩
    case unary =>
      simp only [Term.lexemes, List.cons_append, List.cons.injEq, Lexeme.mark.injEq] at h
      obtain ⟨same, h⟩ := h
      obtain rfl := UnaryOperator.mark_injective same
      obtain ⟨rfl, behind⟩ := operand.unambiguous operand' _ _ hr hr' h
      exact ⟨rfl, behind⟩
    all_goals
      cases op <;> simp [Term.lexemes, Callee.lexemes, inParens, UnaryOperator.mark] at h

theorem argumentLexemes_unambiguous : (arguments arguments' : List Expression) →
    (r r' : List Lexeme) →
    argumentLexemes arguments ++ .mark .rightParen :: r =
      argumentLexemes arguments' ++ .mark .rightParen :: r' →
    arguments = arguments' ∧ r = r'
  | [] => by
    intro arguments' r r' h
    cases arguments' with
    | nil => exact ⟨rfl, List.tail_eq_of_cons_eq h⟩
    | cons e rest =>
      simp only [argumentLexemes, List.append_assoc] at h
      exact absurd h.symm (e.lexemes_ne_mark (.inl rfl) _ _)
  | e :: rest => by
    intro arguments' r r' h
    cases arguments' with
    | nil =>
      simp only [argumentLexemes, List.append_assoc] at h
      exact absurd h (e.lexemes_ne_mark (.inl rfl) _ _)
    | cons e' rest' =>
      simp only [argumentLexemes, List.append_assoc] at h
      obtain ⟨rfl, behind⟩ := e.unambiguous e' _ _ (furtherLexemes_stop rest r)
        (furtherLexemes_stop rest' r') h
      obtain ⟨rfl, rfl⟩ := furtherLexemes_unambiguous rest rest' _ _ behind
      exact ⟨rfl, rfl⟩

theorem furtherLexemes_unambiguous : (rest rest' : List Expression) → (r r' : List Lexeme) →
    furtherLexemes rest ++ .mark .rightParen :: r =
      furtherLexemes rest' ++ .mark .rightParen :: r' →
    rest = rest' ∧ r = r'
  | [] => by
    intro rest' r r' h
    cases rest' with
    | nil => exact ⟨rfl, List.tail_eq_of_cons_eq h⟩
    | cons e rest => simp [furtherLexemes] at h
  | e :: rest => by
    intro rest' r r' h
    cases rest' with
    | nil => simp [furtherLexemes] at h
    | cons e' rest' =>
      simp only [furtherLexemes, List.cons_append, List.append_assoc, List.cons.injEq] at h
      obtain ⟨rfl, behind⟩ := e.unambiguous e' _ _ (furtherLexemes_stop rest r)
        (furtherLexemes_stop rest' r') h.2
      obtain ⟨rfl, rfl⟩ := furtherLexemes_unambiguous rest rest' _ _ behind
      exact ⟨rfl, rfl⟩

end

def Lexeme.isElse (l : Lexeme) : Bool :=
  l = .keyword .else

theorem Statement.lexemes_eq_cons (st : Statement) :
    ∃ k rest, st.lexemes = .keyword k :: rest ∧ k ≠ .else := by
  rcases st with _ | _ | _ | _ | _ | _ | ⟨_ | _⟩ <;>
    exact ⟨_, _, rfl, by decide⟩

theorem statementLexemes_stop (body : List Statement) (rest : List Lexeme) :
    Stops Lexeme.isElse (statementLexemes body ++ .mark .rightBrace :: rest) := by
  cases body with
  | nil => exact stops_cons.mpr rfl
  | cons first body =>
    obtain ⟨k, more, begins, other⟩ := first.lexemes_eq_cons
    rw [statementLexemes, begins]
    exact stops_cons.mpr (by simpa [Lexeme.isElse] using other)

theorem Statement.lexemes_ne_rightBrace (st : Statement) (r r' : List Lexeme) :
    st.lexemes ++ r ≠ .mark .rightBrace :: r' := by
  obtain ⟨k, more, begins, -⟩ := st.lexemes_eq_cons
  simp [begins]

theorem call_unambiguous {callee callee' : Callee} {arguments arguments' : List Expression}
    {r r' : List Lexeme}
    (h : callee.lexemes ++ (inParens (argumentLexemes arguments) ++ r) =
      callee'.lexemes ++ (inParens (argumentLexemes arguments') ++ r')) :
    callee = callee' ∧ arguments = arguments' ∧ r = r' := by
  rcases callee with _ | _ <;> rcases callee' with _ | _ <;>
    simp [Callee.lexemes, Callee.head, Callee.tail, inParens] at h
  case own.own =>
    obtain ⟨rfl, h⟩ := h
    obtain ⟨rfl, rfl⟩ := argumentLexemes_unambiguous _ _ _ _ h
    exact ⟨rfl, rfl, rfl⟩
  case qualified.qualified =>
    obtain ⟨rfl, rfl, h⟩ := h
    obtain ⟨rfl, rfl⟩ := argumentLexemes_unambiguous _ _ _ _ h
    exact ⟨rfl, rfl, rfl⟩

theorem Expression.unambiguous_mark {e e' : Expression} {m m' : Mark} {r r' : List Lexeme}
    (h : e.lexemes ++ .mark m :: r = e'.lexemes ++ .mark m' :: r')
    (ends : (Lexeme.mark m).operates = false := by rfl)
    (ends' : (Lexeme.mark m').operates = false := by rfl) :
    e = e' ∧ r = r' := by
  obtain ⟨rfl, behind⟩ := e.unambiguous e' _ _ (stops_cons.mpr ends) (stops_cons.mpr ends') h
  exact ⟨rfl, List.tail_eq_of_cons_eq behind⟩

mutual

theorem Statement.unambiguous : (st : Statement) →
    Unambiguous Statement.lexemes Lexeme.isElse st
  | .let name value => by
    intro st' r r' hr hr' h
    rcases st' with ⟨_, value'⟩ | _ | _ | _ | _ | _ | ⟨_ | _⟩ <;>
      simp [Statement.lexemes, inParens] at h
    obtain ⟨rfl, h⟩ := h
    obtain ⟨rfl, rfl⟩ := Expression.unambiguous_mark h
    exact ⟨rfl, rfl⟩
  | .letElement name index value => by
    intro st' r r' hr hr' h
    rcases st' with _ | ⟨_, index', value'⟩ | _ | _ | _ | _ | ⟨_ | _⟩ <;>
      simp [Statement.lexemes, inParens] at h
    obtain ⟨rfl, h⟩ := h
    obtain ⟨rfl, behind⟩ := Expression.unambiguous_mark h
    obtain ⟨rfl, rfl⟩ := Expression.unambiguous_mark (List.tail_eq_of_cons_eq behind)
    exact ⟨rfl, rfl⟩
  | .if condition body => by
    intro st' r r' hr hr' h
    rcases st' with _ | _ | ⟨condition', body'⟩ | ⟨condition', body', otherwise'⟩ | _ | _ |
      ⟨_ | _⟩ <;> simp [Statement.lexemes, inParens, inBraces] at h
    case «if» =>
      obtain ⟨rfl, behind⟩ := Expression.unambiguous_mark h
      obtain ⟨rfl, rfl⟩ := statementLexemes_unambiguous body body' _ _
        (List.tail_eq_of_cons_eq behind)
      exact ⟨rfl, rfl⟩
    case ifElse =>
      obtain ⟨rfl, behind⟩ := Expression.unambiguous_mark h
      obtain ⟨rfl, rfl⟩ := statementLexemes_unambiguous body body' _ _
        (List.tail_eq_of_cons_eq behind)
      simp [Lexeme.isElse] at hr
  | .ifElse condition body otherwise => by
    intro st' r r' hr hr' h
    rcases st' with _ | _ | ⟨condition', body'⟩ | ⟨condition', body', otherwise'⟩ | _ | _ |
      ⟨_ | _⟩ <;> simp [Statement.lexemes, inParens, inBraces] at h
    case «if» =>
      obtain ⟨rfl, behind⟩ := Expression.unambiguous_mark h
      obtain ⟨rfl, rfl⟩ := statementLexemes_unambiguous body body' _ _
        (List.tail_eq_of_cons_eq behind)
      simp [Lexeme.isElse] at hr'
    case ifElse =>
      obtain ⟨rfl, behind⟩ := Expression.unambiguous_mark h
      obtain ⟨rfl, further⟩ := statementLexemes_unambiguous body body' _ _
        (List.tail_eq_of_cons_eq behind)
      simp only [List.cons.injEq, true_and] at further
      obtain ⟨rfl, rfl⟩ := statementLexemes_unambiguous otherwise otherwise' _ _ further
      exact ⟨rfl, rfl⟩
  | .while condition body => by
    intro st' r r' hr hr' h
    rcases st' with _ | _ | _ | _ | ⟨condition', body'⟩ | _ | ⟨_ | _⟩ <;>
      simp [Statement.lexemes, inParens, inBraces] at h
    obtain ⟨rfl, behind⟩ := Expression.unambiguous_mark h
    obtain ⟨rfl, rfl⟩ := statementLexemes_unambiguous body body' _ _
      (List.tail_eq_of_cons_eq behind)
    exact ⟨rfl, rfl⟩
  | .do callee arguments => by
    intro st' r r' hr hr' h
    rcases st' with _ | _ | _ | _ | _ | ⟨callee', arguments'⟩ | ⟨_ | _⟩
    case «do» =>
      simp only [Statement.lexemes, List.cons_append, List.append_assoc, List.cons.injEq,
        true_and] at h
      obtain ⟨rfl, rfl, behind⟩ := call_unambiguous h
      exact ⟨rfl, List.tail_eq_of_cons_eq behind⟩
    all_goals simp [Statement.lexemes] at h
  | .return none => by
    intro st' r r' hr hr' h
    rcases st' with _ | _ | _ | _ | _ | _ | ⟨_ | value'⟩ <;> simp [Statement.lexemes] at h
    case none => simpa using h
    case some => exact absurd h.symm (value'.lexemes_ne_mark (.inr rfl) _ _)
  | .return (some value) => by
    intro st' r r' hr hr' h
    rcases st' with _ | _ | _ | _ | _ | _ | ⟨_ | value'⟩ <;> simp [Statement.lexemes] at h
    case none => exact absurd h (value.lexemes_ne_mark (.inr rfl) _ _)
    case some =>
      obtain ⟨rfl, rfl⟩ := Expression.unambiguous_mark h
      exact ⟨rfl, rfl⟩

theorem statementLexemes_unambiguous : (body body' : List Statement) → (r r' : List Lexeme) →
    statementLexemes body ++ .mark .rightBrace :: r =
      statementLexemes body' ++ .mark .rightBrace :: r' →
    body = body' ∧ r = r'
  | [] => by
    intro body' r r' h
    cases body' with
    | nil => exact ⟨rfl, List.tail_eq_of_cons_eq h⟩
    | cons first rest =>
      simp only [statementLexemes, List.append_assoc] at h
      exact absurd h.symm (first.lexemes_ne_rightBrace _ _)
  | first :: rest => by
    intro body' r r' h
    cases body' with
    | nil =>
      simp only [statementLexemes, List.append_assoc] at h
      exact absurd h (first.lexemes_ne_rightBrace _ _)
    | cons first' rest' =>
      simp only [statementLexemes, List.append_assoc] at h
      obtain ⟨rfl, behind⟩ := first.unambiguous first' _ _ (statementLexemes_stop rest r)
        (statementLexemes_stop rest' r') h
      obtain ⟨rfl, rfl⟩ := statementLexemes_unambiguous rest rest' _ _ behind
      exact ⟨rfl, rfl⟩

end

/-! ## Declarations and classes -/

/-- Trees in a row are determined if each is and if nothing behind begins like one of them. -/
theorem flatMap_unambiguous {τ : Type} {f : τ → List Lexeme} {p : Lexeme → Bool}
    (begins : ∀ x, ∃ l rest, f x = l :: rest ∧ p l)
    (each : ∀ x x' r r', f x ++ r = f x' ++ r' → x = x' ∧ r = r') :
    (xs : List τ) → Unambiguous (List.flatMap f) p xs
  | [], [], _, _, _, _, h => ⟨rfl, h⟩
  | [], x :: xs, _, _, hr, _, h => by
    obtain ⟨l, rest, first, holds⟩ := begins x
    subst h
    simp [first, holds] at hr
  | x :: xs, [], _, _, _, hr', h => by
    obtain ⟨l, rest, first, holds⟩ := begins x
    subst h
    simp [first, holds] at hr'
  | x :: xs, x' :: xs', r, r', hr, hr', h => by
    simp only [List.flatMap_cons, List.append_assoc] at h
    obtain ⟨rfl, behind⟩ := each _ _ _ _ h
    obtain ⟨rfl, rfl⟩ := flatMap_unambiguous begins each xs xs' r r' hr hr' behind
    exact ⟨rfl, rfl⟩

theorem TypeName.lexeme_injective {a b : TypeName} (h : a.lexeme = b.lexeme) : a = b := by
  cases a <;> cases b <;> simp_all [TypeName.lexeme]

theorem resultLexeme_injective {a b : Option TypeName} (h : resultLexeme a = resultLexeme b) :
    a = b := by
  cases a with
  | none =>
    cases b with
    | none => rfl
    | some b => cases b <;> simp [resultLexeme, TypeName.lexeme] at h
  | some a =>
    cases b with
    | none => cases a <;> simp [resultLexeme, TypeName.lexeme] at h
    | some b => rw [TypeName.lexeme_injective h]

theorem furtherNames_unambiguous (names : List String) :
    Unambiguous furtherNames (· = .mark .comma) names :=
  flatMap_unambiguous (fun _ => ⟨_, _, rfl, by decide⟩) (by simp) names

theorem VariableGroup.unambiguous {g g' : VariableGroup} {r r' : List Lexeme}
    (h : g.lexemes ++ r = g'.lexemes ++ r') : g = g' ∧ r = r' := by
  obtain ⟨type, first, rest⟩ := g
  obtain ⟨type', first', rest'⟩ := g'
  simp only [lexemes, List.cons_append, List.append_assoc, List.cons.injEq, Lexeme.identifier.injEq,
    List.nil_append] at h
  obtain ⟨same, rfl, h⟩ := h
  obtain rfl := TypeName.lexeme_injective same
  obtain ⟨rfl, behind⟩ := furtherNames_unambiguous rest rest' _ _ (stops_cons.mpr rfl)
    (stops_cons.mpr rfl) h
  exact ⟨rfl, List.tail_eq_of_cons_eq behind⟩

theorem Parameter.unambiguous {p p' : Parameter} {r r' : List Lexeme}
    (h : p.lexemes ++ r = p'.lexemes ++ r') : p = p' ∧ r = r' := by
  obtain ⟨type, name⟩ := p
  obtain ⟨type', name'⟩ := p'
  simp only [lexemes, List.cons_append, List.cons.injEq, Lexeme.identifier.injEq,
    List.nil_append] at h
  obtain ⟨same, rfl, rfl⟩ := h
  obtain rfl := TypeName.lexeme_injective same
  exact ⟨rfl, rfl⟩

theorem furtherParameters_unambiguous (ps : List Parameter) :
    Unambiguous (List.flatMap fun p : Parameter => .mark .comma :: p.lexemes)
      (· = .mark .comma) ps :=
  flatMap_unambiguous (fun _ => ⟨_, _, rfl, by decide⟩)
    (fun _ _ _ _ h => Parameter.unambiguous (List.tail_eq_of_cons_eq h)) ps

theorem parameterLexemes_unambiguous {ps ps' : List Parameter} {r r' : List Lexeme}
    (h : parameterLexemes ps ++ .mark .rightParen :: r =
      parameterLexemes ps' ++ .mark .rightParen :: r') : ps = ps' ∧ r = r' := by
  have ne (p : Parameter) (a b : List Lexeme) : p.lexemes ++ a ≠ .mark .rightParen :: b := by
    obtain ⟨type, name⟩ := p
    cases type <;> simp [Parameter.lexemes, TypeName.lexeme]
  cases ps with
  | nil =>
    cases ps' with
    | nil => exact ⟨rfl, List.tail_eq_of_cons_eq h⟩
    | cons p' ps' =>
      simp only [parameterLexemes, List.append_assoc] at h
      exact absurd h.symm (ne _ _ _)
  | cons p ps =>
    cases ps' with
    | nil =>
      simp only [parameterLexemes, List.append_assoc] at h
      exact absurd h (ne _ _ _)
    | cons p' ps' =>
      simp only [parameterLexemes, List.append_assoc] at h
      obtain ⟨rfl, behind⟩ := Parameter.unambiguous h
      obtain ⟨rfl, closed⟩ := furtherParameters_unambiguous ps ps' _ _ (stops_cons.mpr rfl)
        (stops_cons.mpr rfl) behind
      exact ⟨rfl, List.tail_eq_of_cons_eq closed⟩

theorem classVarDecs_unambiguous (decs : List ClassVarDec) :
    Unambiguous (List.flatMap ClassVarDec.lexemes)
      (fun l => (VariableKind.ofClassKeyword? l.kind).isSome) decs := by
  refine flatMap_unambiguous (fun d => ⟨_, _, rfl, by cases d.storage <;> rfl⟩) ?_ decs
  rintro ⟨storage, group⟩ ⟨storage', group'⟩ r r' h
  simp only [List.cons_append, List.cons.injEq, Lexeme.keyword.injEq] at h
  obtain ⟨same, h⟩ := h
  obtain ⟨rfl, rfl⟩ := VariableGroup.unambiguous h
  cases storage <;> cases storage' <;> simp_all [Storage.keyword]

theorem varDecs_unambiguous (groups : List VariableGroup) :
    Unambiguous (List.flatMap VariableGroup.varDec) (· = .keyword .var) groups :=
  flatMap_unambiguous (fun _ => ⟨_, _, rfl, by decide⟩)
    (fun _ _ _ _ h => VariableGroup.unambiguous (List.tail_eq_of_cons_eq h)) groups

theorem statementLexemes_stop_var (body : List Statement) (rest : List Lexeme) :
    Stops (· = .keyword .var) (statementLexemes body ++ .mark .rightBrace :: rest) := by
  rcases body with _ | ⟨_ | _ | _ | _ | _ | _ | ⟨_ | _⟩, _⟩ <;> exact stops_cons.mpr rfl

theorem SubroutineDec.unambiguous {d d' : SubroutineDec} {r r' : List Lexeme}
    (h : d.lexemes ++ r = d'.lexemes ++ r') : d = d' ∧ r = r' := by
  obtain ⟨form, result, name, parameters, groups, body⟩ := d
  obtain ⟨form', result', name', parameters', groups', body'⟩ := d'
  simp only [lexemes, bodyLexemes, inParens, inBraces, List.cons_append, List.append_assoc,
    List.cons.injEq, Lexeme.keyword.injEq, Lexeme.identifier.injEq, List.nil_append,
    true_and] at h
  obtain ⟨sameForm, sameResult, rfl, h⟩ := h
  obtain rfl : form = form' := by
    revert sameForm
    cases form <;> cases form' <;> decide
  obtain rfl := resultLexeme_injective sameResult
  obtain ⟨rfl, inside⟩ := parameterLexemes_unambiguous h
  obtain ⟨rfl, behind⟩ := varDecs_unambiguous groups groups' _ _
    (statementLexemes_stop_var body r) (statementLexemes_stop_var body' r')
    (List.tail_eq_of_cons_eq inside)
  obtain ⟨rfl, rfl⟩ := statementLexemes_unambiguous body body' _ _ behind
  exact ⟨rfl, rfl⟩

theorem subroutines_unambiguous (ds : List SubroutineDec) :
    Unambiguous (List.flatMap SubroutineDec.lexemes)
      (fun l => (SubroutineForm.ofKind? l.kind).isSome) ds :=
  flatMap_unambiguous (fun d => ⟨_, _, rfl, by cases d.form <;> rfl⟩)
    (fun _ _ _ _ => SubroutineDec.unambiguous) ds

theorem subroutines_stop (ds : List SubroutineDec) (rest : List Lexeme) :
    Stops (fun l => (VariableKind.ofClassKeyword? l.kind).isSome)
      (ds.flatMap SubroutineDec.lexemes ++ .mark .rightBrace :: rest) := by
  rcases ds with _ | ⟨⟨⟨⟩, _⟩, _⟩ <;> exact stops_cons.mpr rfl

/-- A text is that of at most one class. -/
theorem ClassDec.lexemes_injective {c c' : ClassDec} (h : c.lexemes = c'.lexemes) : c = c' := by
  obtain ⟨name, decs, ds⟩ := c
  obtain ⟨name', decs', ds'⟩ := c'
  simp only [lexemes, inBraces, List.append_assoc, List.cons.injEq, Lexeme.identifier.injEq,
    true_and] at h
  obtain ⟨rfl, h⟩ := h
  obtain ⟨rfl, behind⟩ := classVarDecs_unambiguous decs decs' _ _ (subroutines_stop ds [])
    (subroutines_stop ds' []) h
  obtain ⟨rfl, -⟩ := subroutines_unambiguous ds ds' _ _ (stops_cons.mpr rfl)
    (stops_cons.mpr rfl) behind
  rfl

end JackVm

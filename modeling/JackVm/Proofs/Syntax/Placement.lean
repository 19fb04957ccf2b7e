import JackVm.Proofs.Syntax.Class

/-!
# Statements in their places

All the statements of a subroutine, however deep, in the order of their first tokens, each with the
text that stands in front of it. Every conditional begins with the word `if` and every loop with the
word `while`, and these words stand nowhere else, so the text in front of a statement tells how many
conditionals and loops have begun before it.
-/

namespace JackVm

/-- A statement with the text in front of it. -/
structure Placement where
  front : List Lexeme
  statement : Statement

/-- The number of conditionals that begin before a place. -/
def Placement.ifNumber (p : Placement) : Nat :=
  p.front.count (.keyword .if)

/-- The number of loops that begin before a place. -/
def Placement.whileNumber (p : Placement) : Nat :=
  p.front.count (.keyword .while)

def Statement.isIf : Statement → Bool
  | .if _ _ | .ifElse _ _ _ => true
  | _ => false

def Statement.isWhile : Statement → Bool
  | .while _ _ => true
  | _ => false

def bodyFront (keyword : Keyword) (condition : Expression) : List Lexeme :=
  .keyword keyword :: (inParens condition.lexemes ++ [.mark .leftBrace])

def elseFront : List Lexeme :=
  [.mark .rightBrace, .keyword .else, .mark .leftBrace]

mutual

/-- The statements in a statement, itself first, given the text in front of it. -/
def Statement.placements (front : List Lexeme) : Statement → List Placement
  | .if condition body =>
    ⟨front, .if condition body⟩ :: statementPlacements (front ++ bodyFront .if condition) body
  | .ifElse condition body otherwise =>
    ⟨front, .ifElse condition body otherwise⟩ ::
      (statementPlacements (front ++ bodyFront .if condition) body ++
        statementPlacements (front ++ bodyFront .if condition ++ statementLexemes body ++ elseFront)
          otherwise)
  | .while condition body =>
    ⟨front, .while condition body⟩ :: statementPlacements (front ++ bodyFront .while condition) body
  | .let name value => [⟨front, .let name value⟩]
  | .letElement name index value => [⟨front, .letElement name index value⟩]
  | .do callee arguments => [⟨front, .do callee arguments⟩]
  | .return value => [⟨front, .return value⟩]

def statementPlacements (front : List Lexeme) : List Statement → List Placement
  | [] => []
  | first :: rest =>
    first.placements front ++ statementPlacements (front ++ first.lexemes) rest

end

/-- The text of a subroutine in front of its statements. -/
def SubroutineDec.front (d : SubroutineDec) : List Lexeme :=
  .keyword d.form.keyword :: resultLexeme d.result :: .identifier d.name ::
    (inParens (parameterLexemes d.parameters) ++
      .mark .leftBrace :: d.varDecs.flatMap VariableGroup.varDec)

/-- The statements in a subroutine with the text of the subroutine in front of them. -/
def SubroutineDec.placements (d : SubroutineDec) : List Placement :=
  statementPlacements d.front d.body

theorem SubroutineDec.lexemes_eq_front (d : SubroutineDec) :
    d.lexemes = d.front ++ statementLexemes d.body ++ [.mark .rightBrace] := by
  simp [lexemes, bodyLexemes, front, inBraces]

/-! ## Statements stand where they are placed -/

/-- Whether statements stand in a text behind what is in front of them. -/
def Stands (text : List Lexeme) (ps : List Placement) : Prop :=
  ∀ p ∈ ps, p.front ++ p.statement.lexemes <+: text

theorem Stands.mono {text more : List Lexeme} {ps : List Placement} (h : Stands text ps)
    (sub : text <+: more) : Stands more ps :=
  fun p hp => (h p hp).trans sub

theorem Stands.append {text : List Lexeme} {ps qs : List Placement} (hp : Stands text ps)
    (hq : Stands text qs) : Stands text (ps ++ qs) :=
  List.forall_mem_append.mpr ⟨hp, hq⟩

theorem Stands.cons {front : List Lexeme} {s : Statement} {ps : List Placement}
    (h : Stands (front ++ s.lexemes) ps) : Stands (front ++ s.lexemes) (⟨front, s⟩ :: ps) :=
  List.forall_mem_cons.mpr ⟨List.prefix_rfl, h⟩

mutual

theorem Statement.stands (front : List Lexeme) (s : Statement) :
    Stands (front ++ s.lexemes) (s.placements front) := by
  cases s with
  | «let» | letElement | «do» | «return» => exact .cons (List.forall_mem_nil _)
  | «if» condition body =>
    apply Stands.cons
    apply (statements_stand (front ++ bodyFront .if condition) body).mono
    rw [Statement.lexemes]
    simp [bodyFront, inBraces, inParens]
  | ifElse condition body otherwise =>
    apply Stands.cons
    apply Stands.append
    · apply (statements_stand (front ++ bodyFront .if condition) body).mono
      rw [Statement.lexemes]
      simp [bodyFront, inBraces, inParens]
    · apply (statements_stand (front ++ bodyFront .if condition ++ statementLexemes body ++
        elseFront) otherwise).mono
      rw [Statement.lexemes]
      simp [bodyFront, elseFront, inBraces, inParens]
  | «while» condition body =>
    apply Stands.cons
    apply (statements_stand (front ++ bodyFront .while condition) body).mono
    rw [Statement.lexemes]
    simp [bodyFront, inBraces, inParens]

theorem statements_stand (front : List Lexeme) (body : List Statement) :
    Stands (front ++ statementLexemes body) (statementPlacements front body) := by
  cases body with
  | nil => exact List.forall_mem_nil _
  | cons first rest =>
    rw [statementLexemes, ← List.append_assoc]
    apply Stands.append
    · exact (first.stands front).mono (List.prefix_append _ _)
    · exact statements_stand (front ++ first.lexemes) rest

end

theorem SubroutineDec.stands (d : SubroutineDec) : Stands d.lexemes d.placements := by
  rw [d.lexemes_eq_front]
  exact (statements_stand d.front d.body).mono (List.prefix_append _ _)

/-! ## Conditionals and loops are numbered in order -/

mutual

theorem Expression.count_keyword {k : Keyword} (other : ∀ c : Constant, c.keyword ≠ k)
    (e : Expression) : e.lexemes.count (.keyword k) = 0 := by
  cases e with
  | mk first rest =>
    rw [Expression.lexemes, List.count_append, first.count_keyword other,
      operationLexemes_count_keyword other rest]

theorem operationLexemes_count_keyword {k : Keyword} (other : ∀ c : Constant, c.keyword ≠ k)
    (rest : List (BinaryOperator × Term)) : (operationLexemes rest).count (.keyword k) = 0 := by
  cases rest with
  | nil => rfl
  | cons first rest =>
    obtain ⟨op, operand⟩ := first
    simp [operationLexemes, operand.count_keyword other, operationLexemes_count_keyword other rest]

theorem Term.count_keyword {k : Keyword} (other : ∀ c : Constant, c.keyword ≠ k) (t : Term) :
    t.lexemes.count (.keyword k) = 0 := by
  cases t with
  | integer | string | «variable» => simp [Term.lexemes]
  | constant c => simpa [Term.lexemes, List.count_cons] using other c
  | element name index => simp [Term.lexemes, index.count_keyword other]
  | call callee arguments =>
    cases callee <;>
      simp [Term.lexemes, Callee.lexemes, Callee.tail, inParens,
        argumentLexemes_count_keyword other arguments]
  | group inner => simp [Term.lexemes, inParens, inner.count_keyword other]
  | unary op operand => simp [Term.lexemes, operand.count_keyword other]

theorem argumentLexemes_count_keyword {k : Keyword} (other : ∀ c : Constant, c.keyword ≠ k)
    (arguments : List Expression) : (argumentLexemes arguments).count (.keyword k) = 0 := by
  cases arguments with
  | nil => rfl
  | cons e rest =>
    rw [argumentLexemes, List.count_append, e.count_keyword other,
      furtherLexemes_count_keyword other rest]

theorem furtherLexemes_count_keyword {k : Keyword} (other : ∀ c : Constant, c.keyword ≠ k)
    (rest : List Expression) : (furtherLexemes rest).count (.keyword k) = 0 := by
  cases rest with
  | nil => rfl
  | cons e rest =>
    simp [furtherLexemes, e.count_keyword other, furtherLexemes_count_keyword other rest]

end

theorem Constant.keyword_ne_if (c : Constant) : c.keyword ≠ .if := by
  cases c <;> decide

theorem Constant.keyword_ne_while (c : Constant) : c.keyword ≠ .while := by
  cases c <;> decide

@[simp] theorem Expression.count_if (e : Expression) : e.lexemes.count (.keyword .if) = 0 :=
  e.count_keyword Constant.keyword_ne_if

@[simp] theorem Expression.count_while (e : Expression) : e.lexemes.count (.keyword .while) = 0 :=
  e.count_keyword Constant.keyword_ne_while

@[simp] theorem argumentLexemes_count_if (arguments : List Expression) :
    (argumentLexemes arguments).count (.keyword .if) = 0 :=
  argumentLexemes_count_keyword Constant.keyword_ne_if arguments

@[simp] theorem argumentLexemes_count_while (arguments : List Expression) :
    (argumentLexemes arguments).count (.keyword .while) = 0 :=
  argumentLexemes_count_keyword Constant.keyword_ne_while arguments

/-- Whether statements number the conditionals and the loops of a text in order, given what stands
in front of the text. -/
structure InOrder (front text : List Lexeme) (ps : List Placement) : Prop where
  ifs : (ps.filter (·.statement.isIf)).map Placement.ifNumber =
    List.range' (front.count (.keyword .if)) (text.count (.keyword .if))
  whiles : (ps.filter (·.statement.isWhile)).map Placement.whileNumber =
    List.range' (front.count (.keyword .while)) (text.count (.keyword .while))

namespace InOrder

variable {front a b : List Lexeme} {ps qs : List Placement}

theorem append (ha : InOrder front a ps) (hb : InOrder (front ++ a) b qs) :
    InOrder front (a ++ b) (ps ++ qs) where
  ifs := by
    rw [List.filter_append, List.map_append, ha.ifs, hb.ifs, List.count_append, List.count_append,
      List.range'_append_1]
  whiles := by
    rw [List.filter_append, List.map_append, ha.whiles, hb.whiles, List.count_append,
      List.count_append, List.range'_append_1]

theorem plain (front : List Lexeme) (ifs : a.count (.keyword .if) = 0)
    (whiles : a.count (.keyword .while) = 0) : InOrder front a [] :=
  ⟨by rw [ifs]; rfl, by rw [whiles]; rfl⟩

theorem word (front : List Lexeme) {s : Statement} {k : Keyword}
    (ifs : s.isIf = decide (k = .if)) (whiles : s.isWhile = decide (k = .while)) :
    InOrder front [.keyword k] [⟨front, s⟩] := by
  constructor
  · by_cases h : k = .if <;> simp [ifs, h, Placement.ifNumber]
  · by_cases h : k = .while <;> simp [whiles, h, Placement.whileNumber]

theorem simple (front : List Lexeme) {s : Statement} {k : Keyword} {rest : List Lexeme}
    (ifs : s.isIf = decide (k = .if)) (whiles : s.isWhile = decide (k = .while))
    (noIf : rest.count (.keyword .if) = 0) (noWhile : rest.count (.keyword .while) = 0) :
    InOrder front (.keyword k :: rest) [⟨front, s⟩] :=
  (word front ifs whiles).append (plain _ noIf noWhile)

theorem opening (front : List Lexeme) {s : Statement} {k : Keyword} (condition : Expression)
    (ifs : s.isIf = decide (k = .if)) (whiles : s.isWhile = decide (k = .while)) :
    InOrder front (bodyFront k condition) [⟨front, s⟩] :=
  simple front ifs whiles (by simp [inParens]) (by simp [inParens])

end InOrder

mutual

theorem Statement.inOrder (front : List Lexeme) (s : Statement) :
    InOrder front s.lexemes (s.placements front) := by
  cases s with
  | «let» name value =>
    exact .simple front rfl rfl (by simp) (by simp)
  | letElement name index value =>
    exact .simple front rfl rfl (by simp) (by simp)
  | «if» condition body =>
    have opened : InOrder front (bodyFront .if condition) [⟨front, .if condition body⟩] :=
      .opening front condition rfl rfl
    have inside := opened.append (statements_inOrder (front ++ bodyFront .if condition) body)
    have whole := inside.append (.plain _ (a := [.mark .rightBrace]) rfl rfl)
    simpa [Statement.lexemes, Statement.placements, bodyFront, inBraces, inParens] using whole
  | ifElse condition body otherwise =>
    have opened : InOrder front (bodyFront .if condition)
        [⟨front, .ifElse condition body otherwise⟩] :=
      .opening front condition rfl rfl
    have inside := opened.append (statements_inOrder (front ++ bodyFront .if condition) body)
    have between := inside.append (.plain _ (a := elseFront) rfl rfl)
    have other := between.append (statements_inOrder _ otherwise)
    have whole := other.append (.plain _ (a := [.mark .rightBrace]) rfl rfl)
    simpa [Statement.lexemes, Statement.placements, bodyFront, elseFront, inBraces, inParens]
      using whole
  | «while» condition body =>
    have opened : InOrder front (bodyFront .while condition) [⟨front, .while condition body⟩] :=
      .opening front condition rfl rfl
    have inside := opened.append (statements_inOrder (front ++ bodyFront .while condition) body)
    have whole := inside.append (.plain _ (a := [.mark .rightBrace]) rfl rfl)
    simpa [Statement.lexemes, Statement.placements, bodyFront, inBraces, inParens] using whole
  | «do» callee arguments =>
    cases callee <;>
      exact .simple front rfl rfl (by simp [Callee.lexemes, Callee.tail, inParens])
        (by simp [Callee.lexemes, Callee.tail, inParens])
  | «return» value =>
    cases value with
    | none => exact .simple front rfl rfl rfl rfl
    | some value => exact .simple front rfl rfl (by simp) (by simp)

theorem statements_inOrder (front : List Lexeme) (body : List Statement) :
    InOrder front (statementLexemes body) (statementPlacements front body) := by
  cases body with
  | nil => exact .plain front rfl rfl
  | cons first rest =>
    exact (first.inOrder front).append (statements_inOrder (front ++ first.lexemes) rest)

end

/-- The words that can stand in declarations. -/
def declarationWords : List Keyword :=
  [.constructor, .function, .method, .void, .int, .char, .boolean, .var]

theorem TypeName.mem_declarationWords {type : TypeName} {k : Keyword}
    (h : type.lexeme = .keyword k) : k ∈ declarationWords := by
  cases type <;> cases h <;> decide

theorem parameterLexemes_words {ps : List Parameter} {k : Keyword}
    (h : .keyword k ∈ parameterLexemes ps) : k ∈ declarationWords := by
  cases ps with
  | nil => cases h
  | cons p rest =>
    simp only [parameterLexemes, Parameter.lexemes, List.mem_append, List.mem_cons,
      List.mem_flatMap, List.not_mem_nil, reduceCtorEq, or_false, false_or] at h
    obtain h | ⟨q, -, h⟩ := h
    · exact TypeName.mem_declarationWords h.symm
    · exact TypeName.mem_declarationWords h.symm

theorem VariableGroup.words {g : VariableGroup} {k : Keyword} (h : .keyword k ∈ g.varDec) :
    k ∈ declarationWords := by
  simp only [varDec, lexemes, furtherNames, List.mem_cons, List.mem_append, List.mem_flatMap,
    Lexeme.keyword.injEq, List.not_mem_nil, reduceCtorEq, or_false, and_false,
    exists_false] at h
  obtain rfl | h := h
  · decide
  · exact TypeName.mem_declarationWords h.symm

theorem SubroutineDec.words {d : SubroutineDec} {k : Keyword} (h : .keyword k ∈ d.front) :
    k ∈ declarationWords := by
  simp only [front, inParens, List.mem_cons, List.mem_append, List.mem_flatMap,
    Lexeme.keyword.injEq, List.not_mem_nil, reduceCtorEq, or_false, false_or] at h
  obtain rfl | h | h | ⟨g, -, h⟩ := h
  · cases d.form <;> decide
  · cases result : d.result with
    | none =>
      rw [result] at h
      cases h
      decide
    | some type =>
      rw [result] at h
      exact TypeName.mem_declarationWords h.symm
  · exact parameterLexemes_words h
  · exact VariableGroup.words h

theorem SubroutineDec.count_if_front (d : SubroutineDec) : d.front.count (.keyword .if) = 0 :=
  List.count_eq_zero.mpr fun h => absurd (SubroutineDec.words h) (by decide)

theorem SubroutineDec.count_while_front (d : SubroutineDec) :
    d.front.count (.keyword .while) = 0 :=
  List.count_eq_zero.mpr fun h => absurd (SubroutineDec.words h) (by decide)

/-- The conditionals of a subroutine are numbered from zero in the order of their first tokens, and
so are its loops. -/
theorem SubroutineDec.inOrder (d : SubroutineDec) : InOrder [] d.lexemes d.placements := by
  have declared : InOrder [] d.front [] := .plain [] d.count_if_front d.count_while_front
  have inside := declared.append (statements_inOrder d.front d.body)
  have whole := inside.append (.plain _ (a := [.mark .rightBrace]) rfl rfl)
  rw [d.lexemes_eq_front]
  simpa [placements] using whole

end JackVm

import JackVm.Proofs.Syntax.Terminals
import Mathlib.Computability.Language

/-!
# Sentences

The texts of trees as languages of token kinds. Each is put together from those of its parts in the
way in which it is read, so what may follow the beginning of a text can be read off.
-/

namespace JackVm

open scoped Computability

def textsOf {τ : Type} (lexemes : τ → List Lexeme) : Language TokenKind :=
  {w | ∃ x, (lexemes x).map Lexeme.kind = w}

def oneOf (kinds : List TokenKind) : Language TokenKind :=
  {w | ∃ k ∈ kinds, [k] = w}

abbrev token (kind : TokenKind) : Language TokenKind :=
  oneOf [kind]

def Possible (L : Language TokenKind) : Prop :=
  ∃ w, w ∈ L

/-- Whether the texts of a language begin with certain kinds only. -/
def StartsIn (kinds : List TokenKind) (L : Language TokenKind) : Prop :=
  ∀ k w, k :: w ∈ L → k ∈ kinds

section
variable {τ : Type} {lexemes : τ → List Lexeme} {L : Language TokenKind} {k : TokenKind}
  {kinds w : List TokenKind}

theorem mem_textsOf : w ∈ textsOf lexemes ↔ ∃ x, (lexemes x).map Lexeme.kind = w := Iff.rfl

theorem mem_oneOf : w ∈ oneOf kinds ↔ ∃ k ∈ kinds, [k] = w := Iff.rfl

theorem mem_textsOf_mul :
    w ∈ textsOf lexemes * L ↔ ∃ x, ∃ v ∈ L, (lexemes x).map Lexeme.kind ++ v = w := by
  simp [Language.mem_mul, mem_textsOf]

theorem mem_oneOf_mul : w ∈ oneOf kinds * L ↔ ∃ k ∈ kinds, ∃ v ∈ L, k :: v = w := by
  simp [Language.mem_mul, mem_oneOf]

@[simp] theorem cons_mem_oneOf_mul : k :: w ∈ oneOf kinds * L ↔ k ∈ kinds ∧ w ∈ L := by
  simp [mem_oneOf_mul]

@[simp] theorem possible_mul {M : Language TokenKind} :
    Possible (L * M) ↔ Possible L ∧ Possible M := by
  constructor
  · rintro ⟨_, w, hw, v, hv, rfl⟩
    exact ⟨⟨w, hw⟩, v, hv⟩
  · rintro ⟨⟨w, hw⟩, v, hv⟩
    exact ⟨w ++ v, Language.append_mem_mul hw hv⟩

@[simp] theorem possible_sup {M : Language TokenKind} :
    Possible (L ⊔ M) ↔ Possible L ∨ Possible M :=
  exists_or

@[simp] theorem possible_one : Possible 1 :=
  ⟨[], Language.nil_mem_one⟩

@[simp] theorem possible_kstar : Possible L∗ :=
  ⟨[], Language.nil_mem_kstar L⟩

@[simp] theorem possible_oneOf : Possible (oneOf (k :: kinds)) :=
  ⟨[k], k, List.mem_cons_self, rfl⟩

theorem StartsIn.refuses (h : StartsIn kinds L) (outside : k ∉ kinds) (w : List TokenKind) :
    k :: w ∉ L :=
  fun hw => outside (h k w hw)

theorem StartsIn.mono {more : List TokenKind} (h : StartsIn kinds L) (inside : kinds ⊆ more) :
    StartsIn more L :=
  fun k w hw => inside (h k w hw)

theorem startsIn_oneOf_mul {more : List TokenKind} (inside : kinds ⊆ more) :
    StartsIn more (oneOf kinds * L) :=
  fun _ _ hw => inside (cons_mem_oneOf_mul.mp hw).1

theorem startsIn_oneOf_mul_mul {M : Language TokenKind} : StartsIn kinds (oneOf kinds * L * M) := by
  rw [mul_assoc]
  exact startsIn_oneOf_mul (List.Subset.refl _)

theorem StartsIn.add {M : Language TokenKind} (h : StartsIn kinds L) (h' : StartsIn kinds M) :
    StartsIn kinds (L + M) :=
  fun k w hw => ((Language.mem_add ..).mp hw).elim (h k w) (h' k w)

theorem kstar_mul_eq (L M : Language TokenKind) : L∗ * M = M + L * (L∗ * M) := by
  conv_lhs => rw [← Language.one_add_self_mul_kstar_eq_kstar]
  rw [add_mul, one_mul, mul_assoc]

theorem StartsIn.kstar_mul {M : Language TokenKind} (h : ∀ L', StartsIn kinds (L * L'))
    (h' : StartsIn kinds M) : StartsIn kinds (L∗ * M) := by
  rw [kstar_mul_eq]
  exact h'.add (h _)

theorem exists_mem_kinds {f : τ → TokenKind} {p : TokenKind → Prop}
    (all : ∀ k ∈ kinds, ∃ x, f x = k) (inside : ∀ x, f x ∈ kinds) :
    (∃ k ∈ kinds, p k) ↔ ∃ x, p (f x) := by
  constructor
  · rintro ⟨k, hk, h⟩
    obtain ⟨x, rfl⟩ := all k hk
    exact ⟨x, h⟩
  · rintro ⟨x, h⟩
    exact ⟨f x, inside x, h⟩

theorem textsOf_list {all : List τ → List Lexeme} (nil : all [] = [])
    (cons : ∀ x xs, all (x :: xs) = lexemes x ++ all xs) : textsOf all = (textsOf lexemes)∗ := by
  ext w
  constructor
  · rintro ⟨xs, rfl⟩
    induction xs with
    | nil =>
      rw [nil]
      exact Language.nil_mem_kstar _
    | cons x xs ih =>
      rw [cons, List.map_append]
      exact mul_kstar_le_kstar (a := textsOf lexemes) (Language.append_mem_mul ⟨x, rfl⟩ ih)
  · rintro ⟨parts, rfl, inside⟩
    induction parts with
    | nil => exact ⟨[], by rw [nil]; rfl⟩
    | cons part parts ih =>
      rw [List.forall_mem_cons] at inside
      obtain ⟨⟨x, rfl⟩, rest⟩ := inside
      obtain ⟨xs, same⟩ := ih rest
      exact ⟨x :: xs, by rw [cons, List.map_append, same]; rfl⟩

theorem textsOf_flatMap :
    textsOf (fun xs : List τ => xs.flatMap lexemes) = (textsOf lexemes)∗ :=
  textsOf_list rfl fun _ _ => List.flatMap_cons

end

/-! ## Expressions -/

def operators : List TokenKind :=
  [.mark .plus, .mark .minus, .mark .star, .mark .slash, .mark .ampersand, .mark .bar, .mark .less,
    .mark .greater, .mark .equal]

/-- The terms that are one token but no name. -/
def constants : List TokenKind :=
  [.integer, .string, .keyword .true, .keyword .false, .keyword .null, .keyword .this]

def expressionTexts : Language TokenKind :=
  textsOf Expression.lexemes

def termTexts : Language TokenKind :=
  textsOf Term.lexemes

def argumentTexts : Language TokenKind :=
  textsOf argumentLexemes

/-- What may stand behind the first name of a call. -/
def callTexts : Language TokenKind :=
  (1 + token (.mark .dot) * token .identifier) *
    (token (.mark .leftParen) * (argumentTexts * token (.mark .rightParen)))

def indexTexts : Language TokenKind :=
  token (.mark .leftBracket) * (expressionTexts * token (.mark .rightBracket))

theorem exists_operator {p : TokenKind → Prop} :
    (∃ k ∈ operators, p k) ↔ ∃ op : BinaryOperator, p (.mark op.mark) := by
  apply exists_mem_kinds
  · simp only [operators, List.forall_mem_cons]
    exact ⟨⟨.add, rfl⟩, ⟨.subtract, rfl⟩, ⟨.multiply, rfl⟩, ⟨.divide, rfl⟩, ⟨.and, rfl⟩, ⟨.or, rfl⟩,
      ⟨.less, rfl⟩, ⟨.greater, rfl⟩, ⟨.equal, rfl⟩, List.forall_mem_nil _⟩
  · intro op
    cases op <;> decide

theorem operationTexts_eq : textsOf operationLexemes = (oneOf operators * termTexts)∗ := by
  have one : oneOf operators * termTexts =
      textsOf fun p : BinaryOperator × Term => .mark p.1.mark :: p.2.lexemes := by
    ext w
    simp [mem_oneOf_mul, mem_textsOf, exists_operator, termTexts, Lexeme.kind]
  rw [one]
  exact textsOf_list (by rw [operationLexemes]) fun ⟨op, t⟩ rest => by rw [operationLexemes]; rfl

theorem expressionTexts_eq :
    expressionTexts = termTexts * (oneOf operators * termTexts)∗ := by
  rw [← operationTexts_eq]
  ext w
  constructor
  · rintro ⟨⟨t, rest⟩, rfl⟩
    rw [Expression.lexemes, List.map_append]
    exact Language.append_mem_mul ⟨t, rfl⟩ ⟨rest, rfl⟩
  · rintro ⟨_, ⟨t, rfl⟩, _, ⟨rest, rfl⟩, rfl⟩
    exact ⟨.mk t rest, by rw [Expression.lexemes, List.map_append]⟩

theorem argumentTexts_eq :
    argumentTexts = 1 + expressionTexts * (token (.mark .comma) * expressionTexts)∗ := by
  have further : textsOf furtherLexemes = (token (.mark .comma) * expressionTexts)∗ := by
    have one : token (.mark .comma) * expressionTexts =
        textsOf fun e : Expression => .mark .comma :: e.lexemes := by
      ext w
      simp [mem_oneOf_mul, mem_textsOf, expressionTexts, Lexeme.kind]
    rw [one]
    exact textsOf_list (by rw [furtherLexemes]) fun e rest => by rw [furtherLexemes]; rfl
  rw [← further]
  ext w
  rw [Language.mem_add, Language.mem_one]
  constructor
  · rintro ⟨_ | ⟨e, rest⟩, rfl⟩
    · exact .inl rfl
    · rw [argumentLexemes, List.map_append]
      exact .inr (Language.append_mem_mul ⟨e, rfl⟩ ⟨rest, rfl⟩)
  · rintro (rfl | ⟨_, ⟨e, rfl⟩, _, ⟨rest, rfl⟩, rfl⟩)
    · exact ⟨[], rfl⟩
    · exact ⟨e :: rest, by rw [argumentLexemes, List.map_append]⟩

theorem exists_constant {p : TokenKind → Prop} :
    (∃ k ∈ constants, p k) ↔ p .integer ∨ p .string ∨ ∃ c : Constant, p (.keyword c.keyword) := by
  have keywords : (∃ k ∈ [TokenKind.keyword .true, .keyword .false, .keyword .null,
      .keyword .this], p k) ↔ ∃ c : Constant, p (.keyword c.keyword) := by
    apply exists_mem_kinds
    · simp only [List.forall_mem_cons]
      exact ⟨⟨.true, rfl⟩, ⟨.false, rfl⟩, ⟨.null, rfl⟩, ⟨.this, rfl⟩, List.forall_mem_nil _⟩
    · intro c
      cases c <;> decide
  rw [← keywords]
  simp [constants]

theorem termTexts_eq :
    termTexts = oneOf constants + token .identifier * (1 + indexTexts + callTexts) +
      token (.mark .leftParen) * (expressionTexts * token (.mark .rightParen)) +
      oneOf [.mark .minus, .mark .tilde] * termTexts := by
  ext w
  simp only [indexTexts, callTexts, expressionTexts, argumentTexts, termTexts, Language.mem_add,
    mul_add, add_mul, mul_one, one_mul, mul_assoc, mem_textsOf_mul, mem_oneOf_mul, mem_oneOf,
    mem_textsOf, exists_constant, List.mem_cons, List.not_mem_nil, or_false, exists_eq_or_imp,
    ↓existsAndEq, true_and]
  constructor
  · rintro ⟨t, rfl⟩
    cases t with
    | call callee arguments =>
      cases callee <;> simp [Term.lexemes, Callee.lexemes, Callee.tail, inParens, Lexeme.kind]
    | unary op operand => cases op <;> simp [Term.lexemes, UnaryOperator.mark, Lexeme.kind]
    | _ => simp [Term.lexemes, inParens, Lexeme.kind]
  · rintro ((((rfl | rfl | ⟨c, rfl⟩) | (rfl | ⟨index, rfl⟩) | ⟨arguments, rfl⟩ | ⟨arguments, rfl⟩) |
      ⟨inner, rfl⟩) | ⟨operand, rfl⟩ | ⟨operand, rfl⟩)
    · exact ⟨.integer "", rfl⟩
    · exact ⟨.string "", rfl⟩
    · exact ⟨.constant c, rfl⟩
    · exact ⟨.variable "", rfl⟩
    · exact ⟨.element "" index, by simp [Term.lexemes, Lexeme.kind]⟩
    · exact ⟨.call (.own "") arguments, by
        simp [Term.lexemes, Callee.lexemes, Callee.tail, inParens, Lexeme.kind]⟩
    · exact ⟨.call (.qualified "" "") arguments, by
        simp [Term.lexemes, Callee.lexemes, Callee.tail, inParens, Lexeme.kind]⟩
    · exact ⟨.group inner, by simp [Term.lexemes, inParens, Lexeme.kind]⟩
    · exact ⟨.unary .negate operand, by simp [Term.lexemes, UnaryOperator.mark, Lexeme.kind]⟩
    · exact ⟨.unary .complement operand, by simp [Term.lexemes, UnaryOperator.mark, Lexeme.kind]⟩

/-! ## Statements -/

def statementTexts : Language TokenKind :=
  textsOf Statement.lexemes

def blockTexts : Language TokenKind :=
  token (.mark .leftBrace) * (textsOf statementLexemes * token (.mark .rightBrace))

def conditionTexts : Language TokenKind :=
  token (.mark .leftParen) * (expressionTexts * token (.mark .rightParen))

def assignmentTexts : Language TokenKind :=
  indexTexts * (token (.mark .equal) * expressionTexts) + token (.mark .equal) * expressionTexts

def letTexts : Language TokenKind :=
  token (.keyword .let) * (token .identifier * (assignmentTexts * token (.mark .semicolon)))

def ifTexts : Language TokenKind :=
  token (.keyword .if) * (conditionTexts *
    (blockTexts * (token (.keyword .else) * blockTexts + 1)))

def whileTexts : Language TokenKind :=
  token (.keyword .while) * (conditionTexts * blockTexts)

def doTexts : Language TokenKind :=
  token (.keyword .do) * (token .identifier * (callTexts * token (.mark .semicolon)))

def returnTexts : Language TokenKind :=
  token (.keyword .return) * ((1 + expressionTexts) * token (.mark .semicolon))

theorem statementsTexts_eq : textsOf statementLexemes = statementTexts∗ :=
  textsOf_list (by rw [statementLexemes]) fun s rest => by rw [statementLexemes]

theorem statementTexts_eq :
    statementTexts = letTexts + ifTexts + whileTexts + doTexts + returnTexts := by
  ext w
  simp only [statementTexts, letTexts, ifTexts, whileTexts, doTexts, returnTexts, assignmentTexts,
    conditionTexts, blockTexts, indexTexts, callTexts, expressionTexts, argumentTexts,
    Language.mem_add, mul_add, add_mul, mul_one, one_mul, mul_assoc, mem_textsOf_mul,
    mem_oneOf_mul, mem_oneOf, mem_textsOf, List.mem_cons, List.not_mem_nil, or_false,
    ↓existsAndEq, true_and]
  constructor
  · rintro ⟨s, rfl⟩
    cases s with
    | «do» callee arguments =>
      cases callee <;> simp [Statement.lexemes, Callee.lexemes, Callee.tail, inParens, Lexeme.kind]
    | «return» value => cases value <;> simp [Statement.lexemes, Lexeme.kind]
    | _ => simp [Statement.lexemes, inParens, inBraces, Lexeme.kind]
  · rintro (((((⟨index, value, rfl⟩ | ⟨value, rfl⟩) | ⟨condition, body, otherwise, rfl⟩ |
      ⟨condition, body, rfl⟩) | ⟨condition, body, rfl⟩) | ⟨arguments, rfl⟩ | ⟨arguments, rfl⟩) |
      rfl | ⟨value, rfl⟩)
    · exact ⟨.letElement "" index value, by simp [Statement.lexemes, Lexeme.kind]⟩
    · exact ⟨.let "" value, by simp [Statement.lexemes, Lexeme.kind]⟩
    · exact ⟨.ifElse condition body otherwise, by
        simp [Statement.lexemes, inParens, inBraces, Lexeme.kind]⟩
    · exact ⟨.if condition body, by simp [Statement.lexemes, inParens, inBraces, Lexeme.kind]⟩
    · exact ⟨.while condition body, by simp [Statement.lexemes, inParens, inBraces, Lexeme.kind]⟩
    · exact ⟨.do (.own "") arguments, by
        simp [Statement.lexemes, Callee.lexemes, Callee.tail, inParens, Lexeme.kind]⟩
    · exact ⟨.do (.qualified "" "") arguments, by
        simp [Statement.lexemes, Callee.lexemes, Callee.tail, inParens, Lexeme.kind]⟩
    · exact ⟨.return none, rfl⟩
    · exact ⟨.return (some value), by simp [Statement.lexemes, Lexeme.kind]⟩

/-! ## Classes -/

def storageWords : List TokenKind :=
  [.keyword .static, .keyword .field]

def formWords : List TokenKind :=
  [.keyword .constructor, .keyword .function, .keyword .method]

def groupTexts : Language TokenKind :=
  oneOf variableTypes * (token .identifier *
    ((token (.mark .comma) * token .identifier)∗ * token (.mark .semicolon)))

def parameterTexts : Language TokenKind :=
  oneOf variableTypes * token .identifier

def parametersTexts : Language TokenKind :=
  1 + parameterTexts * (token (.mark .comma) * parameterTexts)∗

def subroutineTexts : Language TokenKind :=
  oneOf formWords * (oneOf returnTypes * (token .identifier * (token (.mark .leftParen) *
    (parametersTexts * (token (.mark .rightParen) * (token (.mark .leftBrace) *
      ((token (.keyword .var) * groupTexts)∗ *
        (textsOf statementLexemes * token (.mark .rightBrace)))))))))

def classTexts : Language TokenKind :=
  token (.keyword .class) * (token .identifier * (token (.mark .leftBrace) *
    ((oneOf storageWords * groupTexts)∗ * (subroutineTexts∗ * token (.mark .rightBrace)))))

theorem exists_type {p : TokenKind → Prop} :
    (∃ k ∈ variableTypes, p k) ↔ ∃ type : TypeName, p type.lexeme.kind := by
  apply exists_mem_kinds
  · simp only [variableTypes, List.forall_mem_cons]
    exact ⟨⟨.int, rfl⟩, ⟨.char, rfl⟩, ⟨.boolean, rfl⟩, ⟨.named "", rfl⟩, List.forall_mem_nil _⟩
  · intro type
    cases type <;> simp [variableTypes, TypeName.lexeme, Lexeme.kind]

theorem exists_result {p : TokenKind → Prop} :
    (∃ k ∈ returnTypes, p k) ↔ ∃ result, p (resultLexeme result).kind := by
  rw [returnTypes, List.exists_mem_cons_iff, exists_type]
  constructor
  · rintro (h | ⟨type, h⟩)
    · exact ⟨none, h⟩
    · exact ⟨some type, h⟩
  · rintro ⟨_ | type, h⟩
    · exact .inl h
    · exact .inr ⟨type, h⟩

theorem exists_storage {p : TokenKind → Prop} :
    (∃ k ∈ storageWords, p k) ↔ ∃ storage : Storage, p (.keyword storage.keyword) := by
  apply exists_mem_kinds
  · simp only [storageWords, List.forall_mem_cons]
    exact ⟨⟨.static, rfl⟩, ⟨.field, rfl⟩, List.forall_mem_nil _⟩
  · intro storage
    cases storage <;> decide

theorem exists_form {p : TokenKind → Prop} :
    (∃ k ∈ formWords, p k) ↔ ∃ form : SubroutineForm, p (.keyword form.keyword) := by
  apply exists_mem_kinds
  · simp only [formWords, List.forall_mem_cons]
    exact ⟨⟨.constructor, rfl⟩, ⟨.function, rfl⟩, ⟨.method, rfl⟩, List.forall_mem_nil _⟩
  · intro form
    cases form <;> decide

theorem groupTexts_eq : textsOf VariableGroup.lexemes = groupTexts := by
  have names : (token (.mark .comma) * token .identifier)∗ = textsOf furtherNames := by
    have one : token (.mark .comma) * token .identifier =
        textsOf fun name : String => [.mark .comma, .identifier name] := by
      ext w
      simp [mem_oneOf_mul, mem_oneOf, mem_textsOf, Lexeme.kind]
    rw [one]
    exact textsOf_flatMap.symm
  ext w
  simp only [groupTexts, names, mem_oneOf_mul, mem_textsOf_mul, mem_oneOf, mem_textsOf,
    exists_type, List.mem_cons, List.not_mem_nil, or_false, ↓existsAndEq, true_and]
  constructor
  · rintro ⟨g, rfl⟩
    exact ⟨g.type, g.rest, by simp [VariableGroup.lexemes, Lexeme.kind]⟩
  · rintro ⟨type, rest, rfl⟩
    exact ⟨⟨type, "", rest⟩, by simp [VariableGroup.lexemes, Lexeme.kind]⟩

theorem parametersTexts_eq : textsOf parameterLexemes = parametersTexts := by
  have one : parameterTexts = textsOf Parameter.lexemes := by
    ext w
    simp only [parameterTexts, mem_oneOf_mul, mem_oneOf, mem_textsOf, exists_type, List.mem_cons,
      List.not_mem_nil, or_false, ↓existsAndEq, true_and]
    constructor
    · rintro ⟨type, rfl⟩
      exact ⟨⟨type, ""⟩, rfl⟩
    · rintro ⟨p, rfl⟩
      exact ⟨p.type, rfl⟩
  have further : (token (.mark .comma) * parameterTexts)∗ =
      textsOf fun ps : List Parameter => ps.flatMap fun p => .mark .comma :: p.lexemes := by
    have next : token (.mark .comma) * parameterTexts =
        textsOf fun p : Parameter => .mark .comma :: p.lexemes := by
      ext w
      simp [one, mem_oneOf_mul, mem_textsOf, Lexeme.kind]
    rw [next]
    exact textsOf_flatMap.symm
  rw [parametersTexts, further, one]
  ext w
  rw [Language.mem_add, Language.mem_one]
  constructor
  · rintro ⟨_ | ⟨p, rest⟩, rfl⟩
    · exact .inl rfl
    · rw [parameterLexemes, List.map_append]
      exact .inr (Language.append_mem_mul ⟨p, rfl⟩ ⟨rest, rfl⟩)
  · rintro (rfl | ⟨_, ⟨p, rfl⟩, _, ⟨rest, rfl⟩, rfl⟩)
    · exact ⟨[], rfl⟩
    · exact ⟨p :: rest, by rw [parameterLexemes, List.map_append]⟩

theorem varDecTexts_eq :
    textsOf (fun groups : List VariableGroup => groups.flatMap VariableGroup.varDec) =
      (token (.keyword .var) * groupTexts)∗ := by
  have one : textsOf VariableGroup.varDec = token (.keyword .var) * groupTexts := by
    ext w
    simp [← groupTexts_eq, mem_oneOf_mul, mem_textsOf, VariableGroup.varDec, Lexeme.kind]
  rw [← one]
  exact textsOf_flatMap

theorem classVarDecTexts_eq :
    textsOf (fun decs : List ClassVarDec => decs.flatMap ClassVarDec.lexemes) =
      (oneOf storageWords * groupTexts)∗ := by
  have one : textsOf ClassVarDec.lexemes = oneOf storageWords * groupTexts := by
    ext w
    simp only [← groupTexts_eq, mem_oneOf_mul, mem_textsOf, exists_storage, ↓existsAndEq, true_and]
    constructor
    · rintro ⟨d, rfl⟩
      exact ⟨d.storage, d.group, rfl⟩
    · rintro ⟨storage, group, rfl⟩
      exact ⟨⟨storage, group⟩, rfl⟩
  rw [← one]
  exact textsOf_flatMap

theorem subroutineTexts_eq : textsOf SubroutineDec.lexemes = subroutineTexts := by
  ext w
  simp only [subroutineTexts, ← parametersTexts_eq, ← varDecTexts_eq, mem_oneOf_mul,
    mem_textsOf_mul, mem_oneOf, mem_textsOf, exists_form, exists_result, List.mem_cons,
    List.not_mem_nil, or_false, ↓existsAndEq, true_and]
  constructor
  · rintro ⟨d, rfl⟩
    exact ⟨d.form, d.result, d.parameters, d.varDecs, d.body, by
      simp [SubroutineDec.lexemes, SubroutineDec.bodyLexemes, inParens, inBraces, Lexeme.kind]⟩
  · rintro ⟨form, result, parameters, varDecs, body, rfl⟩
    exact ⟨⟨form, result, "", parameters, varDecs, body⟩, by
      simp [SubroutineDec.lexemes, SubroutineDec.bodyLexemes, inParens, inBraces, Lexeme.kind]⟩

theorem classTexts_eq : textsOf ClassDec.lexemes = classTexts := by
  have subroutines : subroutineTexts∗ =
      textsOf fun ds : List SubroutineDec => ds.flatMap SubroutineDec.lexemes := by
    rw [← subroutineTexts_eq]
    exact textsOf_flatMap.symm
  ext w
  simp only [classTexts, ← classVarDecTexts_eq, subroutines, mem_oneOf_mul, mem_textsOf_mul,
    mem_oneOf, mem_textsOf, List.mem_cons, List.not_mem_nil, or_false, ↓existsAndEq, true_and]
  constructor
  · rintro ⟨c, rfl⟩
    exact ⟨c.varDecs, c.subroutines, by simp [ClassDec.lexemes, inBraces, Lexeme.kind]⟩
  · rintro ⟨decs, ds, rfl⟩
    exact ⟨⟨"", decs, ds⟩, by simp [ClassDec.lexemes, inBraces, Lexeme.kind]⟩

end JackVm

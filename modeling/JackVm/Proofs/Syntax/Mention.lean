import JackVm.Proofs.Syntax.Class

/-!
# What a text mentions

Whatever a tree uses or declares stands in its text.
-/

namespace JackVm

/-- The lexeme that a use is made with. A call is made with its first name. -/
def Use.lexeme : Use → Lexeme
  | .integer digits => .integer digits
  | .string content => .string content
  | .variable name => .identifier name
  | .call callee _ => .identifier callee.head

/-- All the lexemes that a use is made with. -/
def Use.lexemes : Use → List Lexeme
  | .integer digits => [.integer digits]
  | .string content => [.string content]
  | .variable name => [.identifier name]
  | .call callee _ => callee.lexemes

theorem Use.lexeme_mem (u : Use) : u.lexeme ∈ u.lexemes := by
  cases u <;> exact List.mem_cons_self

/-- Whether all of some uses stand in a text. -/
def Mentions (lexemes : List Lexeme) (uses : List Use) : Prop :=
  ∀ u ∈ uses, u.lexemes ⊆ lexemes

section
variable {lexemes more : List Lexeme} {uses further : List Use}

@[simp] theorem mentions_nil : Mentions lexemes [] := by simp [Mentions]

@[simp] theorem mentions_cons {u : Use} :
    Mentions lexemes (u :: uses) ↔ u.lexemes ⊆ lexemes ∧ Mentions lexemes uses :=
  List.forall_mem_cons

@[simp] theorem mentions_append :
    Mentions lexemes (uses ++ further) ↔ Mentions lexemes uses ∧ Mentions lexemes further :=
  List.forall_mem_append

theorem Mentions.mono (h : Mentions lexemes uses) (sub : ∀ l ∈ lexemes, l ∈ more) :
    Mentions more uses :=
  fun u hu l hl => sub l (h u hu hl)

end

mutual

theorem Expression.mentions : (e : Expression) → Mentions e.lexemes e.uses
  | .mk first rest => by
    rw [Expression.uses, Expression.lexemes, mentions_append]
    exact ⟨first.mentions.mono (by simp +contextual),
      (operation_mentions rest).mono (by simp +contextual)⟩

theorem operation_mentions : (rest : List (BinaryOperator × Term)) →
    Mentions (operationLexemes rest) (operationUses rest)
  | [] => mentions_nil
  | (op, operand) :: rest => by
    rw [operationUses, operationLexemes, mentions_append]
    exact ⟨operand.mentions.mono (by simp +contextual),
      (operation_mentions rest).mono (by simp +contextual)⟩

theorem Term.mentions : (t : Term) → Mentions t.lexemes t.uses
  | .integer _ | .string _ | .constant _ | .variable _ => by
    simp [Term.uses, Term.lexemes, Use.lexemes]
  | .element name index => by
    rw [Term.uses, Term.lexemes, mentions_cons]
    exact ⟨by simp [Use.lexemes], index.mentions.mono (by simp +contextual)⟩
  | .call callee arguments => by
    rw [Term.uses, Term.lexemes, mentions_cons]
    exact ⟨List.subset_append_left _ _, (argument_mentions arguments).mono
      (by simp +contextual [inParens])⟩
  | .group inner => inner.mentions.mono (by simp +contextual [Term.lexemes, inParens])
  | .unary op operand => operand.mentions.mono (by simp +contextual [Term.lexemes])

theorem argument_mentions : (arguments : List Expression) →
    Mentions (argumentLexemes arguments) (argumentUses arguments)
  | [] => mentions_nil
  | e :: rest => by
    rw [argumentUses, argumentLexemes, mentions_append]
    exact ⟨e.mentions.mono (by simp +contextual),
      (further_mentions rest).mono (by simp +contextual)⟩

theorem further_mentions : (rest : List Expression) →
    Mentions (furtherLexemes rest) (argumentUses rest)
  | [] => mentions_nil
  | e :: rest => by
    rw [argumentUses, furtherLexemes, mentions_append]
    exact ⟨e.mentions.mono (by simp +contextual),
      (further_mentions rest).mono (by simp +contextual)⟩

end

mutual

theorem Statement.mentions : (st : Statement) → Mentions st.lexemes st.uses
  | .let name value => by
    rw [Statement.uses, Statement.lexemes, mentions_cons]
    exact ⟨by simp [Use.lexemes], value.mentions.mono (by simp +contextual)⟩
  | .letElement name index value => by
    rw [Statement.uses, Statement.lexemes, mentions_cons, mentions_append]
    exact ⟨by simp [Use.lexemes], index.mentions.mono (by simp +contextual),
      value.mentions.mono (by simp +contextual)⟩
  | .if condition body => by
    rw [Statement.uses, Statement.lexemes, mentions_append]
    exact ⟨condition.mentions.mono (by simp +contextual [inParens]),
      (statement_mentions body).mono (by simp +contextual [inBraces])⟩
  | .ifElse condition body otherwise => by
    rw [Statement.uses, Statement.lexemes, mentions_append, mentions_append]
    exact ⟨condition.mentions.mono (by simp +contextual [inParens]),
      (statement_mentions body).mono (by simp +contextual [inBraces]),
      (statement_mentions otherwise).mono (by simp +contextual [inBraces])⟩
  | .while condition body => by
    rw [Statement.uses, Statement.lexemes, mentions_append]
    exact ⟨condition.mentions.mono (by simp +contextual [inParens]),
      (statement_mentions body).mono (by simp +contextual [inBraces])⟩
  | .do callee arguments => by
    rw [Statement.uses, Statement.lexemes, mentions_cons]
    exact ⟨List.subset_cons_of_subset _ (by simp +contextual [Use.lexemes]),
      (argument_mentions arguments).mono (by simp +contextual [inParens])⟩
  | .return none => mentions_nil
  | .return (some value) => by
    rw [Statement.uses, Statement.lexemes]
    exact value.mentions.mono (by simp +contextual)

theorem statement_mentions : (body : List Statement) →
    Mentions (statementLexemes body) (statementUses body)
  | [] => mentions_nil
  | first :: rest => by
    rw [statementUses, statementLexemes, mentions_append]
    exact ⟨first.mentions.mono (by simp +contextual),
      (statement_mentions rest).mono (by simp +contextual)⟩

end

theorem VariableGroup.mem_lexemes {g : VariableGroup} {name : String} (h : name ∈ g.names) :
    .identifier name ∈ g.lexemes := by
  rcases List.mem_cons.mp h with rfl | h
  · simp [lexemes]
  · simp [lexemes, furtherNames, h]

theorem Parameter.lexemes_subset {p : Parameter} {ps : List Parameter} (h : p ∈ ps) :
    p.lexemes ⊆ parameterLexemes ps := by
  cases ps with
  | nil => cases h
  | cons q ps =>
    rcases List.mem_cons.mp h with rfl | h
    · exact List.subset_append_left _ _
    · intro l hl
      exact List.mem_append_right _ (List.mem_flatMap.mpr ⟨p, h, List.mem_cons_of_mem _ hl⟩)

theorem SubroutineDec.parameter_subset {d : SubroutineDec} {p : Parameter}
    (h : p ∈ d.parameters) : p.lexemes ⊆ d.lexemes := by
  intro l hl
  have inside := Parameter.lexemes_subset h hl
  simp [lexemes, inParens, inside]

theorem SubroutineDec.varDec_subset {d : SubroutineDec} {g : VariableGroup} (h : g ∈ d.varDecs) :
    g.lexemes ⊆ d.lexemes := by
  intro l hl
  have inside : l ∈ d.varDecs.flatMap VariableGroup.varDec :=
    List.mem_flatMap.mpr ⟨g, h, List.mem_cons_of_mem _ hl⟩
  simp only [lexemes, bodyLexemes, inBraces, List.mem_cons, List.mem_append]
  exact .inr (.inr (.inr (.inr (.inr (.inl (.inl inside))))))

theorem SubroutineDec.mem_lexemes_of_named {d : SubroutineDec} {name : String}
    (h : name ∈ d.named.map Declaration.name) : .identifier name ∈ d.lexemes := by
  obtain ⟨x, hx, rfl⟩ := List.mem_map.mp h
  rcases List.mem_append.mp hx with hx | hx
  · obtain ⟨p, hp, rfl⟩ := List.mem_map.mp hx
    exact parameter_subset hp (by simp [Parameter.lexemes, Parameter.declaration])
  · obtain ⟨g, hg, hx⟩ := List.mem_flatMap.mp hx
    obtain ⟨name, hname, rfl⟩ := List.mem_map.mp hx
    exact varDec_subset hg (VariableGroup.mem_lexemes hname)

theorem SubroutineDec.mentions (d : SubroutineDec) : Mentions d.lexemes (statementUses d.body) := by
  exact (statement_mentions d.body).mono
    (by simp +contextual [lexemes, bodyLexemes, inBraces])

theorem ClassDec.varDec_subset {c : ClassDec} {v : ClassVarDec} (h : v ∈ c.varDecs) :
    v.lexemes ⊆ c.lexemes := by
  intro l hl
  have inside : l ∈ c.varDecs.flatMap ClassVarDec.lexemes := List.mem_flatMap.mpr ⟨v, h, hl⟩
  simp only [lexemes, inBraces, List.mem_cons, List.mem_append]
  exact .inr (.inr (.inr (.inl (.inl inside))))

theorem ClassDec.subset_lexemes {c : ClassDec} {d : SubroutineDec} (h : d ∈ c.subroutines) :
    d.lexemes ⊆ c.lexemes := by
  intro l hl
  have inside : l ∈ c.subroutines.flatMap SubroutineDec.lexemes := List.mem_flatMap.mpr ⟨d, h, hl⟩
  simp only [lexemes, inBraces, List.mem_cons, List.mem_append]
  exact .inr (.inr (.inr (.inl (.inr inside))))

end JackVm

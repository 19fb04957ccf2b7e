import JackVm.Proofs.Compilation.StatementConsumption

/-!
# Termination

The compilation of a class ends because every round of a loop and every way from one expression or
statement to the next takes a token. The bounds on the work, which grow with the tokens that are
left, are never used up, from whatever state the compilation starts.
-/

namespace JackVm

open Compilation

section
variable {n bound : Nat}

/-! ## Declarations -/

theorem typeName_consumes {allowed : List TokenKind}
    (takable : ∀ kind ∈ allowed, kind.isTakable) : Consumes n 1 (typeName allowed) := by
  apply Consumes.bind (.expectAny takable)
  exact fun _ => .quiet .currentText

theorem declareName_consumes (type : String) (kind : VariableKind) :
    Consumes n 1 (declareName type kind) := by
  apply Consumes.bind (.expect rfl)
  intro _
  exact .quiet (Quiet.currentText.bind fun _ => .declare _ _ _)

theorem furtherName_consumes (type : String) (kind : VariableKind) :
    ConsumesAt (.mark .comma) n 1 (do
      consume
      declareName type kind) := by
  apply ConsumesAt.bind (.consume rfl)
  exact fun _ => (declareName_consumes type kind).weaken

theorem variableNames_consumes (kind : VariableKind) (bounded : n ≤ bound + 1) :
    Consumes n 1 (variableNames kind bound) := by
  apply Consumes.bind (typeName_consumes (by decide))
  intro type
  apply Consumes.bind (declareName_consumes type kind)
  intro _
  have names : Consumes (n - 1 - 1) 0
      (repeatWhile (· = .mark .comma) (do
        consume
        declareName type kind) bound) := by
    apply Consumes.iterate (by omega) (by decide) (by decide)
    intro m le other comma _
    rw [of_decide_eq_true comma]
    exact furtherName_consumes type kind
  apply Consumes.bind names
  exact fun _ => expect_consumes rfl

theorem classVarDec_consumes (bounded : n ≤ bound + 1) : Consumes n 1 (classVarDec bound) := by
  apply Consumes.production
  apply Consumes.peekKind_bind
  intro kind
  cases found : VariableKind.ofClassKeyword? kind with
  | none => exact .fail nofun
  | some storage =>
    apply ConsumesAt.bind (.consume (TokenKind.isTakable_of_found found rfl rfl))
    intro _
    exact (variableNames_consumes storage (by omega)).weaken

theorem varDec_consumes (bounded : n ≤ bound + 1) : Consumes n 1 (varDec bound) := by
  apply Consumes.production
  apply Consumes.bind (.expect rfl)
  intro _
  exact (variableNames_consumes .local (by omega)).weaken

theorem parameter_consumes : Consumes n 1 parameter := by
  apply Consumes.bind (typeName_consumes (by decide))
  exact fun type => (declareName_consumes type .argument).weaken

theorem furtherParameter_consumes : ConsumesAt (.mark .comma) n 1 (do
    consume
    parameter) := by
  apply ConsumesAt.bind (.consume rfl)
  exact fun _ => parameter_consumes.weaken

theorem parameterList_consumes (bounded : n ≤ bound + 1) : Consumes n 0 (parameterList bound) := by
  apply Consumes.production
  apply Consumes.peekKind_bind
  intro kind
  split
  · exact .quiet (.pure ())
  · apply ConsumesAt.bind (parameter_consumes kind)
    intro _
    apply Consumes.iterate (by omega) (by decide) (by decide)
    intro m le kind comma _
    rw [of_decide_eq_true comma]
    exact furtherParameter_consumes

/-! ## Subroutines and classes -/

theorem subroutineBody_consumes (name : String) (form : SubroutineForm) (bounded : 2 * n ≤ bound) :
    Consumes n 1 (subroutineBody name form bound) := by
  apply Consumes.production
  apply Consumes.bind (.expect rfl)
  intro _
  have declarations : Consumes (n - 1) 0
      (repeatWhile (· = .keyword .var) (varDec bound) bound) := by
    apply Consumes.iterate (by omega) (by decide) (by decide)
    intro m le kind _ _
    exact varDec_consumes (by omega) kind
  apply Consumes.bind declarations
  intro _
  apply Consumes.quiet_bind .currentLine
  intro line
  apply Consumes.quiet_bind (.countOf _)
  intro locals
  apply Consumes.quiet_bind (.emit _ _)
  intro _
  apply Consumes.quiet_bind (.countOf _)
  intro fields
  apply Consumes.quiet_bind (.emitAll _ _)
  intro _
  apply Consumes.bind (statements_consumes bound _ (by omega))
  exact fun _ => expect_consumes rfl

theorem subroutineDec_consumes (bounded : 2 * n ≤ bound) : Consumes n 1 (subroutineDec bound) := by
  apply Consumes.production
  apply Consumes.quiet_bind .startSubroutine
  intro _
  apply Consumes.peekKind_bind
  intro kind
  cases found : SubroutineForm.ofKind? kind with
  | none => exact .fail nofun
  | some form =>
    apply ConsumesAt.bind (.consume (TokenKind.isTakable_of_found found rfl rfl))
    intro _
    apply Consumes.quiet_bind (.declareReceiver form)
    intro _
    apply Consumes.bind (.expectAny (by decide))
    intro _
    apply Consumes.bind (.expect rfl)
    intro _
    apply Consumes.quiet_bind .className
    intro owner
    apply Consumes.quiet_bind .currentText
    intro name
    apply Consumes.bind (.expect rfl)
    intro _
    apply Consumes.bind (parameterList_consumes (by omega))
    intro _
    apply Consumes.bind (.expect rfl)
    intro _
    exact (subroutineBody_consumes _ form (by omega)).weaken

theorem classBody_consumes (bounded : 2 * n ≤ bound) : Consumes n 1 (classBody bound) := by
  apply Consumes.bind (.expect rfl)
  intro _
  have declarations : Consumes (n - 1) 0 (repeatWhile
      (fun kind => (VariableKind.ofClassKeyword? kind).isSome) (classVarDec bound) bound) := by
    apply Consumes.iterate (by omega) (by decide) (by decide)
    intro m le kind _ _
    exact classVarDec_consumes (by omega) kind
  have subroutines : Consumes (n - 1) 0 (repeatWhile
      (fun kind => (SubroutineForm.ofKind? kind).isSome) (subroutineDec bound) bound) := by
    apply Consumes.iterate (by omega) (by decide) (by decide)
    intro m le kind _ _
    exact subroutineDec_consumes (by omega) kind
  apply Consumes.bind declarations
  intro _
  apply Consumes.bind subroutines
  exact fun _ => expect_consumes rfl

theorem class_consumes (bounded : 2 * n ≤ bound) : Consumes n 0 (do
    production .class do
      expect (.keyword .class)
      expect .identifier
      startClass (← currentText)
      classBody bound
    if (← peekKind) = .endOfInput then
      pure ()
    else
      failAtPeek (.expected [.endOfInput])) := by
  have whole : Consumes n 1 (production .class do
      expect (.keyword .class)
      expect .identifier
      startClass (← currentText)
      classBody bound) := by
    apply Consumes.production
    apply Consumes.bind (.expect rfl)
    intro _
    apply Consumes.bind (.expect rfl)
    intro _
    apply Consumes.quiet_bind .currentText
    intro name
    apply Consumes.quiet_bind (.startClass name)
    exact fun _ => (classBody_consumes (by omega)).weaken
  apply Consumes.bind whole
  intro _
  apply Consumes.peekKind_bind
  intro kind
  split
  · exact .quiet (.pure ())
  · exact .fail nofun

end

theorem CompilerState.room_le (s : CompilerState) : s.room ≤ s.input.upcoming.length + 1 := by
  have inside := s.room_lt
  rw [remaining, TokenStream.toList, List.length_cons, List.length_append] at inside
  exact Nat.le_of_lt_succ inside

/-- The bound for a class is large enough wherever its compilation starts. -/
theorem wholeClass_consumes (s : CompilerState) :
    (∃ n, n ≤ s.room ∧ s.Moves n (final (wholeClass s))) ∧
      ∀ e t, wholeClass s = .error e t → ¬ e.IsBound := by
  have bounded : 2 * (s.room + 1) ≤ 2 * s.input.upcoming.length + 8 := by
    have room := s.room_le
    omega
  have consumes := class_consumes bounded s.peek.kind
  exact ⟨consumes.moves, fun e t run => consumes.not_isBound (Nat.lt_succ_self _) run⟩

/-! ## What a round takes -/

/-- The loops of the grammar: what the next token is in front of each round, and the round. -/
inductive GrammarLoop (bound : Nat) : {α : Type} → (TokenKind → Bool) → Compilation α → Prop
  | classVariables :
    GrammarLoop bound (fun kind => (VariableKind.ofClassKeyword? kind).isSome) (classVarDec bound)
  | subroutines :
    GrammarLoop bound (fun kind => (SubroutineForm.ofKind? kind).isSome) (subroutineDec bound)
  | localVariables : GrammarLoop bound (· = .keyword .var) (varDec bound)
  | names (type : String) (kind : VariableKind) : GrammarLoop bound (· = .mark .comma) (do
      consume
      declareName type kind)
  | parameters : GrammarLoop bound (· = .mark .comma) (do
      consume
      parameter)
  | statements :
    GrammarLoop bound (fun kind => (StatementForm.ofKind? kind).isSome)
      (statement (statements bound) bound)
  | operations : GrammarLoop bound (fun kind => (BinaryOperator.ofKind? kind).isSome) (do
      match BinaryOperator.ofKind? (← peekKind) with
      | some operator =>
        consume
        let line ← currentLine
        term bound
        emit operator.instruction line
      | none => pure ())
  | arguments (count : Nat) : GrammarLoop bound (· = .mark .comma) (do
      consume
      expression bound
      countArguments count 1)

theorem GrammarLoop.consumes {α : Type} {bound n : Nat} {p : TokenKind → Bool}
    {round : Compilation α} (h : GrammarLoop bound p round) (bounded : 2 * n ≤ bound)
    {kind : TokenKind} (again : p kind) : ConsumesAt kind n 1 round := by
  cases h with
  | classVariables => exact classVarDec_consumes (by omega) kind
  | subroutines => exact subroutineDec_consumes bounded kind
  | localVariables => exact varDec_consumes (by omega) kind
  | names type storage =>
    rw [of_decide_eq_true again]
    exact furtherName_consumes type storage
  | parameters =>
    rw [of_decide_eq_true again]
    exact furtherParameter_consumes
  | statements =>
    have nested (m : Nat) (le : m ≤ n - 1) : Consumes m 0 (Compilation.statements bound) :=
      statements_consumes bound m (by omega)
    exact statement_consumes nested (by omega) kind
  | operations => exact operation_consumes again (term_consumes bound (n - 1) (by omega))
  | arguments count =>
    rw [of_decide_eq_true again]
    have argument (m : Nat) (le : m ≤ n) : Consumes m 1 (expression bound) :=
      expression_consumes bound m (by omega)
    exact furtherArgument_consumes argument count le_rfl

theorem window_final_advance (s : CompilerState) :
    (final (advance s)).window = s.window.drop 1 := by
  cases run : advance s with
  | ok u t =>
    obtain ⟨-, shifted⟩ := advance_eq_ok.mp run
    rw [shifted]
    exact s.window_shifted
  | error e t =>
    obtain ⟨shifted, -⟩ := eq_unreadable_of_advance run
    rw [shifted]
    exact s.window_shifted

/-- From whatever state it starts, the compilation of a class ends by itself and takes no token that
is a fault or the end of input, nor one behind the first of these. Every round of a loop, every
expression, term and statement takes a token or fails, and so does reading take a byte for every
token. -/
theorem wholeClass_terminates (s : CompilerState) :
    (∀ r : CompilerState, (final (advance r)).window = r.window.drop 1) ∧
    (∃ n, n ≤ s.room ∧ s.Moves n (final (wholeClass s))) ∧
    (∀ e t, wholeClass s = .error e t → ¬ e.IsBound) ∧
    (∀ (bound : Nat) (α : Type) (p : TokenKind → Bool) (round : Compilation α),
      GrammarLoop bound p round → ∀ kind, p kind → ConsumesAt kind (bound / 2) 1 round) ∧
    (∀ bound : Nat, Consumes (bound / 2) 1 (expression bound) ∧
      Consumes (bound / 2) 1 (term bound) ∧
      Consumes (bound / 2) 1 (statement (statements bound) bound)) ∧
    ∀ c : Cursor, c.next.1.lexeme ≠ .endOfInput → c.next.2.bytesLeft < c.bytesLeft := by
  have half (bound : Nat) : 2 * (bound / 2) ≤ bound := Nat.mul_div_le bound 2
  refine ⟨window_final_advance, (wholeClass_consumes s).1, (wholeClass_consumes s).2, ?_, ?_, ?_⟩
  · intro bound α p round loop kind again
    exact loop.consumes (half bound) again
  · intro bound
    have enough := half bound
    refine ⟨expression_consumes bound _ enough, term_consumes bound _ (by omega), ?_⟩
    exact statement_consumes (fun m le => statements_consumes bound m (by omega)) (by omega)
  · exact fun c => Cursor.bytesLeft_next_lt

end JackVm

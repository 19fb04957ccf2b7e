import JackVm.Proofs.Compilation.Consumption

/-!
# Consumption by expressions

An expression takes the tokens of its terms, and a term takes its first token before it goes on to
another expression. So the bound on the depth of expressions lasts for twice as many tokens as can
be taken.
-/

namespace JackVm

open Compilation

section
variable {n bound : Nat}

/-! ## Calls -/

section
variable {argument : Compilation Unit} (consumes : ∀ m ≤ n, Consumes m 1 argument)
include consumes

theorem elementAddress_consumes (base : Variable) :
    Consumes n 1 (elementAddress argument base) := by
  apply Consumes.bind (.expect rfl)
  intro _
  apply Consumes.bind (consumes (n - 1) (by omega))
  intro _
  apply Consumes.quiet_bind .currentLine
  intro line
  apply Consumes.quiet_bind (.emitAll _ _)
  intro _
  apply Consumes.bind (.expect rfl)
  exact fun _ => .quiet (.pure _)

theorem furtherArgument_consumes (count : Nat) {m : Nat} (le : m ≤ n) :
    ConsumesAt (.mark .comma) m 1 (do
      consume
      argument
      countArguments count 1) := by
  apply ConsumesAt.bind (.consume rfl)
  intro _
  apply Consumes.bind (consumes (m - 1) (by omega))
  exact fun _ => .quiet (.countArguments count 1)

theorem expressionList_consumes (bounded : n ≤ bound + 1) :
    Consumes n 0 (expressionList argument bound) := by
  apply Consumes.production
  apply Consumes.peekKind_bind
  intro kind
  split
  · exact .quiet (.pure 0)
  · apply ConsumesAt.bind (consumes n le_rfl kind)
    intro _
    apply Consumes.iterate (by omega) (by decide) (by decide)
    intro m le kind comma count
    rw [of_decide_eq_true comma]
    exact furtherArgument_consumes consumes count (by omega)

theorem callArguments_consumes (receivers : Nat) (bounded : n ≤ bound + 1) :
    Consumes n 1 (callArguments argument bound receivers) := by
  apply Consumes.bind (expressionList_consumes consumes bounded)
  intro count
  apply Consumes.quiet_bind (.countArguments _ _)
  intro total
  apply Consumes.bind (.expect rfl)
  exact fun _ => .quiet (.pure _)

theorem call_consumes (name : String) (bounded : n ≤ bound + 1) :
    Consumes n 1 (call argument bound name) := by
  have arguments (receivers m : Nat) (le : m ≤ n) :
      Consumes m 1 (callArguments argument bound receivers) :=
    callArguments_consumes (fun l below => consumes l (by omega)) receivers (by omega)
  apply Consumes.quiet_bind .currentLine
  intro line
  apply Consumes.peekKind_bind
  intro kind
  split
  · next own =>
    subst own
    apply ConsumesAt.bind (.consume rfl)
    intro _
    apply Consumes.quiet_bind (.emit _ _)
    intro _
    apply Consumes.bind (arguments 1 _ (by omega))
    exact fun count => .quiet (Quiet.className.bind fun _ => .emit _ _)
  · apply ConsumesAt.bind (Consumes.expect rfl kind)
    intro _
    apply Consumes.bind (.expect rfl)
    intro _
    apply Consumes.quiet_bind .currentText
    intro subroutine
    apply Consumes.quiet_bind (.lookup name)
    intro found
    cases found with
    | some v =>
      apply Consumes.quiet_bind (.emit _ _)
      intro _
      apply Consumes.bind (.expect rfl)
      intro _
      apply Consumes.bind (arguments 1 _ (by omega))
      exact fun count => .quiet (.emit _ _)
    | none =>
      apply Consumes.bind (.expect rfl)
      intro _
      apply Consumes.bind (arguments 0 _ (by omega))
      exact fun count => .quiet (.emit _ _)

end

/-! ## Terms and expressions -/

theorem consume_quiet {α : Type} {kind : TokenKind} {write : Unit → Compilation α}
    (takable : kind.isTakable) (quiet : ∀ u, Quiet (write u)) :
    ConsumesAt kind n 1 (consume >>= write) := by
  apply ConsumesAt.bind (.consume takable)
  exact fun u => .quiet (quiet u)

theorem applied_consumes {kind : TokenKind} {operand : Compilation Unit} (op : UnaryOperator)
    (takable : kind.isTakable) (consumes : Consumes (n - 1) 1 operand) :
    ConsumesAt kind n 1 (applied op operand) := by
  apply ConsumesAt.bind (.consume takable)
  intro _
  apply Consumes.quiet_bind .currentLine
  intro line
  apply Consumes.bind consumes
  exact fun _ => .quiet (.emit _ _)

theorem operation_consumes {kind : TokenKind} {operand : Compilation Unit}
    (operator : (BinaryOperator.ofKind? kind).isSome) (consumes : Consumes (n - 1) 1 operand) :
    ConsumesAt kind n 1 (do
      match BinaryOperator.ofKind? (← peekKind) with
      | some operator =>
        consume
        let line ← currentLine
        operand
        emit operator.instruction line
      | none => pure ()) := by
  apply ConsumesAt.peekKind_bind
  obtain ⟨op, found⟩ := Option.isSome_iff_exists.mp operator
  rw [found]
  apply ConsumesAt.bind (.consume (TokenKind.isTakable_of_found found rfl rfl))
  intro _
  apply Consumes.quiet_bind .currentLine
  intro line
  apply Consumes.bind consumes
  exact fun _ => .quiet (.emit _ _)

theorem name_consumes {name : String} {argument : Compilation Unit}
    (consumes : ∀ m ≤ n - 1, Consumes m 1 argument) (bounded : n - 1 ≤ bound + 1) :
    ConsumesAt .identifier n 1 (do
      consume
      let next ← peekKind
      if next = .mark .leftParen ∨ next = .mark .dot then
        call argument bound name
      else
        let v ← resolveCurrent
        if next = .mark .leftBracket then
          let line ← elementAddress argument v
          emitAll [.pop .pointer 1, .push .that 0] line
        else
          emit v.push (← currentLine)) := by
  apply ConsumesAt.bind (.consume rfl)
  intro _
  apply Consumes.peekKind_bind
  intro kind
  split
  · exact (call_consumes consumes name bounded kind).weaken
  · apply ConsumesAt.quiet_bind .resolveCurrent
    intro v
    split
    · apply ConsumesAt.bind (elementAddress_consumes consumes v kind)
      exact fun line => .quiet (.emitAll _ _)
    · exact .quiet (Quiet.currentLine.bind fun _ => .emit _ _)

-- The induction is on the bound. An expression takes no token on the way to its first term, so each
-- token that can be taken asks for two of the bound.
mutual

theorem expression_consumes : (bound n : Nat) → 2 * n ≤ bound → Consumes n 1 (expression bound)
  | 0, n => by
    intro bounded
    have none : n = 0 := by omega
    rw [none]
    exact .exhausted
  | bound + 1, n => by
    intro bounded
    apply Consumes.production
    apply Consumes.bind (term_consumes bound n (by omega))
    intro _
    apply Consumes.iterate (by omega) (by decide) (by decide)
    intro m le kind operator _
    exact operation_consumes operator (term_consumes bound (m - 1) (by omega))

theorem term_consumes : (bound n : Nat) → 2 * n ≤ bound + 1 → Consumes n 1 (term bound)
  | 0, n => by
    intro bounded
    have none : n = 0 := by omega
    rw [none]
    exact .exhausted
  | bound + 1, n => by
    intro bounded
    have inner (m : Nat) (le : m ≤ n - 1) : Consumes m 1 (expression bound) :=
      expression_consumes bound m (by omega)
    have operand : Consumes (n - 1) 1 (term bound) := term_consumes bound (n - 1) (by omega)
    apply Consumes.production
    intro kind
    apply ConsumesAt.peekLexeme_bind
    intro l same
    subst same
    cases l with
    | integer digits => exact consume_quiet rfl fun _ => .integerConstant digits
    | string content => exact consume_quiet rfl fun _ => .stringConstant content
    | keyword k =>
      cases k with
      | true => exact consume_quiet rfl fun _ => Quiet.currentLine.bind fun _ => .emitAll _ _
      | false | null | this =>
        exact consume_quiet rfl fun _ => Quiet.currentLine.bind fun _ => .emit _ _
      | _ => exact .fail nofun
    | identifier name => exact name_consumes inner (by omega)
    | mark m =>
      cases m with
      | leftParen =>
        apply ConsumesAt.bind (.consume rfl)
        intro _
        apply Consumes.bind (inner (n - 1) le_rfl)
        exact fun _ => (Consumes.expect rfl).weaken
      | minus => exact applied_consumes .negate rfl operand
      | tilde => exact applied_consumes .complement rfl operand
      | _ => exact .fail nofun
    | fault f => exact .fail nofun
    | endOfInput => exact .fail nofun

end

end

end JackVm

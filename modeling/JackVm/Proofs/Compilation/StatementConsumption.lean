import JackVm.Proofs.Compilation.ExpressionConsumption

/-!
# Consumption by statements

Every statement takes its first word before it goes on to an expression or to other statements.
-/

namespace JackVm

open Compilation

section
variable {n bound : Nat}

theorem expect_consumes {kind : TokenKind} (takable : kind.isTakable) :
    Consumes n 0 (expect kind) :=
  (Consumes.expect takable).weaken

theorem letStatement_consumes (bounded : 2 * n ≤ bound + 1) :
    Consumes n 1 (letStatement bound) := by
  have value (m : Nat) (le : m ≤ n - 1) : Consumes m 1 (expression bound) :=
    expression_consumes bound m (by omega)
  apply Consumes.production
  apply Consumes.bind (.expect rfl)
  intro _
  apply Consumes.bind (.expect rfl)
  intro _
  apply Consumes.quiet_bind .resolveCurrent
  intro v
  apply Consumes.peekKind_bind
  intro kind
  split
  · apply ConsumesAt.bind (elementAddress_consumes (fun m le => value m (by omega)) v kind)
    intro _
    apply Consumes.bind (.expect rfl)
    intro _
    apply Consumes.bind (value _ (by omega))
    intro _
    apply Consumes.quiet_bind .currentLine
    intro line
    apply Consumes.quiet_bind (.emitAll _ _)
    exact fun _ => expect_consumes rfl
  · apply ConsumesAt.bind (Consumes.expect rfl kind)
    intro _
    apply Consumes.bind (value _ (by omega))
    intro _
    apply Consumes.quiet_bind .currentLine
    intro line
    apply Consumes.quiet_bind (.emit _ _)
    exact fun _ => expect_consumes rfl

theorem doStatement_consumes (bounded : 2 * n ≤ bound + 1) :
    Consumes n 1 (doStatement bound) := by
  apply Consumes.production
  apply Consumes.bind (.expect rfl)
  intro _
  apply Consumes.bind (.expect rfl)
  intro _
  apply Consumes.quiet_bind .currentText
  intro name
  apply Consumes.bind (call_consumes (fun m le => expression_consumes bound m (by omega)) name
    (by omega))
  intro _
  apply Consumes.bind (.expect rfl)
  exact fun _ => .quiet (Quiet.currentLine.bind fun _ => .emit _ _)

theorem returnStatement_consumes (bounded : 2 * n ≤ bound + 1) :
    Consumes n 1 (returnStatement bound) := by
  have ending (m : Nat) : Consumes m 0 (do
      expect (.mark .semicolon)
      emit .return (← currentLine)) := by
    apply Consumes.bind (.expect rfl)
    exact fun _ => .quiet (Quiet.currentLine.bind fun _ => .emit _ _)
  apply Consumes.production
  apply Consumes.bind (.expect rfl)
  intro _
  apply Consumes.peekKind_bind
  intro kind
  split
  · apply ConsumesAt.quiet_bind .currentLine
    intro line
    apply ConsumesAt.quiet_bind (.emit _ _)
    exact fun _ => ending _ kind
  · apply ConsumesAt.bind (expression_consumes bound _ (by omega) kind)
    exact fun _ => ending _

section
variable {nested : Compilation Unit} (consumes : ∀ m ≤ n - 1, Consumes m 0 nested)
include consumes

theorem block_consumes {m : Nat} (le : m ≤ n) : Consumes m 1 (block nested) := by
  apply Consumes.bind (.expect rfl)
  intro _
  apply Consumes.bind (consumes _ (by omega))
  exact fun _ => expect_consumes rfl

theorem ifStatement_consumes (bounded : 2 * n ≤ bound + 1) :
    Consumes n 1 (ifStatement nested bound) := by
  apply Consumes.production
  apply Consumes.quiet_bind .nextIfLabel
  intro number
  apply Consumes.bind (.expect rfl)
  intro _
  apply Consumes.bind (.expect rfl)
  intro _
  apply Consumes.bind (expression_consumes bound _ (by omega))
  intro _
  apply Consumes.bind (.expect rfl)
  intro _
  apply Consumes.quiet_bind .currentLine
  intro line
  apply Consumes.quiet_bind (.emitAll _ _)
  intro _
  apply Consumes.bind (block_consumes consumes (by omega))
  intro _
  apply Consumes.quiet_bind .currentLine
  intro line
  apply Consumes.peekKind_bind
  intro kind
  split
  · next otherwise =>
    subst otherwise
    apply ConsumesAt.quiet_bind (.emitAll _ _)
    intro _
    apply ConsumesAt.bind (.consume rfl)
    intro _
    apply Consumes.bind (block_consumes consumes (by omega))
    exact fun _ => .quiet (Quiet.currentLine.bind fun _ => .emit _ _)
  · exact .quiet (.emit _ _)

theorem whileStatement_consumes (bounded : 2 * n ≤ bound + 1) :
    Consumes n 1 (whileStatement nested bound) := by
  apply Consumes.production
  apply Consumes.quiet_bind .nextWhileLabel
  intro number
  apply Consumes.quiet_bind .peekLine
  intro line
  apply Consumes.quiet_bind (.emit _ _)
  intro _
  apply Consumes.bind (.expect rfl)
  intro _
  apply Consumes.bind (.expect rfl)
  intro _
  apply Consumes.bind (expression_consumes bound _ (by omega))
  intro _
  apply Consumes.quiet_bind .currentLine
  intro line
  apply Consumes.quiet_bind (.emitAll _ _)
  intro _
  apply Consumes.bind (.expect rfl)
  intro _
  apply Consumes.bind (.expect rfl)
  intro _
  apply Consumes.bind (consumes _ (by omega))
  intro _
  apply Consumes.quiet_bind .peekLine
  intro line
  apply Consumes.quiet_bind (.emitAll _ _)
  exact fun _ => expect_consumes rfl

theorem statement_consumes (bounded : 2 * n ≤ bound + 1) :
    Consumes n 1 (statement nested bound) := by
  apply Consumes.peekKind_bind
  intro kind
  cases StatementForm.ofKind? kind with
  | none => exact .fail nofun
  | some form =>
    cases form with
    | «let» => exact letStatement_consumes bounded kind
    | «if» => exact ifStatement_consumes consumes bounded kind
    | «while» => exact whileStatement_consumes consumes bounded kind
    | «do» => exact doStatement_consumes bounded kind
    | «return» => exact returnStatement_consumes bounded kind

end

theorem statements_consumes (bound n : Nat) (bounded : 2 * n ≤ bound) :
    Consumes n 0 (statements bound) := by
  induction bound generalizing n with
  | zero =>
    have none : n = 0 := by omega
    rw [none]
    exact .exhausted
  | succ bound ih =>
    apply Consumes.production
    apply Consumes.iterate (by omega) (by decide) (by decide)
    intro m le kind _ _
    exact statement_consumes (fun l below => ih l (by omega)) (by omega) kind

end

end JackVm
